import EmailPlatform.Js.Value
import Mathlib.Tactic.Common

/-!
# EmailPlatform.Errors.Filters

**From an exception in a service to the body of an HTTP response**
(`external/errors/`). Two exception filters stand on the way: `AllRpcExceptionsFilter`
decides what a service throws into gRPC, and `GrpcToHttpExceptionFilter` what the gateway
answers. Each sees values of any shape.

Everything the gateway answers to an exception that is no `HttpException` is looked up by
the gRPC code (`respond_eq`); the texts of the exception only reach the log. That is
`respond_noninterference`: two exceptions that arrive with the same code cannot be told
apart by the client.
-/

namespace EmailPlatform.Errors

/-! ### Codes, statuses and texts -/

/-! `ERROR_MESSAGE`. -/

namespace ERROR_MESSAGE

def NOT_FOUND : String := "Resource not found"
def INVALID_ARGUMENT : String := "Invalid request data"
def ALREADY_EXISTS : String := "Resource already exists"
def PERMISSION_DENIED : String := "Permission denied"
def UNAUTHENTICATED : String := "Authentication required"
def INTERNAL : String := "Internal server error"
def UNAVAILABLE : String := "Service temporarily unavailable"
def FAILED_PRECONDITION : String := "Request precondition not met"
def OUT_OF_RANGE : String := "Value out of acceptable range"
def ABORTED : String := "Operation was aborted"
def DEADLINE_EXCEEDED : String := "Request timed out"
def RESOURCE_EXHAUSTED : String := "Too many requests"
def DATA_LOSS : String := "Internal server error"
def CANCELLED : String := "Request was cancelled"
def UNIMPLEMENTED : String := "Operation not supported"

end ERROR_MESSAGE

/-! The `status` enumeration of `@grpc/grpc-js`. -/

namespace GrpcStatus

def CANCELLED : Nat := 1
def UNKNOWN : Nat := 2
def INVALID_ARGUMENT : Nat := 3
def DEADLINE_EXCEEDED : Nat := 4
def NOT_FOUND : Nat := 5
def ALREADY_EXISTS : Nat := 6
def PERMISSION_DENIED : Nat := 7
def RESOURCE_EXHAUSTED : Nat := 8
def FAILED_PRECONDITION : Nat := 9
def ABORTED : Nat := 10
def OUT_OF_RANGE : Nat := 11
def UNIMPLEMENTED : Nat := 12
def INTERNAL : Nat := 13
def UNAVAILABLE : Nat := 14
def DATA_LOSS : Nat := 15
def UNAUTHENTICATED : Nat := 16

end GrpcStatus

/-! The `HttpStatus` enumeration of NestJS, as far as the tables name it. -/

namespace HttpStatus

def BAD_REQUEST : Nat := 400
def UNAUTHORIZED : Nat := 401
def FORBIDDEN : Nat := 403
def NOT_FOUND : Nat := 404
def CONFLICT : Nat := 409
def TOO_MANY_REQUESTS : Nat := 429
def INTERNAL_SERVER_ERROR : Nat := 500
def NOT_IMPLEMENTED : Nat := 501
def SERVICE_UNAVAILABLE : Nat := 503
def GATEWAY_TIMEOUT : Nat := 504

end HttpStatus

/-- `GRPC_TO_HTTP`. -/
def GRPC_TO_HTTP : List (Nat × Nat) :=
  [(GrpcStatus.INVALID_ARGUMENT, HttpStatus.BAD_REQUEST),
    (GrpcStatus.FAILED_PRECONDITION, HttpStatus.BAD_REQUEST),
    (GrpcStatus.OUT_OF_RANGE, HttpStatus.BAD_REQUEST),
    (GrpcStatus.NOT_FOUND, HttpStatus.NOT_FOUND),
    (GrpcStatus.ALREADY_EXISTS, HttpStatus.CONFLICT),
    (GrpcStatus.ABORTED, HttpStatus.CONFLICT),
    (GrpcStatus.PERMISSION_DENIED, HttpStatus.FORBIDDEN),
    (GrpcStatus.UNAUTHENTICATED, HttpStatus.UNAUTHORIZED),
    (GrpcStatus.UNAVAILABLE, HttpStatus.SERVICE_UNAVAILABLE),
    (GrpcStatus.DEADLINE_EXCEEDED, HttpStatus.GATEWAY_TIMEOUT),
    (GrpcStatus.RESOURCE_EXHAUSTED, HttpStatus.TOO_MANY_REQUESTS),
    (GrpcStatus.UNIMPLEMENTED, HttpStatus.NOT_IMPLEMENTED),
    (GrpcStatus.INTERNAL, HttpStatus.INTERNAL_SERVER_ERROR),
    (GrpcStatus.UNKNOWN, HttpStatus.INTERNAL_SERVER_ERROR),
    (GrpcStatus.DATA_LOSS, HttpStatus.INTERNAL_SERVER_ERROR),
    (GrpcStatus.CANCELLED, HttpStatus.INTERNAL_SERVER_ERROR)]

/-- `ERROR_CODE_TO_MESSAGE`. -/
def ERROR_CODE_TO_MESSAGE : List (Nat × String) :=
  [(GrpcStatus.INVALID_ARGUMENT, ERROR_MESSAGE.INVALID_ARGUMENT),
    (GrpcStatus.FAILED_PRECONDITION, ERROR_MESSAGE.FAILED_PRECONDITION),
    (GrpcStatus.OUT_OF_RANGE, ERROR_MESSAGE.OUT_OF_RANGE),
    (GrpcStatus.NOT_FOUND, ERROR_MESSAGE.NOT_FOUND),
    (GrpcStatus.ALREADY_EXISTS, ERROR_MESSAGE.ALREADY_EXISTS),
    (GrpcStatus.ABORTED, ERROR_MESSAGE.ABORTED),
    (GrpcStatus.PERMISSION_DENIED, ERROR_MESSAGE.PERMISSION_DENIED),
    (GrpcStatus.UNAUTHENTICATED, ERROR_MESSAGE.UNAUTHENTICATED),
    (GrpcStatus.UNAVAILABLE, ERROR_MESSAGE.UNAVAILABLE),
    (GrpcStatus.DEADLINE_EXCEEDED, ERROR_MESSAGE.DEADLINE_EXCEEDED),
    (GrpcStatus.RESOURCE_EXHAUSTED, ERROR_MESSAGE.RESOURCE_EXHAUSTED),
    (GrpcStatus.UNIMPLEMENTED, ERROR_MESSAGE.UNIMPLEMENTED),
    (GrpcStatus.INTERNAL, ERROR_MESSAGE.INTERNAL),
    (GrpcStatus.UNKNOWN, ERROR_MESSAGE.INTERNAL),
    (GrpcStatus.DATA_LOSS, ERROR_MESSAGE.DATA_LOSS),
    (GrpcStatus.CANCELLED, ERROR_MESSAGE.CANCELLED)]

/-- `table[code]`: only a whole number spells a key of the table. -/
def lookupCode {α : Type} (table : List (Nat × α)) (code : JsNumber) : Option α :=
  (table.find? fun p => (p.1 : JsNumber) = code).map Prod.snd

theorem lookupCode_mem {α : Type} {table : List (Nat × α)} {code : JsNumber} {a : α}
    (h : lookupCode table code = some a) : ∃ n, (n, a) ∈ table := by
  obtain ⟨p, hp, rfl⟩ := Option.map_eq_some_iff.mp h
  exact ⟨p.1, List.mem_of_find?_eq_some hp⟩

/-- `HEADER.FALLBACK_CORRELATION_ID`. -/
def FALLBACK_CORRELATION_ID : String := "no-correlation-id"

/-- `HTTP_ERROR.FALLBACK_MESSAGE`. -/
def FALLBACK_MESSAGE : String := "Internal Server Error"

/-! ### The service side -/

/-- A log line of a filter. -/
structure LogLine where
  level : String
  fields : List (String × JsValue)
  text : String

/-- `AllRpcExceptionsFilter.catch`: what is thrown into gRPC, and what is logged. -/
def AllRpcExceptionsFilter.catch (exception : JsValue) : JsValue × LogLine :=
  match exception with
  | .object (.rpcException error) _ =>
    (error, ⟨"warn", [("error", error)], "RPC exception"⟩)
  | _ =>
    let errorMessage :=
      if exception.isError then (exception.get? "message").getD .undefined
      else .str ERROR_MESSAGE.INTERNAL
    let stack := if exception.isError then (exception.get? "stack").getD .undefined else .undefined
    (.object .plain [("code", .num (GrpcStatus.INTERNAL : ℕ)),
        ("message", .str ERROR_MESSAGE.INTERNAL)],
      ⟨"error", [("error", errorMessage), ("stack", stack)],
        "Unhandled exception in gRPC service"⟩)

/-- `new GrpcException(code, message, details)`: the payload of the `RpcException` and a
property of its own both have the code. -/
def GrpcException (code : Nat) (message : String) (details : Option JsValue) : JsValue :=
  .object
    (.rpcException (.object .plain ([("code", .num (code : ℕ)), ("message", .str message)] ++
      (details.map fun d => ("details", d)).toList)))
    [("message", .str message), ("code", .num (code : ℕ))]

/-! ### The gateway side -/

/-- What a filter reads besides the exception. -/
structure RequestContext where
  /-- `cls.getId()`. -/
  clsId : Option String
  /-- `new Date().toISOString()`. -/
  timestamp : String

/-- An HTTP response. -/
structure HttpResponse where
  status : Nat
  body : JsValue

namespace GrpcToHttpExceptionFilter

/-- `extractGrpcCode`. -/
def extractGrpcCode (exception : JsValue) : JsNumber :=
  (exception.getNumber? "code").getD (GrpcStatus.INTERNAL : ℕ)

/-- `extractRawMessage`. -/
def extractRawMessage (exception : JsValue) : JsValue :=
  if exception.isError then (exception.get? "message").getD .undefined
  else
    match exception.getString? "message" with
    | some message => .str message
    | none =>
      match exception.getString? "details" with
      | some details => .str details
      | none => .str ERROR_MESSAGE.INTERNAL

/-- `cls.getId() ?? HEADER.FALLBACK_CORRELATION_ID`. -/
def correlationId (ctx : RequestContext) : JsValue := .str (ctx.clsId.getD FALLBACK_CORRELATION_ID)

/-- `catch`: the response and the log line. `statusName` is the reverse of the `HttpStatus`
enumeration, `HttpStatus[status]`. -/
def «catch» (statusName : Nat → Option String) (ctx : RequestContext) (exception : JsValue) :
    HttpResponse × Option LogLine :=
  match exception with
  | .object (.httpException status body) _ =>
    let responseBody : JsValue :=
      if body.isTypeofObject then
        -- `{ ...body, correlationId, timestamp }`
        .object .plain (body.props.spread
          [("correlationId", correlationId ctx), ("timestamp", .str ctx.timestamp)])
      else
        .object .plain [("statusCode", .num (status : ℕ)), ("message", body),
          ("error", .str ((statusName status).getD FALLBACK_MESSAGE)),
          ("correlationId", correlationId ctx), ("timestamp", .str ctx.timestamp)]
    (⟨status, responseBody⟩, none)
  | _ =>
    let grpcCode := extractGrpcCode exception
    let rawMessage := extractRawMessage exception
    let safeMessage := (lookupCode ERROR_CODE_TO_MESSAGE grpcCode).getD ERROR_MESSAGE.INTERNAL
    let httpStatus := (lookupCode GRPC_TO_HTTP grpcCode).getD HttpStatus.INTERNAL_SERVER_ERROR
    (⟨httpStatus, .object .plain [("statusCode", .num (httpStatus : ℕ)),
        ("message", .str safeMessage),
        ("error", .str ((statusName httpStatus).getD FALLBACK_MESSAGE)),
        ("correlationId", correlationId ctx), ("timestamp", .str ctx.timestamp)]⟩,
      some ⟨"warn", [("grpcCode", .num grpcCode), ("httpStatus", .num (httpStatus : ℕ)),
        ("message", rawMessage)], "gRPC-to-HTTP error mapping"⟩)

/-- The body of the answer to a gRPC error: a function of the code, but for the two fields
of the request. -/
def grpcResponse (statusName : Nat → Option String) (ctx : RequestContext) (grpcCode : JsNumber) :
    HttpResponse :=
  let safeMessage := (lookupCode ERROR_CODE_TO_MESSAGE grpcCode).getD ERROR_MESSAGE.INTERNAL
  let httpStatus := (lookupCode GRPC_TO_HTTP grpcCode).getD HttpStatus.INTERNAL_SERVER_ERROR
  ⟨httpStatus, .object .plain [("statusCode", .num (httpStatus : ℕ)),
    ("message", .str safeMessage),
    ("error", .str ((statusName httpStatus).getD FALLBACK_MESSAGE)),
    ("correlationId", correlationId ctx), ("timestamp", .str ctx.timestamp)]⟩

/-- Of an exception that is no `HttpException` the answer reads the code only. -/
theorem catch_fst {statusName : Nat → Option String} {ctx : RequestContext} {exception : JsValue}
    (h : exception.isHttpException = false) :
    («catch» statusName ctx exception).1 =
      grpcResponse statusName ctx (extractGrpcCode exception) := by
  unfold «catch»
  split
  · cases h
  · rfl

/-- Whatever the exception, the body names the id of the request. -/
theorem get?_correlationId (statusName : Nat → Option String) (ctx : RequestContext)
    (exception : JsValue) :
    («catch» statusName ctx exception).1.body.get? "correlationId" =
      some (correlationId ctx) := by
  unfold «catch»
  split
  · next body _ =>
    have hkeys : (Props.keys [("correlationId", correlationId ctx),
        ("timestamp", JsValue.str ctx.timestamp)]).Nodup := by simp [Props.keys]
    by_cases hbody : body.isTypeofObject = true
    · simp only [if_pos hbody, JsValue.get?, JsValue.props]
      rw [Props.find?_spread hkeys List.mem_cons_self]
      rfl
    · simp only [if_neg hbody]
      rfl
  · rfl

/-- Every status of the table is an error. -/
theorem error_status (grpcCode : JsNumber) :
    400 ≤ (lookupCode GRPC_TO_HTTP grpcCode).getD HttpStatus.INTERNAL_SERVER_ERROR := by
  cases h : lookupCode GRPC_TO_HTTP grpcCode with
  | none => decide
  | some status =>
      obtain ⟨n, hn⟩ := lookupCode_mem h
      have hall : ∀ p ∈ GRPC_TO_HTTP, 400 ≤ p.2 := by decide
      exact hall _ hn

/-- The two tables have an entry for the same codes. -/
theorem tables_agree (code : JsNumber) :
    (lookupCode GRPC_TO_HTTP code).isSome = (lookupCode ERROR_CODE_TO_MESSAGE code).isSome := by
  have hkeys : GRPC_TO_HTTP.map Prod.fst = ERROR_CODE_TO_MESSAGE.map Prod.fst := rfl
  have hfind : ∀ {α : Type} (table : List (Nat × α)),
      (lookupCode table code).isSome = (table.map Prod.fst).any fun n => (n : JsNumber) = code := by
    intro α table
    unfold lookupCode
    rw [Bool.eq_iff_iff, Option.isSome_map, List.find?_isSome, List.any_map, List.any_eq_true]
    rfl
  rw [hfind, hfind, hkeys]

end GrpcToHttpExceptionFilter

/-! ### Both filters over gRPC -/

/-- The integer code of a thrown value. -/
def integerCode? (thrown : JsValue) : Option ℤ :=
  match thrown.getNumber? "code" with
  | some (.finite q) => if q.den = 1 then some q.num else none
  | _ => none

/-- What gRPC delivers for a thrown value: an error with its integer code, or `UNKNOWN`.
The message, details and metadata it derives may be anything. -/
def Delivered (thrown arrived : JsValue) : Prop :=
  ∃ props, arrived = .object .error props ∧
    arrived.getNumber? "code" =
      some (.finite ((integerCode? thrown).getD (GrpcStatus.UNKNOWN : ℕ)))

/-- An exception, and a value that reaches the gateway's filter because of it. -/
inductive Arrives : JsValue → JsValue → Prop
  | service {exception arrived : JsValue} :
      Delivered (AllRpcExceptionsFilter.catch exception).1 arrived → Arrives exception arrived
  /-- Raised in the gateway itself. -/
  | gateway (exception : JsValue) : Arrives exception exception

/-- gRPC delivers no `HttpException`. -/
theorem Arrives.isHttpException {exception arrived : JsValue} (h : Arrives exception arrived)
    (he : exception.isHttpException = false) : arrived.isHttpException = false := by
  cases h with
  | service hd =>
      obtain ⟨props, rfl, -⟩ := hd
      rfl
  | gateway => exact he

/-- The fields a client sees of an exception. -/
def publicFields : List String := ["statusCode", "message", "error"]

/-- The answer to an exception has the public fields and the two of the request, and a
status that is an error and is the one in the body. -/
structure WellFormedError (response : HttpResponse) : Prop where
  fields : response.body.props.map Prod.fst = publicFields ++ ["correlationId", "timestamp"]
  statusCode : response.body.get? "statusCode" = some (.num (response.status : ℕ))
  isError : 400 ≤ response.status

open GrpcToHttpExceptionFilter

theorem grpcResponse_public (statusName : Nat → Option String) (ctx₁ ctx₂ : RequestContext)
    (code : JsNumber) : ∀ key ∈ publicFields,
      (grpcResponse statusName ctx₁ code).body.get? key =
        (grpcResponse statusName ctx₂ code).body.get? key := by
  intro key hkey
  simp only [publicFields, List.mem_cons, List.not_mem_nil, or_false] at hkey
  rcases hkey with rfl | rfl | rfl <;> rfl

theorem wellFormed_grpcResponse (statusName : Nat → Option String) (ctx : RequestContext)
    (code : JsNumber) : WellFormedError (grpcResponse statusName ctx code) where
  fields := rfl
  statusCode := rfl
  isError := error_status code

/-- **Noninterference.** Whatever two exceptions are like, if they arrive with the same
numeric code, or both without one, the client gets the same status and the same public
fields. -/
theorem respond_noninterference (statusName : Nat → Option String)
    {e₁ e₂ a₁ a₂ : JsValue} (he₁ : e₁.isHttpException = false)
    (he₂ : e₂.isHttpException = false) (ha₁ : Arrives e₁ a₁) (ha₂ : Arrives e₂ a₂)
    (hcode : a₁.getNumber? "code" = a₂.getNumber? "code") (ctx₁ ctx₂ : RequestContext) :
    let r₁ := (GrpcToHttpExceptionFilter.catch statusName ctx₁ a₁).1
    let r₂ := (GrpcToHttpExceptionFilter.catch statusName ctx₂ a₂).1
    r₁.status = r₂.status ∧ (∀ key ∈ publicFields, r₁.body.get? key = r₂.body.get? key) ∧
      WellFormedError r₁ ∧ WellFormedError r₂ := by
  intro r₁ r₂
  have hr₁ : r₁ = grpcResponse statusName ctx₁ (extractGrpcCode a₁) :=
    catch_fst (ha₁.isHttpException he₁)
  have hr₂ : r₂ = grpcResponse statusName ctx₂ (extractGrpcCode a₁) := by
    have hsame : extractGrpcCode a₁ = extractGrpcCode a₂ := by
      unfold extractGrpcCode
      rw [hcode]
    rw [hsame]
    exact catch_fst (ha₂.isHttpException he₂)
  rw [hr₁, hr₂]
  exact ⟨rfl, grpcResponse_public statusName ctx₁ ctx₂ _, wellFormed_grpcResponse _ _ _,
    wellFormed_grpcResponse _ _ _⟩

/-- What a service that does not find a user throws. -/
def userNotFound : JsValue :=
  GrpcException GrpcStatus.NOT_FOUND "no row in auth.users" (some (.str "id = 7"))

/-- It arrives with a text of gRPC's making, and is answered like an error of the gateway
that has the same code. -/
theorem respond_noninterference_notFound :
    (GrpcToHttpExceptionFilter.catch (fun _ => none) ⟨some "7f", "2024-05-01T00:00:00.000Z"⟩
        (.object .error
          [("code", .num (5 : ℕ)), ("details", .str "no row in auth.users")])).1.status =
      (GrpcToHttpExceptionFilter.catch (fun _ => none) ⟨none, "2024-05-02T00:00:00.000Z"⟩
        (.object .plain [("code", .num (5 : ℕ))])).1.status := by
  have hservice : Arrives userNotFound (.object .error
      [("code", .num (5 : ℕ)), ("details", .str "no row in auth.users")]) := by
    refine .service ⟨_, rfl, ?_⟩
    rfl
  exact (respond_noninterference (fun _ => none) rfl rfl hservice (.gateway _) rfl _ _).1

end EmailPlatform.Errors
