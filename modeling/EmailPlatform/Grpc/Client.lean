import EmailPlatform.Js.NumberText

/-!
# EmailPlatform.Grpc.Client

The clients that `defineGrpcClient` builds. The facade of `promisifyGrpcClient` writes the
deadline of a call into its metadata; the interceptor of `createDeadlineInterceptor` gives
the call a deadline when it comes without one. ts-proto clients pass the metadata on and no
other options.
-/

namespace EmailPlatform.Grpc

/-- `GRPC_CLIENT_DEADLINE.METADATA_HEADER` -/
def METADATA_HEADER : String := "grpc-timeout"

/-- `GRPC_CLIENT_DEADLINE.METADATA_UNIT_MILLISECONDS` -/
def METADATA_UNIT_MILLISECONDS : List Char := ['m']

/-- What `GrpcSchema` accepts for `GRPC_DEADLINE_MS`, once it is a number. -/
def GrpcSchema.acceptsDeadline : JsNumber → Bool
  | .finite q => 0 < q
  | _ => false

/-- `GrpcConfig`, as far as deadlines go. -/
structure GrpcConfig where
  /-- A finite number. -/
  GRPC_DEADLINE_MS : ℚ
  isDouble : Double.IsDouble GRPC_DEADLINE_MS
  accepted : GrpcSchema.acceptsDeadline (.finite GRPC_DEADLINE_MS) = true

theorem GrpcConfig.pos (config : GrpcConfig) : 0 < config.GRPC_DEADLINE_MS := by
  simpa [GrpcSchema.acceptsDeadline] using config.accepted

/-- `CallOpts` -/
structure CallOpts where
  deadlineMs : Option JsNumber

/-- The call of a ts-proto client. -/
structure RawCall (R : Type*) where
  method : String
  request : R
  metadata : List (String × List Char)

/-- `callOpts?.deadlineMs ?? opts.defaultDeadlineMs` -/
def deadlineMs (defaultDeadlineMs : JsNumber) (callOpts : Option CallOpts) : JsNumber :=
  (callOpts.bind CallOpts.deadlineMs).getD defaultDeadlineMs

/-- A method call on the facade of `promisifyGrpcClient`; only RPC methods are wrapped. -/
def promisifyGrpcClient {R : Type*} (format : NumberFormat) (rpcMethods : List String)
    (defaultDeadlineMs : JsNumber) (method : String) (request : R) (callOpts : Option CallOpts) :
    Option (RawCall R) :=
  if method ∈ rpcMethods then
    let value := format.toString (deadlineMs defaultDeadlineMs callOpts)
    some ⟨method, request, [(METADATA_HEADER, value ++ METADATA_UNIT_MILLISECONDS)]⟩
  else none

/-- The largest time value of a `Date`. -/
def maxTime : ℚ := 8640000000000000

/-- The time value of `new Date(n)`; `NaN` for an invalid date. -/
def newDate : JsNumber → JsNumber
  | .finite q => if |q| ≤ maxTime then .finite (if 0 ≤ q then ⌊q⌋ else ⌈q⌉) else .nan
  | _ => .nan

/-- `options.deadline`: a date, by its time value, or a number. -/
inductive Deadline
  | date (time : JsNumber)
  | number (n : JsNumber)
  deriving DecidableEq

/-- `!options.deadline` -/
def isUnset : Option Deadline → Bool
  | none => true
  | some (.number n) => n = .nan ∨ n = .finite 0
  | some (.date _) => false

/-- The interceptor of `createDeadlineInterceptor`, run at `now`: the deadline that the call
goes on with. -/
def createDeadlineInterceptor (defaultDeadlineMs : JsNumber) (now : ℕ)
    (deadline : Option Deadline) : Option Deadline :=
  if isUnset deadline then some (.date (newDate (JsNumber.add now defaultDeadlineMs)))
  else deadline

/-- A call as it leaves the client. -/
structure GovernedCall (R : Type*) where
  call : RawCall R
  deadline : Option Deadline

/-- A method call on a client of `defineGrpcClient`, at `now`. -/
def defineGrpcClient {R : Type*} (format : NumberFormat) (rpcMethods : List String)
    (config : GrpcConfig) (now : ℕ) (method : String) (request : R) (callOpts : Option CallOpts) :
    Option (GovernedCall R) :=
  (promisifyGrpcClient format rpcMethods (.finite config.GRPC_DEADLINE_MS) method request
    callOpts).map fun call =>
      ⟨call, createDeadlineInterceptor (.finite config.GRPC_DEADLINE_MS) now none⟩

end EmailPlatform.Grpc
