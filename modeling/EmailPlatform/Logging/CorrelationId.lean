import EmailPlatform.Core.Machine
import EmailPlatform.Errors.Filters
import EmailPlatform.Http.RequestExecutor

/-!
# EmailPlatform.Logging.CorrelationId

**Which id a request goes by** (`external/logging/logging.module.ts`). Two middlewares give
it one: that of nestjs-cls, whose id the HTTP client logs and the error filter read, and
that of pino-http, whose id is in every line of the request's own logger. Both generators
take the header of the request and fall back on `crypto.randomUUID()`, each with a call of
its own.

The middlewares of many requests are interleaved in any order. `Issued` says what an id that
some middleware has stored can be, and that no two of them share a fresh value; it holds in
every state (`Issued.of_reaches`), and the rest is read off it.
-/

namespace EmailPlatform.Logging

open Errors Http

/-! ### The generators -/

/-- `HEADER.CORRELATION_ID`. -/
def CORRELATION_ID : String := "x-correlation-id"

/-- A request, as far as the middlewares read it. The names of the headers are in lower
case, and a header that is sent twice is one string. -/
structure Request where
  method : String
  url : String
  headers : Props String

/-- `req.headers[HEADER.CORRELATION_ID]`. -/
def Request.correlationHeader (req : Request) : Option String :=
  (req.headers.find? (·.1 = CORRELATION_ID)).map Prod.snd

/-- The client sent `id` as the header; an empty header is falsy. -/
def Request.Sent (req : Request) (id : String) : Prop :=
  req.correlationHeader = some id ∧ id ≠ ""

/-- What the calls of `crypto.randomUUID` return, in order: no value twice. -/
structure RandomUUID where
  value : ℕ → String
  injective : Function.Injective value

/-- `req.headers[HEADER.CORRELATION_ID] || crypto.randomUUID()`, with `drawn` calls made
before: the id, and the number of calls made after. -/
def headerOrRandom (uuid : RandomUUID) (drawn : ℕ) (req : Request) : String × ℕ :=
  match req.correlationHeader with
  | some id => if id = "" then (uuid.value drawn, drawn + 1) else (id, drawn)
  | none => (uuid.value drawn, drawn + 1)

/-- `idGenerator` of the `ClsModule`. -/
def idGenerator (uuid : RandomUUID) (drawn : ℕ) (req : Request) : String × ℕ :=
  headerOrRandom uuid drawn req

/-- `genReqId` of the `PinoLoggerModule`. -/
def genReqId (uuid : RandomUUID) (drawn : ℕ) (req : Request) : String × ℕ :=
  headerOrRandom uuid drawn req

theorem headerOrRandom_cases (uuid : RandomUUID) (drawn : ℕ) (req : Request) :
    (∃ id, req.Sent id ∧ headerOrRandom uuid drawn req = (id, drawn)) ∨
      ((∀ id, ¬ req.Sent id) ∧
        headerOrRandom uuid drawn req = (uuid.value drawn, drawn + 1)) := by
  unfold headerOrRandom Request.Sent
  cases req.correlationHeader with
  | none => exact .inr ⟨fun _ h => absurd h.1 (by simp), rfl⟩
  | some id =>
      by_cases hid : id = ""
      · refine .inr ⟨?_, if_pos hid⟩
        intro id' ⟨heq, hne⟩
        exact hne ((Option.some.inj heq).symm.trans hid)
      · exact .inl ⟨id, ⟨rfl, hid⟩, if_neg hid⟩

/-! ### The service -/

/-- The middlewares that `LoggingModule.forHttpAsync` registers. -/
inductive Middleware
  | cls | pino
  deriving DecidableEq, Repr

/-- Which generator a middleware calls. -/
def Middleware.generate : Middleware → RandomUUID → ℕ → Request → String × ℕ
  | .cls => idGenerator
  | .pino => genReqId

theorem Middleware.generate_eq (m : Middleware) : m.generate = headerOrRandom := by
  cases m <;> rfl

/-- The ids that the middlewares have stored, for the `n`-th request of the process. -/
structure Service where
  /-- The calls of `crypto.randomUUID` so far. -/
  drawn : ℕ
  stored : Middleware × ℕ → Option String

/-- What happens in a service. -/
inductive Action
  /-- A middleware runs for a request. -/
  | middleware (m : Middleware) (request : ℕ)
  /-- Other code calls `crypto.randomUUID`; the module itself does, for `instanceId`. -/
  | randomUUID

/-- A service of `LoggingModule.forHttpAsync` with its requests. A middleware runs once for
each of them. -/
def forHttpAsync (uuid : RandomUUID) (requests : ℕ → Request) :
    Machine Service Action Empty where
  init := ⟨0, fun _ => none⟩
  step s
    | .middleware m request =>
      match s.stored (m, request) with
      | some _ => none
      | none =>
        let (id, drawn) := m.generate uuid s.drawn (requests request)
        some (⟨drawn, Function.update s.stored (m, request) (some id)⟩, [])
    | .randomUUID => some ({ s with drawn := s.drawn + 1 }, [])

/-- A request that both middlewares have seen. -/
structure Context where
  request : Request
  /-- `cls.getId()`. -/
  clsId : String
  /-- `req.id`. -/
  reqId : String

/-- The context of the `n`-th request. -/
def Service.context (s : Service) (requests : ℕ → Request) (n : ℕ) : Option Context :=
  match s.stored (.cls, n), s.stored (.pino, n) with
  | some clsId, some reqId => some ⟨requests n, clsId, reqId⟩
  | _, _ => none

/-- What a step of a service can do: a middleware stores the header, or a fresh value, or
other code draws a value. -/
theorem step_cases {uuid : RandomUUID} {requests : ℕ → Request} {s s' : Service} {a : Action}
    {es : List Empty} (hs : (forHttpAsync uuid requests).step s a = some (s', es)) :
    (∃ m n id, s.stored (m, n) = none ∧ (requests n).Sent id ∧
        s' = ⟨s.drawn, Function.update s.stored (m, n) (some id)⟩) ∨
      (∃ m n, s.stored (m, n) = none ∧ (∀ id, ¬ (requests n).Sent id) ∧
        s' = ⟨s.drawn + 1, Function.update s.stored (m, n) (some (uuid.value s.drawn))⟩) ∨
      s' = ⟨s.drawn + 1, s.stored⟩ := by
  cases a with
  | randomUUID => exact .inr (.inr (congrArg Prod.fst (Option.some.inj hs)).symm)
  | middleware m n =>
      simp only [forHttpAsync, Middleware.generate_eq] at hs
      split at hs
      · cases hs
      · next hnone =>
        rcases headerOrRandom_cases uuid s.drawn (requests n) with ⟨id, hsent, heq⟩ | ⟨hno, heq⟩
        · rw [heq] at hs
          exact .inl ⟨m, n, id, hnone, hsent, (congrArg Prod.fst (Option.some.inj hs)).symm⟩
        · rw [heq] at hs
          exact .inr (.inl ⟨m, n, hnone, hno, (congrArg Prod.fst (Option.some.inj hs)).symm⟩)

/-- Where the stored ids come from: the header of the request if it has one, otherwise a
fresh value that is stored nowhere else. -/
structure Issued (uuid : RandomUUID) (requests : ℕ → Request) (s : Service) : Prop where
  header : ∀ {m n id v}, s.stored (m, n) = some id → (requests n).Sent v → id = v
  drawn : ∀ {m n id}, s.stored (m, n) = some id → (∀ v, ¬ (requests n).Sent v) →
    ∃ k < s.drawn, id = uuid.value k
  distinct : ∀ {m m' n n' id}, s.stored (m, n) = some id → s.stored (m', n') = some id →
    (∀ v, ¬ (requests n).Sent v) → (∀ v, ¬ (requests n').Sent v) → (m, n) = (m', n')

/-- What is stored after one more id. -/
theorem update_eq_some {stored : Middleware × ℕ → Option String} {m m' : Middleware} {n n' : ℕ}
    {id id' : String}
    (h : Function.update stored (m, n) (some id) (m', n') = some id') :
    ((m', n') = (m, n) ∧ id' = id) ∨ stored (m', n') = some id' := by
  by_cases heq : (m', n') = (m, n)
  · rw [heq, Function.update_self] at h
    exact .inl ⟨heq, (Option.some.inj h).symm⟩
  · rw [Function.update_of_ne heq] at h
    exact .inr h

/-- Storing the header keeps the invariant. -/
theorem Issued.store_header {uuid : RandomUUID} {requests : ℕ → Request} {s : Service}
    (hi : Issued uuid requests s) {m : Middleware} {n : ℕ} {id : String}
    (hsent : (requests n).Sent id) :
    Issued uuid requests ⟨s.drawn, Function.update s.stored (m, n) (some id)⟩ := by
  have hold : ∀ {m' n' id'}, Function.update s.stored (m, n) (some id) (m', n') = some id' →
      (∀ v, ¬ (requests n').Sent v) → s.stored (m', n') = some id' := by
    intro m' n' id' hid hno
    rcases update_eq_some hid with ⟨heq, -⟩ | hid
    · obtain ⟨-, rfl⟩ := Prod.mk.inj heq
      exact absurd hsent (hno id)
    · exact hid
  constructor
  · intro m' n' id' v hid hv
    rcases update_eq_some hid with ⟨heq, rfl⟩ | hid
    · obtain ⟨-, rfl⟩ := Prod.mk.inj heq
      exact Option.some.inj (hsent.1.symm.trans hv.1)
    · exact hi.header hid hv
  · intro m' n' id' hid hno
    exact hi.drawn (hold hid hno) hno
  · intro m₁ m₂ n₁ n₂ id' h₁ h₂ hno₁ hno₂
    exact hi.distinct (hold h₁ hno₁) (hold h₂ hno₂) hno₁ hno₂

/-- So does storing the next value of `crypto.randomUUID`. -/
theorem Issued.store_random {uuid : RandomUUID} {requests : ℕ → Request} {s : Service}
    (hi : Issued uuid requests s) {m : Middleware} {n : ℕ} (hno : ∀ v, ¬ (requests n).Sent v) :
    Issued uuid requests
      ⟨s.drawn + 1, Function.update s.stored (m, n) (some (uuid.value s.drawn))⟩ := by
  -- an id that was stored before is an earlier value
  have hfresh : ∀ {m' n'}, (∀ v, ¬ (requests n').Sent v) →
      s.stored (m', n') ≠ some (uuid.value s.drawn) := by
    intro m' n' hno' hid
    obtain ⟨k, hk, heq⟩ := hi.drawn hid hno'
    have hsame := uuid.injective heq
    omega
  constructor
  · intro m' n' id v hid hv
    rcases update_eq_some hid with ⟨heq, -⟩ | hid
    · obtain ⟨-, rfl⟩ := Prod.mk.inj heq
      exact absurd hv (hno v)
    · exact hi.header hid hv
  · intro m' n' id hid hno'
    rcases update_eq_some hid with ⟨-, rfl⟩ | hid
    · exact ⟨s.drawn, Nat.lt_succ_self _, rfl⟩
    · obtain ⟨k, hk, hid⟩ := hi.drawn hid hno'
      exact ⟨k, Nat.lt_succ_of_lt hk, hid⟩
  · intro m₁ m₂ n₁ n₂ id h₁ h₂ hno₁ hno₂
    rcases update_eq_some h₁ with ⟨heq₁, rfl⟩ | h₁
    · rcases update_eq_some h₂ with ⟨heq₂, -⟩ | h₂
      · exact heq₁.trans heq₂.symm
      · exact absurd h₂ (hfresh hno₂)
    · rcases update_eq_some h₂ with ⟨-, rfl⟩ | h₂
      · exact absurd h₁ (hfresh hno₁)
      · exact hi.distinct h₁ h₂ hno₁ hno₂

/-- It holds in every state a service can reach. -/
theorem Issued.of_reaches {uuid : RandomUUID} {requests : ℕ → Request} {h : List Empty}
    {s : Service} (hr : (forHttpAsync uuid requests).Reaches h s) : Issued uuid requests s := by
  refine Machine.Reaches.invariant (I := fun _ s => Issued uuid requests s) ?_ ?_ hr
  · exact ⟨fun h => absurd h (by simp [forHttpAsync]), fun h => absurd h (by simp [forHttpAsync]),
      fun h => absurd h (by simp [forHttpAsync])⟩
  · intro h s a s' es _ hi hs
    rcases step_cases hs with ⟨m, n, id, -, hsent, rfl⟩ | ⟨m, n, -, hno, rfl⟩ | rfl
    · exact hi.store_header hsent
    · exact hi.store_random hno
    · refine ⟨hi.header, ?_, hi.distinct⟩
      intro m n id hid hno
      obtain ⟨k, hk, heq⟩ := hi.drawn hid hno
      exact ⟨k, Nat.lt_succ_of_lt hk, heq⟩

/-! ### What names a request -/

/-- A line of the logger of a request, with what pino-http binds to it. -/
structure RequestLine where
  bindings : Props JsValue
  line : LogLine

/-- The line that the request's logger writes for `line`: bound to `serializers.req`. -/
def Context.log (c : Context) (line : LogLine) : RequestLine :=
  ⟨[("req", .object .plain [("id", .str c.reqId), ("method", .str c.request.method),
    ("url", .str c.request.url)])], line⟩

/-- The request id in a line. -/
def RequestLine.reqId (line : RequestLine) : Option JsValue :=
  (JsValue.object .plain line.bindings).get? "req" >>= (·.get? "id")

/-- The line of an HTTP client. -/
structure ClientLine where
  level : String
  fields : HttpClientLogFields
  correlationId : Option String
  text : String

/-- `PinoHttpClientLoggerAdapter.call`. The executor passes no `correlationId`. -/
def PinoHttpClientLoggerAdapter.call (clsId : Option String) (fields : HttpClientLogFields)
    (correlationId : Option String) : ClientLine :=
  let level := match fields.status with
    | .OK => "info"
    | .ERROR => "error"
  ⟨level, fields, correlationId.or clsId, "http.client.call"⟩

/-- All places that name a request agree on `id`, and that is the header of the request when
the client sent one. -/
structure NamesOneId (c : Context) (id : String) : Prop where
  requestLine : ∀ line, (c.log line).reqId = some (.str id)
  clsId : c.clsId = id
  clientLine : ∀ fields,
    (PinoHttpClientLoggerAdapter.call (some c.clsId) fields none).correlationId = some id
  errorBody : ∀ statusName timestamp exception,
    (GrpcToHttpExceptionFilter.catch statusName ⟨some c.clsId, timestamp⟩ exception).1.body.get?
      "correlationId" = some (.str id)
  header : ∀ value, c.request.Sent value → id = value

/-- Every place shows one of the two stored ids. -/
theorem namesOneId_iff {c : Context} {id : String} :
    NamesOneId c id ↔ c.reqId = id ∧ c.clsId = id ∧
      ∀ value, c.request.Sent value → id = value := by
  constructor
  · intro h
    have hline : some (JsValue.str c.reqId) = some (.str id) := h.requestLine ⟨"info", [], ""⟩
    exact ⟨by simpa using hline, h.clsId, h.header⟩
  · intro ⟨hreq, hcls, hheader⟩
    exact {
      requestLine := fun _ => congrArg (fun s => some (JsValue.str s)) hreq
      clsId := hcls
      clientLine := fun _ => congrArg some hcls
      errorBody := fun statusName timestamp exception =>
        (GrpcToHttpExceptionFilter.get?_correlationId statusName _ exception).trans
          (congrArg (fun s => some (JsValue.str s)) hcls)
      header := hheader }

theorem context_eq_some {s : Service} {requests : ℕ → Request} {n : ℕ} {c : Context}
    (hc : s.context requests n = some c) : s.stored (.cls, n) = some c.clsId ∧
      s.stored (.pino, n) = some c.reqId ∧ c.request = requests n := by
  unfold Service.context at hc
  split at hc
  · next hcls hpino =>
    cases hc
    exact ⟨hcls, hpino, rfl⟩
  · cases hc

/-- Over every run of a service: all places that name a request agree on one id exactly when
the client sent a header. -/
theorem namesOneId_iff_sent {uuid : RandomUUID} {requests : ℕ → Request} {h : List Empty}
    {s : Service} (hr : (forHttpAsync uuid requests).Reaches h s) {n : ℕ} {c : Context}
    (hc : s.context requests n = some c) :
    (∃ id, NamesOneId c id) ↔ ∃ id, (requests n).correlationHeader = some id ∧ id ≠ "" := by
  have hi := Issued.of_reaches hr
  obtain ⟨hcls, hpino, hreq⟩ := context_eq_some hc
  constructor
  · intro ⟨id, hid⟩
    obtain ⟨hreqId, hclsId, -⟩ := namesOneId_iff.mp hid
    by_contra hno
    -- both middlewares would have stored one fresh value
    have hnone : ∀ v, ¬ (requests n).Sent v := not_exists.mp hno
    have hsame := hi.distinct (hcls.trans (congrArg some hclsId))
      (hpino.trans (congrArg some hreqId)) hnone hnone
    cases hsame
  · intro ⟨id, hid⟩
    refine ⟨id, namesOneId_iff.mpr ⟨hi.header hpino hid, hi.header hcls hid, ?_⟩⟩
    intro value hvalue
    rw [hreq] at hvalue
    exact Option.some.inj (hid.1.symm.trans hvalue.1)

/-- Both middlewares can run, one after the other. -/
theorem exists_context (uuid : RandomUUID) (requests : ℕ → Request) :
    let (clsId, drawn) := idGenerator uuid 0 (requests 0)
    ∃ s, (forHttpAsync uuid requests).Reaches [] s ∧ s.context requests 0 =
      some ⟨requests 0, clsId, (genReqId uuid drawn (requests 0)).1⟩ := by
  have hcls : (forHttpAsync uuid requests).step ⟨0, fun _ => none⟩ (.middleware .cls 0) =
      some (⟨(idGenerator uuid 0 (requests 0)).2, Function.update (fun _ => none) (.cls, 0)
        (some (idGenerator uuid 0 (requests 0)).1)⟩, []) := rfl
  refine ⟨_, (Machine.Reaches.init.step hcls).step (a := Action.middleware .pino 0) rfl, ?_⟩
  rfl

/-- UUIDs of version 4 in order, by the number in their last group. -/
def numberedUUID : RandomUUID where
  value n := String.ofList ("00000000-0000-4000-8000-".toList ++
    (List.replicate (12 - (Nat.toDigits 10 n).length) '0' ++ Nat.toDigits 10 n))
  injective m n h := by
    have hlist := List.append_cancel_left (String.ofList_injective h)
    have hnum := congrArg (fun l => Nat.ofDigitChars 10 l 0) hlist
    simpa [Nat.ofDigitChars_append, Nat.ofDigitChars_replicate_zero,
      Nat.ofDigitChars_ten_toDigits] using hnum

/-- A client that sends the header. -/
def traced : Request := ⟨"GET", "/health", [(CORRELATION_ID, "7f3a")]⟩

/-- One that does not. -/
def untraced : Request := ⟨"GET", "/health", []⟩

theorem namesOneId_iff_sent_traced :
    (∃ id, NamesOneId ⟨traced, "7f3a", "7f3a"⟩ id) ↔
      ∃ id, traced.correlationHeader = some id ∧ id ≠ "" := by
  obtain ⟨s, hs, hc⟩ := exists_context numberedUUID fun _ => traced
  exact namesOneId_iff_sent hs hc

/-- Without the header the two middlewares disagree. -/
theorem not_namesOneId_untraced :
    ∃ s c, (forHttpAsync numberedUUID fun _ => untraced).Reaches [] s ∧
      s.context (fun _ => untraced) 0 = some c ∧ ¬ ∃ id, NamesOneId c id := by
  obtain ⟨s, hs, hc⟩ := exists_context numberedUUID fun _ => untraced
  refine ⟨s, _, hs, hc, ?_⟩
  intro ⟨id, hid⟩
  obtain ⟨hreqId, hclsId, -⟩ := namesOneId_iff.mp hid
  have hsame : (0 : ℕ) = 1 := numberedUUID.injective (hclsId.trans hreqId.symm)
  cases hsame

end EmailPlatform.Logging
