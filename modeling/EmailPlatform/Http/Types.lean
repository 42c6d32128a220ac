import EmailPlatform.Js.Number
import EmailPlatform.Js.Props

/-!
# EmailPlatform.Http.Types

The shared type surface of the foundation HTTP client (`client/types.ts`,
`client/http-client-deps.ts`): methods, per-call options, the retry policy and
the circuit-breaker options and snapshot. Numbers that callers may choose freely
are `JsNumber`s; the backoff parameters, which only enter exact arithmetic, are
rationals; timeouts and thresholds are whole numbers.
-/

namespace EmailPlatform.Http

/-- `HttpMethod`. -/
inductive HttpMethod
  | GET | POST | PUT | PATCH | DELETE | HEAD
  deriving DecidableEq, Repr

/-- A `Record<string, string>` in insertion order. -/
abbrev Record := List (String × String)

/-- Set one property: an existing key keeps its place, a new one goes last. -/
def Record.set (r : Record) (k v : String) : Record :=
  if r.any (·.1 = k) then r.map fun p => if p.1 = k then (k, v) else p
  else r ++ [(k, v)]

/-- Object spread `{ ...r, ...more }`; keys are compared as they are spelled. -/
def Record.spread (r more : Record) : Record :=
  more.foldl (fun acc p => Record.set acc p.1 p.2) r

/-- The property names of a record. -/
abbrev Record.keys (r : Record) : List String := Props.keys r

theorem Record.spread_eq (r more : Record) : r.spread more = Props.spread r more := rfl

/-- `HttpCallOpts`; an absent field is `none`. -/
structure HttpCallOpts where
  timeoutMs : Option Nat := none
  idempotent : Option Bool := none
  retries : Option JsNumber := none
  headers : Option Record := none
  deriving DecidableEq, Repr

/-- The part of fetch's `RequestInit` that the client builds. -/
structure RequestInit where
  body : Option String := none
  headers : Option Record := none
  deriving DecidableEq, Repr

/-- `RetryPolicy`. -/
structure RetryPolicy where
  maxAttempts : JsNumber
  backoffMinMs : ℚ
  backoffMaxMs : ℚ
  jitterRatio : ℚ
  deriving DecidableEq, Repr

/-- `CbOptions & { api }`, as the breaker adapter receives them. -/
structure CbOptions where
  consecutiveThreshold : Nat
  halfOpenAfterMs : Nat
  api : String
  deriving DecidableEq, Repr

/-- The `cb` field of `CircuitState`. -/
inductive Cb
  | closed | halfOpen | opened
  deriving DecidableEq, Repr

/-- `CircuitState`, the diagnostic snapshot. -/
structure CircuitState where
  cb : Cb
  consecutiveFailures : Nat
  deriving DecidableEq, Repr

/-- What `httpClientProvider` hands to a vendor client besides the collaborators
themselves. -/
structure HttpClientDeps where
  baseUrl : String
  defaultTimeoutMs : Nat
  logContext : String
  cb : CbOptions
  deriving DecidableEq, Repr

end EmailPlatform.Http
