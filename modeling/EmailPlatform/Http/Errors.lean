import EmailPlatform.Http.Types
import Mathlib.Data.List.Infix

/-!
# EmailPlatform.Http.Errors

Thrown values and the HTTP error hierarchy (`errors/`).

JavaScript can throw anything, so a rejection carries a `Thrown`: `undefined`, a
value that is not an `Error` (kept as its `String(v)`), or an `Error` of some
class. `ErrorClass` records exactly what the code asks with `instanceof`; the
name, message and cause are separate, because mappers look at the *name* of an
error and not at its class. `'cause' in err` and `err.cause` are two fields: an
absent property reads as `undefined`.

The mappers, the normaliser and their chain are written as in the source; the
chain that `httpClientProvider` builds is `providerMappers`.
-/

namespace EmailPlatform.Http

/-- What an `Error` is an instance of. -/
inductive ErrorClass
  /-- `Error` or any subclass the code does not name, such as `DOMException`. -/
  | error
  | typeError
  | httpError (status : Nat) (url : String)
  | timeoutError (url : String) (timeoutMs : Nat)
  | networkError (url : String)
  | circuitOpenError (api : String)
  deriving DecidableEq, Repr

/-- A thrown value. -/
inductive Thrown
  | undefined
  /-- A value that is no `Error`, by the text `String(v)` gives. -/
  | value (text : String)
  | error (cls : ErrorClass) (name message : String) (hasCause : Bool) (cause : Thrown)
  deriving DecidableEq, Repr

/-- How a promise settles. -/
inductive Outcome (R : Type)
  | fulfilled (r : R)
  | rejected (e : Thrown)
  deriving DecidableEq, Repr

/-- `s.includes(sub)`. -/
def includes (s sub : String) : Bool := decide (sub.toList <:+: s.toList)

namespace ErrorClass

/-- The subclasses of `HttpClientError`. -/
def isHttpClientError : ErrorClass → Bool
  | httpError _ _ | timeoutError _ _ | networkError _ | circuitOpenError _ => true
  | error | typeError => false

end ErrorClass

namespace Thrown

/-- `err instanceof Error`. -/
def isError : Thrown → Bool
  | error .. => true
  | _ => false

/-- `err instanceof TypeError`. -/
def isTypeError : Thrown → Bool
  | error .typeError .. => true
  | _ => false

/-- `err instanceof HttpClientError`. -/
def isHttpClientError : Thrown → Bool
  | error cls .. => cls.isHttpClientError
  | _ => false

/-- `err instanceof CircuitOpenError`. -/
def isCircuitOpenError : Thrown → Bool
  | error (.circuitOpenError _) .. => true
  | _ => false

/-- `err instanceof TimeoutError || err instanceof NetworkError`. -/
def isTransportError : Thrown → Bool
  | error (.timeoutError _ _) .. | error (.networkError _) .. => true
  | _ => false

/-- `'cause' in err`. -/
def hasCause : Thrown → Bool
  | error _ _ _ c _ => c
  | _ => false

/-- `err.cause`. -/
def cause : Thrown → Thrown
  | error _ _ _ _ c => c
  | _ => undefined

/-- `err.name`, of an `Error`. -/
def name : Thrown → String
  | error _ n .. => n
  | _ => ""

/-- `err.message`, of an `Error`. -/
def message : Thrown → String
  | error _ _ m .. => m
  | _ => ""

/-- `String(err)`. -/
def text : Thrown → String
  | undefined => "undefined"
  | value t => t
  | error _ n m _ _ => if n = "" then m else if m = "" then n else s!"{n}: {m}"

/-- `new Error(message)`. -/
def newError (message : String) : Thrown := error .error "Error" message false undefined

/-- `new HttpError(status, url)`. -/
def newHttpError (status : Nat) (url : String) : Thrown :=
  error (.httpError status url) "HttpError" s!"HTTP {status} for {url}" false undefined

/-- `new TimeoutError(url, timeoutMs)`. -/
def newTimeoutError (url : String) (timeoutMs : Nat) : Thrown :=
  error (.timeoutError url timeoutMs) "TimeoutError"
    s!"Timed out after {timeoutMs}ms for {url}" false undefined

/-- `new NetworkError(url, cause)`. -/
def newNetworkError (url : String) (cause : Thrown) : Thrown :=
  error (.networkError url) "NetworkError" s!"Network error for {url}" true cause

/-- `new CircuitOpenError(api)`. -/
def newCircuitOpenError (api : String) : Thrown :=
  error (.circuitOpenError api) "CircuitOpenError" s!"Circuit open for {api}" false undefined

/-- Every error of the hierarchy is an `Error`. -/
theorem isError_of_isHttpClientError {e : Thrown} (h : e.isHttpClientError = true) :
    e.isError = true := by
  cases e with
  | error => rfl
  | _ => simp [isHttpClientError] at h

theorem isError_of_isTypeError {e : Thrown} (h : e.isTypeError = true) : e.isError = true := by
  cases e with
  | error => rfl
  | _ => simp [isTypeError] at h

theorem isHttpClientError_of_isTransportError {e : Thrown} (h : e.isTransportError = true) :
    e.isHttpClientError = true := by
  cases e with
  | error cls => cases cls <;> first | rfl | simp [isTransportError] at h
  | _ => simp [isTransportError] at h

end Thrown

/-! ### The mapper chain -/

/-- The context the executor passes to the normaliser. -/
structure ErrorCtx where
  url : String
  timeoutMs : Nat

/-- `ErrorMapper`. -/
structure ErrorMapper where
  «matches» : Thrown → Bool
  map : Thrown → ErrorCtx → Thrown

/-- `TIMEOUT_ERR_NAMES`. -/
def TIMEOUT_ERR_NAMES : List String := ["TimeoutError", "AbortError"]

/-- `TimeoutErrorMapper`. -/
def timeoutErrorMapper : ErrorMapper where
  «matches» err := err.isError && TIMEOUT_ERR_NAMES.contains err.name
  map _ ctx := .newTimeoutError ctx.url ctx.timeoutMs

/-- `NetworkErrorMapper`. -/
def networkErrorMapper : ErrorMapper where
  «matches» err := err.isTypeError && err.hasCause
  map err ctx := .newNetworkError ctx.url err.cause

/-- `FallbackErrorMapper`. -/
def fallbackErrorMapper : ErrorMapper where
  «matches» err := !err.isError
  map err _ := .newError err.text

/-- The chain `httpClientProvider` builds. -/
def providerMappers : List ErrorMapper :=
  [timeoutErrorMapper, networkErrorMapper, fallbackErrorMapper]

/-- `HttpErrorNormalizer.normalize`: the first mapper that matches; without one
an `Error` is returned unchanged and anything else is wrapped. -/
def normalize (mappers : List ErrorMapper) (err : Thrown) (ctx : ErrorCtx) : Thrown :=
  match mappers.find? (·.matches err) with
  | none => if err.isError then err else .newError err.text
  | some m => m.map err ctx

@[simp] theorem normalize_nil (err : Thrown) (ctx : ErrorCtx) :
    normalize [] err ctx = if err.isError then err else .newError err.text := rfl

/-- The chain, mapper by mapper. -/
theorem normalize_cons (m : ErrorMapper) (mappers : List ErrorMapper) (err : Thrown)
    (ctx : ErrorCtx) :
    normalize (m :: mappers) err ctx =
      if m.matches err then m.map err ctx else normalize mappers err ctx := by
  unfold normalize
  rw [List.find?_cons]
  cases m.matches err <;> rfl

/-- A raw transport failure as fetch reports it: a `DOMException` of the abort
signal, or a `TypeError` carrying its cause. Errors of the client's own
hierarchy are not raw. -/
def Thrown.isRawTransport (err : Thrown) : Bool :=
  !err.isHttpClientError && (timeoutErrorMapper.matches err || networkErrorMapper.matches err)

/-- The provider's chain turns every raw transport failure into a `TimeoutError`
or a `NetworkError`. -/
theorem normalize_isTransportError {err : Thrown} (ctx : ErrorCtx)
    (h : err.isRawTransport = true) :
    (normalize providerMappers err ctx).isTransportError = true := by
  simp only [Thrown.isRawTransport, Bool.and_eq_true, Bool.or_eq_true] at h
  unfold providerMappers
  rw [normalize_cons, normalize_cons]
  by_cases ht : timeoutErrorMapper.matches err = true
  · rw [if_pos ht]
    rfl
  · rw [if_neg ht, if_pos (h.2.resolve_left ht)]
    rfl

end EmailPlatform.Http
