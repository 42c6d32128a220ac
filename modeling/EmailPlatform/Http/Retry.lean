import EmailPlatform.Http.Errors
import Mathlib.Tactic.Linarith

/-!
# EmailPlatform.Http.Retry

The retry policy and the retry loop (`retry/`).

`DefaultRetryExecutor.run` is a `for` loop with two suspension points, the attempt
and the sleep. `Run` says at which of them a run is suspended, and the functions
on it are the code between two suspensions: `head` is the loop condition, `start`
the code before the first attempt, `onAttempt` the `try`/`catch` once the attempt
has settled, `onSleep` the next iteration. The bound is a `JsNumber` because
callers choose `retries` freely.
-/

namespace EmailPlatform.Http

/-- `RETRY_DEFAULTS.RETRY_MAX_ATTEMPTS`. -/
def RETRY_MAX_ATTEMPTS : JsNumber := (3 : ℕ)

/-- `RETRY_DEFAULTS.RETRY_BACKOFF_MIN_MS`. -/
def RETRY_BACKOFF_MIN_MS : ℚ := 200

/-- `RETRY_DEFAULTS.RETRY_BACKOFF_MAX_MS`. -/
def RETRY_BACKOFF_MAX_MS : ℚ := 5000

/-- `RETRY_DEFAULTS.RETRY_JITTER_RATIO`. -/
def RETRY_JITTER_RATIO : ℚ := 1 / 2

/-- `IDEMPOTENT_METHODS`. -/
def IDEMPOTENT_METHODS : List HttpMethod := [.GET, .HEAD]

/-- `RETRYABLE_STATUS_MIN`. -/
def RETRYABLE_STATUS_MIN : Nat := 500

/-- `resolveRetryPolicy`. -/
def resolveRetryPolicy (method : HttpMethod) (opts : HttpCallOpts) : RetryPolicy :=
  let isIdempotent := IDEMPOTENT_METHODS.contains method || opts.idempotent == some true
  { maxAttempts := if isIdempotent then opts.retries.getD RETRY_MAX_ATTEMPTS else (1 : ℕ)
    backoffMinMs := RETRY_BACKOFF_MIN_MS
    backoffMaxMs := RETRY_BACKOFF_MAX_MS
    jitterRatio := RETRY_JITTER_RATIO }

/-- `shouldRetry`: only server errors and transport failures, within the budget. -/
def shouldRetry (err : Thrown) (attempt : Nat) (policy : RetryPolicy) : Bool :=
  -- `attempt >= policy.maxAttempts`
  if JsNumber.le policy.maxAttempts attempt then false
  else
    match err with
    | .error (.httpError status _) .. => decide (status ≥ RETRYABLE_STATUS_MIN)
    | .error (.networkError _) .. => true
    | .error (.timeoutError _ _) .. => true
    | _ => false

/-- `backoffWithJitter`; `random` is the value of `Math.random()`. The arithmetic is exact: it does
not round, and a power that would overflow to infinity in the source is finite here. -/
def backoffWithJitter (attempt : Nat) (policy : RetryPolicy) (random : ℚ) : ℚ :=
  let exp := policy.backoffMinMs * 2 ^ (attempt - 1)
  let delay := max policy.backoffMinMs (min exp policy.backoffMaxMs)
  delay / 2 + random * (delay / 2)

/-- Where `run` is suspended. -/
inductive Run (T : Type)
  /-- `await attempt()`, for the `i`-th time. -/
  | attempting (i : Nat)
  /-- `await sleep(...)` after the `i`-th attempt failed with `lastErr`. -/
  | sleeping (i : Nat) (lastErr : Thrown)
  /-- The promise of `run` has settled. -/
  | settled (o : Outcome T)
  deriving DecidableEq, Repr

namespace Run

variable {T : Type}

/-- The loop condition at counter `i`. -/
def head (policy : RetryPolicy) (i : Nat) (lastErr : Thrown) : Run T :=
  if JsNumber.le i policy.maxAttempts then .attempting i else .settled (.rejected lastErr)

/-- The code before the first suspension. -/
def start (policy : RetryPolicy) : Run T := head policy 1 .undefined

/-- The code after the `i`-th attempt has settled with `o`. -/
def onAttempt (policy : RetryPolicy) (i : Nat) : Outcome T → Run T
  | .fulfilled r => .settled (.fulfilled r)
  | .rejected err =>
    if shouldRetry err i policy then .sleeping i err else .settled (.rejected err)

/-- The code after the sleep that followed the `i`-th attempt. The counter is a natural number: the
source's double would stand still at `2 ^ 53`, as that of `Resilience` does. -/
def onSleep (policy : RetryPolicy) (i : Nat) (lastErr : Thrown) : Run T :=
  head policy (i + 1) lastErr

/-- An attempt that is about to run is within the budget. -/
theorem head_eq_attempting {policy : RetryPolicy} {i n : Nat} {lastErr : Thrown} :
    (head policy i lastErr : Run T) = .attempting n ↔
      n = i ∧ JsNumber.le i policy.maxAttempts = true := by
  unfold head
  split
  · next h => simp [h, eq_comm]
  · next h => simp [h]

theorem onAttempt_ne_attempting {policy : RetryPolicy} {i n : Nat} {o : Outcome T} :
    onAttempt policy i o ≠ .attempting n := by
  cases o with
  | fulfilled => simp [onAttempt]
  | rejected err => rw [onAttempt]; split <;> simp

/-- The loop sleeps after an attempt exactly when it will be repeated. -/
theorem onAttempt_eq_sleeping {policy : RetryPolicy} {i n : Nat} {o : Outcome T} {err : Thrown} :
    onAttempt policy i o = .sleeping n err ↔
      n = i ∧ o = .rejected err ∧ shouldRetry err i policy = true := by
  cases o with
  | fulfilled => simp [onAttempt]
  | rejected e =>
      rw [onAttempt]
      split
      · next h =>
        simp only [sleeping.injEq, Outcome.rejected.injEq]
        exact ⟨fun ⟨hi, he⟩ => ⟨hi.symm, he, he ▸ h⟩, fun ⟨hi, he, _⟩ => ⟨hi.symm, he⟩⟩
      · next h =>
        simp only [reduceCtorEq, Outcome.rejected.injEq, false_iff, not_and]
        intro _ heq
        subst heq
        exact h

/-- Without a repetition the run settles with the outcome of the attempt. -/
theorem onAttempt_eq_settled {policy : RetryPolicy} {i : Nat} {o o' : Outcome T} :
    onAttempt policy i o = .settled o' ↔
      o = o' ∧ ∀ err, o = .rejected err → shouldRetry err i policy = false := by
  cases o with
  | fulfilled => simp [onAttempt]
  | rejected e =>
      rw [onAttempt]
      split
      · next h => simp [h]
      · next h => simp [h]

end Run

/-- A transport failure is repeated whenever the budget allows it. -/
theorem shouldRetry_of_isTransportError {policy : RetryPolicy} {i : Nat} {err : Thrown}
    (he : err.isTransportError = true) (h : JsNumber.le policy.maxAttempts i = false) :
    shouldRetry err i policy = true := by
  cases err with
  | error cls => cases cls <;> simp_all [shouldRetry, Thrown.isTransportError]
  | _ => simp [Thrown.isTransportError] at he

/-- The idempotency gate: everything but GET, HEAD and opted-in calls is single-shot,
whatever `retries` says. -/
theorem resolveRetryPolicy_singleShot {method : HttpMethod} {opts : HttpCallOpts}
    (hmethod : method ≠ .GET ∧ method ≠ .HEAD) (hopts : opts.idempotent ≠ some true) :
    (resolveRetryPolicy method opts).maxAttempts = (1 : ℕ) := by
  have hnotin : method ∉ IDEMPOTENT_METHODS := by
    simp [IDEMPOTENT_METHODS, hmethod]
  have hgate : (opts.idempotent == some true) = false := by simpa using hopts
  simp [resolveRetryPolicy, hnotin, hgate]

/-- Equal jitter: the wait lies between half the delay and the delay, and the delay
between the two backoff bounds. -/
theorem backoffWithJitter_mem {policy : RetryPolicy} {random : ℚ} (attempt : Nat)
    (hmin : 0 ≤ policy.backoffMinMs) (hmax : policy.backoffMinMs ≤ policy.backoffMaxMs)
    (hrandom : 0 ≤ random ∧ random < 1) :
    policy.backoffMinMs / 2 ≤ backoffWithJitter attempt policy random ∧
      backoffWithJitter attempt policy random ≤ policy.backoffMaxMs := by
  obtain ⟨hr0, hr1⟩ := hrandom
  set delay := max policy.backoffMinMs
    (min (policy.backoffMinMs * 2 ^ (attempt - 1)) policy.backoffMaxMs) with hdelay
  have hlow : policy.backoffMinMs ≤ delay := le_max_left _ _
  have hhigh : delay ≤ policy.backoffMaxMs := max_le hmax (min_le_right _ _)
  have hjitter : 0 ≤ random * (delay / 2) := mul_nonneg hr0 (by linarith)
  have hjitter' : random * (delay / 2) ≤ 1 * (delay / 2) :=
    mul_le_mul_of_nonneg_right hr1.le (by linarith)
  have hdef : backoffWithJitter attempt policy random = delay / 2 + random * (delay / 2) := rfl
  constructor <;> rw [hdef] <;> linarith

end EmailPlatform.Http
