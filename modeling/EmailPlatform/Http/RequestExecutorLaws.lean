import EmailPlatform.Http.RequestExecutor

/-!
# EmailPlatform.Http.RequestExecutorLaws

**The classification of one attempt.** Retry, breaker and alerting act on what `execute`
settles with and on the line it logs. `Classified` says, from the outcome of `fetch`
alone, what that is: `afterFetch_classified` proves it of the code and
`Classified.isError` that a caller only ever sees `Error`s.

The `HttpError` of a bad status is thrown inside the `try` whose `catch` handles the
failures of `fetch`, and its line has been logged by then. The test that lets it pass does
so for every `HttpClientError`; if `fetch` itself rejects with one there is no line at
all, which is the only exception to one line an attempt (`execute_classified`).
-/

namespace EmailPlatform.Http

namespace HttpRequestExecutor

variable {deps : HttpClientDeps} {args : RequestArgs} {duration : Nat} {o : Outcome Response}

/-- What an attempt must settle with, given how `fetch` settled. A rejection is judged by
the first of its constructors that applies. -/
inductive Classified (url : String) (timeoutMs : Nat) : Outcome Response → Outcome Response → Prop
  | ok {res : Response} :
      res.ok = true → Classified url timeoutMs (.fulfilled res) (.fulfilled res)
  | badStatus {res : Response} :
      res.ok = false →
      Classified url timeoutMs (.fulfilled res) (.rejected (.newHttpError res.status url))
  | client {err : Thrown} :
      err.isHttpClientError = true → Classified url timeoutMs (.rejected err) (.rejected err)
  | timeout {err : Thrown} :
      err.isHttpClientError = false → err.isError = true →
      err.name = "TimeoutError" ∨ err.name = "AbortError" →
      Classified url timeoutMs (.rejected err) (.rejected (.newTimeoutError url timeoutMs))
  | network {err : Thrown} :
      err.isHttpClientError = false → err.name ≠ "TimeoutError" ∧ err.name ≠ "AbortError" →
      err.isTypeError = true → err.hasCause = true →
      Classified url timeoutMs (.rejected err) (.rejected (.newNetworkError url err.cause))
  | other {err : Thrown} :
      err.isHttpClientError = false → err.name ≠ "TimeoutError" ∧ err.name ≠ "AbortError" →
      err.isTypeError = false ∨ err.hasCause = false → err.isError = true →
      Classified url timeoutMs (.rejected err) (.rejected err)
  /-- Not an `Error`: wrapped, with its text for a message. -/
  | wrapped {err : Thrown} :
      err.isError = false →
      Classified url timeoutMs (.rejected err) (.rejected (.newError err.text))

/-- Whatever was thrown, a caller gets an `Error`. -/
theorem Classified.isError {url : String} {timeoutMs : Nat} {o' : Outcome Response} {err : Thrown}
    (h : Classified url timeoutMs o o') (ho : o' = .rejected err) : err.isError = true := by
  cases h with
  | ok => cases ho
  | client hc => cases ho; exact Thrown.isError_of_isHttpClientError hc
  | other _ _ _ he => cases ho; exact he
  | badStatus | timeout | network | wrapped => cases ho; rfl

theorem timeoutErrorMapper_matches_iff {err : Thrown} :
    timeoutErrorMapper.matches err = true ↔
      err.isError = true ∧ (err.name = "TimeoutError" ∨ err.name = "AbortError") := by
  simp [timeoutErrorMapper, TIMEOUT_ERR_NAMES]

/-- The provider's chain, mapper by mapper. -/
theorem normalize_classified {err : Thrown} (url : String) (timeoutMs : Nat)
    (hclient : err.isHttpClientError = false) :
    Classified url timeoutMs (.rejected err)
      (.rejected (normalize providerMappers err ⟨url, timeoutMs⟩)) := by
  unfold providerMappers
  rw [normalize_cons, normalize_cons, normalize_cons, normalize_nil]
  by_cases ht : timeoutErrorMapper.matches err = true
  · rw [if_pos ht]
    rw [timeoutErrorMapper_matches_iff] at ht
    exact .timeout hclient ht.1 ht.2
  · rw [if_neg ht]
    rw [timeoutErrorMapper_matches_iff, not_and, not_or] at ht
    by_cases hn : networkErrorMapper.matches err = true
    · rw [if_pos hn]
      obtain ⟨htype, hcause⟩ : err.isTypeError = true ∧ err.hasCause = true := by
        simpa [networkErrorMapper] using hn
      exact .network hclient (ht (Thrown.isError_of_isTypeError htype)) htype hcause
    · rw [if_neg hn]
      have hnot : err.isTypeError = false ∨ err.hasCause = false := by
        rw [← Bool.and_eq_false_iff]
        exact Bool.eq_false_iff.mpr hn
      cases he : err.isError with
      | true =>
          rw [if_neg (by simp [fallbackErrorMapper, he]), if_pos rfl]
          exact .other hclient (ht he) hnot he
      | false =>
          rw [if_pos (by simp [fallbackErrorMapper, he])]
          exact .wrapped he

/-- The step lemma of the `catch`. -/
theorem attemptError_classified (deps : HttpClientDeps) (args : RequestArgs) (err : Thrown) :
    Classified (fetchUrl deps args) (timeoutMs deps args) (.rejected err)
      (.rejected (attemptError providerMappers deps args err)) := by
  unfold attemptError
  cases hc : err.isHttpClientError with
  | true => exact .client hc
  | false => exact normalize_classified _ _ hc

theorem afterFetch_fulfilled (deps : HttpClientDeps) (args : RequestArgs) (duration : Nat)
    (res : Response) :
    afterFetch providerMappers deps args duration (.fulfilled res) =
      (if res.ok then .fulfilled res
        else .rejected (.newHttpError res.status (fetchUrl deps args)),
        [logFields deps args duration (some res.status) (if res.ok then .OK else .ERROR)]) := by
  unfold afterFetch
  by_cases hok : res.ok = true
  · simp only [hok, if_true]
  · simp only [hok, Bool.false_eq_true, if_false]
    rfl

/-- Every attempt settles as classified. -/
theorem afterFetch_classified (deps : HttpClientDeps) (args : RequestArgs) (duration : Nat)
    (o : Outcome Response) :
    Classified (fetchUrl deps args) (timeoutMs deps args) o
      (afterFetch providerMappers deps args duration o).1 := by
  cases o with
  | rejected err => exact attemptError_classified deps args err
  | fulfilled res =>
      rw [afterFetch_fulfilled]
      cases hok : res.ok with
      | true => exact .ok hok
      | false => exact .badStatus hok

/-- One line, whose status is `OK` iff the attempt resolved and whose code is that of the
response iff there was one. -/
def LoggedOnce (o o' : Outcome Response) (lines : List HttpClientLogFields) : Prop :=
  ∃ line, lines = [line] ∧
    (line.status = .OK ↔ ∃ res, o' = .fulfilled res) ∧
    ∀ code, line.status_code = some code ↔ ∃ res, o = .fulfilled res ∧ res.status = code

/-- `fetch` itself rejected with an error of the client's hierarchy. -/
def ClientRejection (o : Outcome Response) : Prop :=
  ∃ err, o = .rejected err ∧ err.isHttpClientError = true

/-- A response is logged once, with the verdict on it. -/
theorem loggedOnce_fulfilled (deps : HttpClientDeps) (args : RequestArgs) (duration : Nat)
    (res : Response) :
    LoggedOnce (.fulfilled res) (afterFetch providerMappers deps args duration (.fulfilled res)).1
      (afterFetch providerMappers deps args duration (.fulfilled res)).2 := by
  rw [afterFetch_fulfilled]
  refine ⟨_, rfl, ?_, ?_⟩
  · cases hok : res.ok <;> simp [logFields]
  · intro code
    simp [logFields]

/-- A rejection of `fetch` is logged once, unless it passes the `catch` unseen. -/
theorem loggedOnce_rejected (deps : HttpClientDeps) (args : RequestArgs) (duration : Nat)
    {err : Thrown} (h : err.isHttpClientError = false) :
    LoggedOnce (.rejected err) (afterFetch providerMappers deps args duration (.rejected err)).1
      (afterFetch providerMappers deps args duration (.rejected err)).2 := by
  show LoggedOnce _ (.rejected _) (if err.isHttpClientError then [] else [_])
  rw [h]
  exact ⟨_, rfl, by simp [logFields], by simp [logFields]⟩

/-- **One attempt.** It settles as classified and a rejection is an `Error`; it is logged
exactly once, and not at all if `fetch` rejected with an `HttpClientError`. -/
theorem execute_classified (deps : HttpClientDeps) (args : RequestArgs) (duration : Nat)
    (o : Outcome Response) :
    let (o', lines) := afterFetch providerMappers deps args duration o
    Classified (fetchUrl deps args) (timeoutMs deps args) o o' ∧
      (∀ err, o' = .rejected err → err.isError = true) ∧
      (∀ res, o' = .fulfilled res ↔ o = .fulfilled res ∧ res.ok = true) ∧
      (¬ ClientRejection o → LoggedOnce o o' lines) ∧
      (ClientRejection o → lines = []) := by
  have hc := afterFetch_classified deps args duration o
  refine ⟨hc, fun err => hc.isError, fun res => afterFetch_fulfilled_iff, ?_, ?_⟩
  · intro hno
    cases o with
    | fulfilled res => exact loggedOnce_fulfilled deps args duration res
    | rejected err =>
        refine loggedOnce_rejected deps args duration ?_
        rw [Bool.eq_false_iff]
        exact fun he => hno ⟨err, rfl, he⟩
  · intro h
    obtain ⟨err, rfl, he⟩ := h
    show (if err.isHttpClientError then [] else _) = _
    rw [he]
    rfl

/-- An attempt whose `fetch` rejects with a `NetworkError` leaves no line. -/
theorem networkError_unlogged :
    ∃ (deps : HttpClientDeps) (args : RequestArgs) (o : Outcome Response),
      ¬ LoggedOnce o (afterFetch providerMappers deps args 0 o).1
        (afterFetch providerMappers deps args 0 o).2 := by
  refine ⟨⟨"https://api", 5000, "Api", ⟨5, 30000, "Api"⟩⟩, ⟨.GET, "/", {}, {}⟩,
    .rejected (.newNetworkError "https://api/" .undefined), ?_⟩
  intro ⟨line, hlines, _⟩
  cases hlines

end HttpRequestExecutor

end EmailPlatform.Http
