import EmailPlatform.Core.Machine
import EmailPlatform.Http.Retry

/-!
# EmailPlatform.Http.RetryRuns

**Whole runs of the retry loop.** `DefaultRetryExecutor.run` is driven by a sequence of
attempt outcomes: the `i`-th call of `attempt` settles with `outcomes i`. Its calls of
`attempt` and of `sleep` are the history of a machine with one action, to go on.

`Position` lists the points a run can be at, each with the history that leads there. It is
an invariant of the machine (`position_of_reaches`), and both results about the loop are
read off it: `run_computes` for the budgets a caller means, and `attempted_iff` for every
number a caller can pass.
-/

namespace EmailPlatform.Http

/-- What can be observed of a run of the retry loop. -/
inductive RetryEvent
  /-- The `i`-th call of `attempt`. -/
  | attempt (i : Nat)
  | sleep (ms : ℚ)
  deriving DecidableEq, Repr

namespace Run

variable {T : Type}

/-- The call made on arriving at a suspension point. -/
def calls (policy : RetryPolicy) (random : ℕ → ℚ) : Run T → List RetryEvent
  | .attempting i => [.attempt i]
  | .sleeping i _ => [.sleep (backoffWithJitter i policy (random i))]
  | .settled _ => []

/-- One run of the loop; `none` before it is called. `random i` is the draw of
`Math.random()` after the `i`-th attempt. -/
def machine (policy : RetryPolicy) (outcomes : ℕ → Outcome T) (random : ℕ → ℚ) :
    Machine (Option (Run T)) Unit RetryEvent where
  init := none
  step s _ :=
    match s with
    | none => some (some (start policy), calls policy random (start policy : Run T))
    | some (.attempting i) =>
      let run := onAttempt policy i (outcomes i)
      some (some run, calls policy random run)
    | some (.sleeping i err) =>
      let run : Run T := onSleep policy i err
      some (some run, calls policy random run)
    | some (.settled _) => none

/-- `m` rounds of the loop: each an attempt and the sleep after it. -/
def rounds (policy : RetryPolicy) (random : ℕ → ℚ) : ℕ → List RetryEvent
  | 0 => []
  | m + 1 => rounds policy random m ++
      [.attempt (m + 1), .sleep (backoffWithJitter (m + 1) policy (random (m + 1)))]

/-- The first `m` attempts failed and the classifier let each be repeated. -/
def Repeated (policy : RetryPolicy) (outcomes : ℕ → Outcome T) (m : ℕ) : Prop :=
  ∀ j, 1 ≤ j → j ≤ m → ∃ err, outcomes j = .rejected err ∧ shouldRetry err j policy = true

theorem Repeated.succ {policy : RetryPolicy} {outcomes : ℕ → Outcome T} {m : ℕ} {err : Thrown}
    (h : Repeated policy outcomes m) (ho : outcomes (m + 1) = .rejected err)
    (hretry : shouldRetry err (m + 1) policy = true) : Repeated policy outcomes (m + 1) := by
  intro j h1 hj
  rcases Nat.lt_or_eq_of_le hj with hlt | rfl
  · exact h j h1 (by omega)
  · exact ⟨err, ho, hretry⟩

/-- Where a run can be, and what it has done until then. -/
inductive Position (policy : RetryPolicy) (outcomes : ℕ → Outcome T) (random : ℕ → ℚ) :
    List RetryEvent → Option (Run T) → Prop
  | idle : Position policy outcomes random [] none
  /-- The loop condition fails at once: no attempt is made. -/
  | skipped :
      JsNumber.le (1 : ℕ) policy.maxAttempts = false →
      Position policy outcomes random [] (some (.settled (.rejected .undefined)))
  | attempting {m : ℕ} :
      JsNumber.le (m + 1 : ℕ) policy.maxAttempts = true →
      Repeated policy outcomes m →
      Position policy outcomes random (rounds policy random m ++ [.attempt (m + 1)])
        (some (.attempting (m + 1)))
  | sleeping {m : ℕ} {err : Thrown} :
      outcomes (m + 1) = .rejected err →
      Repeated policy outcomes (m + 1) →
      Position policy outcomes random (rounds policy random (m + 1))
        (some (.sleeping (m + 1) err))
  /-- Settled by the attempt: returned, or rethrown in the `catch`. -/
  | finished {m : ℕ} :
      Repeated policy outcomes m →
      (∀ err, outcomes (m + 1) = .rejected err → shouldRetry err (m + 1) policy = false) →
      Position policy outcomes random (rounds policy random m ++ [.attempt (m + 1)])
        (some (.settled (outcomes (m + 1))))
  /-- Settled by the `throw` behind the loop. -/
  | exhausted {m : ℕ} {err : Thrown} :
      outcomes (m + 1) = .rejected err →
      Repeated policy outcomes (m + 1) →
      JsNumber.le (m + 1 + 1 : ℕ) policy.maxAttempts = false →
      Position policy outcomes random (rounds policy random (m + 1))
        (some (.settled (.rejected err)))

variable {policy : RetryPolicy} {outcomes : ℕ → Outcome T} {random : ℕ → ℚ}

/-- The step lemma: a run moves from position to position. -/
theorem Position.step {h : List RetryEvent} {s s' : Option (Run T)} {u : Unit}
    {es : List RetryEvent} (hp : Position policy outcomes random h s)
    (hs : (machine policy outcomes random).step s u = some (s', es)) :
    Position policy outcomes random (h ++ es) s' := by
  cases hp with
  | idle =>
      cases hs
      unfold start head
      split
      · next hle => exact .attempting (m := 0) hle fun j h1 hj => by omega
      · next hle => exact .skipped (by simpa using hle)
  -- An attempt ends the run, or is followed by a pause; each adds to the rounds so far.
  | @attempting m hle hrep =>
      cases hs
      cases ho : outcomes (m + 1) with
      | fulfilled r =>
          have hfin : Position policy outcomes random _ (some (.settled (outcomes (m + 1)))) :=
            .finished hrep (by rw [ho]; intro err herr; cases herr)
          rw [ho] at hfin
          rw [onAttempt, calls, List.append_nil]
          exact hfin
      | rejected err =>
          rw [onAttempt]
          split
          · next hretry =>
            rw [calls, List.append_assoc]
            exact .sleeping ho (hrep.succ ho hretry)
          · next hretry =>
            have hfin : Position policy outcomes random
                (rounds policy random m ++ [.attempt (m + 1)])
                (some (.settled (outcomes (m + 1)))) := by
              refine .finished hrep ?_
              rw [ho]
              intro err' herr
              cases herr
              exact Bool.eq_false_iff.mpr hretry
            rw [ho] at hfin
            rw [calls, List.append_nil]
            exact hfin
  -- The head of the loop decides whether there is another attempt.
  | @sleeping m err ho hrep =>
      cases hs
      unfold onSleep head
      split
      · next hle => exact .attempting hle hrep
      · next hle =>
        rw [calls, List.append_nil]
        exact .exhausted ho hrep (Bool.eq_false_iff.mpr hle)
  | skipped | finished | exhausted => cases hs

/-- Every run is at a position. -/
theorem position_of_reaches {h : List RetryEvent} {s : Option (Run T)}
    (hr : (machine policy outcomes random).Reaches h s) :
    Position policy outcomes random h s :=
  hr.invariant .idle fun _ hp hs => hp.step hs

/-! ### The loop computes its specification -/

/-- An outcome after which the retry policy wants another attempt: a server error or a
failure of the network, not an answer below 500. -/
def retryable : Outcome T → Bool
  | .rejected (.error (.networkError _) ..) => true
  | .rejected (.error (.timeoutError _ _) ..) => true
  | .rejected (.error (.httpError status _) ..) => decide (500 ≤ status)
  | _ => false

/-- Attempt `k` of at most `n` is one the loop may stop at. -/
def Final (outcomes : ℕ → Outcome T) (n k : ℕ) : Prop :=
  1 ≤ k ∧ k ≤ n ∧ (retryable (outcomes k) = false ∨ k = n)

/-- What a run of `k` attempts does. -/
def history (policy : RetryPolicy) (random : ℕ → ℚ) (k : ℕ) : List RetryEvent :=
  rounds policy random (k - 1) ++ [.attempt k]

/-- The classifier repeats the loop bound and asks for a retryable error. -/
theorem shouldRetry_iff {n i : ℕ} {err : Thrown} (hmax : policy.maxAttempts = n) :
    shouldRetry err i policy = true ↔ i < n ∧ retryable (.rejected err : Outcome T) = true := by
  unfold shouldRetry
  rw [hmax, JsNumber.le_natCast]
  by_cases hi : n ≤ i
  · simp [hi, Nat.not_lt.mpr hi]
  · rw [if_neg (by simpa using hi)]
    simp only [Nat.lt_of_not_le hi, true_and]
    cases err with
    | error cls => cases cls <;> simp [retryable, RETRYABLE_STATUS_MIN]
    | _ => simp [retryable]

/-- No attempt before the first final one ends the loop, and none behind it is made. -/
theorem Repeated.lt_of_isLeast {n m k : ℕ} (hrep : Repeated policy outcomes m)
    (hmax : policy.maxAttempts = n) (hk : IsLeast {k | Final outcomes n k} k) : m < k := by
  by_contra hle
  obtain ⟨h1, -, hfin⟩ := hk.1
  obtain ⟨err, ho, hretry⟩ := hrep k h1 (by omega)
  rw [shouldRetry_iff (T := T) hmax, ← ho] at hretry
  rcases hfin with hfin | rfl
  · rw [hfin] at hretry
    cases hretry.2
  · exact Nat.lt_irrefl _ hretry.1

theorem rounds_isPrefix_rounds {m m' : ℕ} (h : m ≤ m') :
    rounds policy random m <+: rounds policy random m' := by
  induction h with
  | refl => exact List.prefix_refl _
  | step _ ih => exact ih.trans (List.prefix_append _ _)

theorem rounds_isPrefix_history {m k : ℕ} (h : m < k) :
    rounds policy random m <+: history policy random k :=
  (rounds_isPrefix_rounds (by omega)).trans (List.prefix_append _ _)

theorem attempt_isPrefix_history {m k : ℕ} (h : m < k) :
    rounds policy random m ++ [.attempt (m + 1)] <+: history policy random k := by
  rcases Nat.lt_or_eq_of_le h with hlt | rfl
  · refine List.IsPrefix.trans ?_ (rounds_isPrefix_history hlt)
    rw [rounds]
    exact (List.prefix_append_right_inj _).mpr ⟨[_], rfl⟩
  · exact List.prefix_refl _

/-- Through attempts that are no final ones the run comes to the next. -/
theorem reaches_attempting {n m : ℕ} (hmax : policy.maxAttempts = n) (hm : m < n)
    (hret : ∀ j, 1 ≤ j → j ≤ m → retryable (outcomes j) = true) :
    (machine policy outcomes random).Reaches (rounds policy random m ++ [.attempt (m + 1)])
      (some (.attempting (m + 1))) := by
  have hbound : ∀ i, i ≤ n → JsNumber.le i policy.maxAttempts = true := by
    intro i hi
    rw [hmax, JsNumber.le_natCast]
    exact decide_eq_true hi
  induction m with
  | zero =>
      have hstart : (start policy : Run T) = .attempting 1 := if_pos (hbound 1 hm)
      refine Machine.Reaches.step (a := ()) .init ?_
      show some (some (start policy), calls policy random (start policy : Run T)) = _
      rw [hstart]
      rfl
  | succ m ih =>
      have hprev := ih (by omega) fun j h1 hj => hret j h1 (by omega)
      have hlast := hret (m + 1) (by omega) (by omega)
      cases ho : outcomes (m + 1) with
      | fulfilled r => rw [ho] at hlast; cases hlast
      | rejected err =>
          have hretry : shouldRetry err (m + 1) policy = true :=
            (shouldRetry_iff (T := T) hmax).mpr ⟨hm, ho ▸ hlast⟩
          -- the attempt fails, the loop sleeps and comes round
          have hsleep : (machine policy outcomes random).Reaches
              (rounds policy random m ++ [.attempt (m + 1)] ++
                [.sleep (backoffWithJitter (m + 1) policy (random (m + 1)))])
              (some (.sleeping (m + 1) err)) := by
            refine hprev.step (a := ()) ?_
            show some (some (onAttempt policy (m + 1) (outcomes (m + 1))), _) = _
            rw [ho, onAttempt, if_pos hretry]
            rfl
          have hnext : (machine policy outcomes random).Reaches
              (rounds policy random m ++ [.attempt (m + 1)] ++
                [.sleep (backoffWithJitter (m + 1) policy (random (m + 1)))] ++
                [.attempt (m + 1 + 1)])
              (some (.attempting (m + 1 + 1))) := by
            refine hsleep.step (a := ()) ?_
            show some (some (onSleep policy (m + 1) err : Run T), _) = _
            rw [onSleep, head, if_pos (hbound _ (by omega))]
            rfl
          rw [rounds]
          simpa using hnext

/-- The attempt at which the loop may stop ends it. -/
theorem onAttempt_of_final {n k : ℕ} (hmax : policy.maxAttempts = n)
    (hk : Final outcomes n k) : onAttempt policy k (outcomes k) = .settled (outcomes k) := by
  rw [onAttempt_eq_settled]
  refine ⟨rfl, fun err ho => Bool.eq_false_iff.mpr fun hretry => ?_⟩
  rw [shouldRetry_iff (T := T) hmax, ← ho] at hretry
  rcases hk.2.2 with hfin | rfl
  · rw [hfin] at hretry
    cases hretry.2
  · exact Nat.lt_irrefl _ hretry.1

/-- Where the loop stops it may stop. -/
theorem final_of_stop {n k : ℕ} (hmax : policy.maxAttempts = n) (h1 : 1 ≤ k) (hn : k ≤ n)
    (hstop : ∀ err, outcomes k = .rejected err → shouldRetry err k policy = false) :
    Final outcomes n k := by
  refine ⟨h1, hn, ?_⟩
  rcases Nat.lt_or_eq_of_le hn with hlt | rfl
  · left
    cases ho : outcomes k with
    | fulfilled r => rfl
    | rejected err =>
        have hno := hstop err ho
        rw [Bool.eq_false_iff, Ne, shouldRetry_iff (T := T) hmax] at hno
        exact Bool.eq_false_iff.mpr fun hret => hno ⟨hlt, hret⟩
  · exact .inr rfl

/-- A run comes to the first final attempt and settles with its outcome. -/
theorem reaches_history {n k : ℕ} (hmax : policy.maxAttempts = n)
    (hk : IsLeast {k | Final outcomes n k} k) :
    (machine policy outcomes random).Reaches (history policy random k)
      (some (.settled (outcomes k))) := by
  obtain ⟨h1, hn, -⟩ : Final outcomes n k := hk.1
  obtain ⟨m, rfl⟩ : ∃ m, k = m + 1 := ⟨k - 1, by omega⟩
  have hret : ∀ j, 1 ≤ j → j ≤ m → retryable (outcomes j) = true := by
    intro j hj1 hj
    by_contra hno
    have hle : m + 1 ≤ j := hk.2 ⟨hj1, by omega, .inl (Bool.eq_false_iff.mpr hno)⟩
    omega
  have hrun : (machine policy outcomes random).Reaches (rounds policy random m ++ [_])
      (some (.attempting (m + 1))) := reaches_attempting hmax hn hret
  rw [history, ← List.append_nil (_ ++ _)]
  refine hrun.step (a := ()) ?_
  show some (some (onAttempt policy (m + 1) (outcomes (m + 1))), _) = _
  rw [onAttempt_of_final hmax hk.1]
  rfl

/-- A run gets no further than that. -/
theorem Position.of_isLeast {n k : ℕ} {h : List RetryEvent} {s : Option (Run T)}
    (hp : Position policy outcomes random h s) (hmax : policy.maxAttempts = n)
    (hk : IsLeast {k | Final outcomes n k} k) :
    h <+: history policy random k ∧
      ∀ o, s = some (.settled o) → h = history policy random k ∧ o = outcomes k := by
  obtain ⟨h1, hn, -⟩ : Final outcomes n k := hk.1
  cases hp with
  | idle => exact ⟨List.nil_prefix, fun o ho => by cases ho⟩
  | skipped hle =>
      rw [hmax, JsNumber.le_natCast, decide_eq_false_iff_not] at hle
      exact absurd (h1.trans hn) hle
  | attempting _ hrep =>
      exact ⟨attempt_isPrefix_history (hrep.lt_of_isLeast hmax hk), fun o ho => by cases ho⟩
  | sleeping _ hrep =>
      exact ⟨rounds_isPrefix_history (hrep.lt_of_isLeast hmax hk), fun o ho => by cases ho⟩
  | @finished m hrep hstop =>
      have hlt := hrep.lt_of_isLeast hmax hk
      have hle : k ≤ m + 1 := hk.2 (final_of_stop hmax (by omega) (by omega) hstop)
      obtain rfl : k = m + 1 := by omega
      refine ⟨List.prefix_refl _, ?_⟩
      intro o heq
      cases heq
      exact ⟨rfl, rfl⟩
  | @exhausted m err ho hrep hle =>
      -- a whole budget runs out in the `catch`, not at the loop condition
      obtain ⟨err', -, hretry⟩ := hrep (m + 1) (by omega) (le_refl _)
      have hlt := ((shouldRetry_iff (T := T) hmax).mp hretry).1
      rw [hmax, JsNumber.le_natCast, decide_eq_false_iff_not] at hle
      exact absurd hlt hle

/-- **The specification of the loop.** For a budget of `n` attempts, let `k` be the first
attempt that succeeds or fails for good, and `n` if there is none. The run makes `k`
attempts with a sleep after each but the last, settles with the outcome of the `k`-th, and
does nothing else on the way. -/
theorem run_computes {n : ℕ} (hn : 1 ≤ n) (hmax : policy.maxAttempts = n)
    (outcomes : ℕ → Outcome T) (random : ℕ → ℚ) :
    ∃ k, IsLeast {k | Final outcomes n k} k ∧
      (machine policy outcomes random).Reaches (history policy random k)
        (some (.settled (outcomes k))) ∧
      ∀ h s, (machine policy outcomes random).Reaches h s →
        h <+: history policy random k ∧
          ∀ o, s = some (.settled o) → h = history policy random k ∧ o = outcomes k := by
  classical
  have hex : ∃ k, Final outcomes n k := ⟨n, hn, le_refl n, .inr rfl⟩
  obtain ⟨k, hk⟩ : ∃ k, IsLeast {k | Final outcomes n k} k := ⟨_, Nat.isLeast_find hex⟩
  exact ⟨k, hk, reaches_history hmax hk,
    fun h s hr => (position_of_reaches hr).of_isLeast hmax hk⟩

/-- Attempts of which the first times out and every other is answered. -/
def answeredSecond : ℕ → Outcome Unit :=
  fun i => if i = 1 then .rejected (.newTimeoutError "u" 5) else .fulfilled ()

/-- Under the default budget the run settles at the first final attempt. -/
theorem run_computes_answeredSecond :
    ∃ k, IsLeast {k | Final answeredSecond 3 k} k ∧
      (machine (resolveRetryPolicy .GET {}) answeredSecond fun _ => 0).Reaches
        (history (resolveRetryPolicy .GET {}) (fun _ => 0) k)
        (some (.settled (answeredSecond k))) := by
  obtain ⟨k, hk, hrun, -⟩ := run_computes (n := 3) (by decide)
    (show (resolveRetryPolicy .GET {}).maxAttempts = (3 : ℕ) from rfl) answeredSecond fun _ => 0
  exact ⟨k, hk, hrun⟩

/-! ### Every budget a caller can pass -/

/-- The `i` of a call of `attempt`. -/
def attempt? : RetryEvent → Option ℕ
  | .attempt i => some i
  | .sleep _ => none

/-- The last attempt made. -/
def lastAttempt (h : List RetryEvent) : Option ℕ := (h.filterMap attempt?).getLast?

theorem lastAttempt_append_attempt (h : List RetryEvent) (i : ℕ) :
    lastAttempt (h ++ [.attempt i]) = some i := by
  unfold lastAttempt
  rw [List.filterMap_append]
  exact List.getLast?_concat

theorem lastAttempt_rounds_succ (m : ℕ) :
    lastAttempt (rounds policy random (m + 1)) = some (m + 1) := by
  unfold lastAttempt
  rw [rounds, List.filterMap_append]
  exact List.getLast?_concat

theorem attempt_one_mem_rounds (m : ℕ) : .attempt 1 ∈ rounds policy random (m + 1) := by
  have hpre : rounds policy random 1 <+: rounds policy random (m + 1) :=
    rounds_isPrefix_rounds (by omega)
  exact hpre.subset (by simp [rounds])

theorem attempt_one_mem (m : ℕ) :
    .attempt 1 ∈ rounds policy random m ++ [.attempt (m + 1)] := by
  cases m with
  | zero => exact List.mem_singleton_self _
  | succ m => exact List.mem_append_left _ (attempt_one_mem_rounds m)

/-- A run that was called attempts, and rejects only with the error of its last attempt. -/
def AttemptLaw (policy : RetryPolicy) (outcomes : ℕ → Outcome T) (random : ℕ → ℚ) : Prop :=
  ∀ h run, (machine policy outcomes random).Reaches h (some run) →
    .attempt 1 ∈ h ∧
      ∀ err, run = .settled (.rejected err) →
        ∃ i, lastAttempt h = some i ∧ outcomes i = .rejected err

/-- What is asked of the caller: `retries` of a request with a budget is a number from 1. -/
def BudgetAllows (method : HttpMethod) (opts : HttpCallOpts) : Prop :=
  IDEMPOTENT_METHODS.contains method = true ∨ opts.idempotent = some true →
    ∀ retries, opts.retries = some retries → JsNumber.le (1 : ℕ) retries = true

theorem le_one_maxAttempts_iff {method : HttpMethod} {opts : HttpCallOpts} :
    JsNumber.le (1 : ℕ) (resolveRetryPolicy method opts).maxAttempts = true ↔
      BudgetAllows method opts := by
  unfold resolveRetryPolicy BudgetAllows
  by_cases hi : IDEMPOTENT_METHODS.contains method = true ∨ opts.idempotent = some true
  · have hgate : (IDEMPOTENT_METHODS.contains method || opts.idempotent == some true) = true := by
      simpa using hi
    simp only [hgate, hi, if_true, true_implies]
    cases opts.retries with
    | none =>
        have hdefault : JsNumber.le (1 : ℕ) RETRY_MAX_ATTEMPTS = true := JsNumber.le_natCast 1 3
        simp [hdefault]
    | some retries => simp
  · have hgate : (IDEMPOTENT_METHODS.contains method || opts.idempotent == some true) = false := by
      simpa using hi
    simp only [hgate, hi, Bool.false_eq_true, if_false, false_implies, iff_true]
    exact (JsNumber.le_natCast 1 1).trans rfl

theorem attemptLaw_iff_le :
    AttemptLaw policy outcomes random ↔ JsNumber.le (1 : ℕ) policy.maxAttempts = true := by
  constructor
  · intro hlaw
    by_contra hle
    have hstart : (start policy : Run T) = .settled (.rejected .undefined) := if_neg hle
    have hr : (machine policy outcomes random).Reaches ([] ++ [])
        (some (.settled (.rejected .undefined))) := by
      refine Machine.Reaches.step (a := ()) .init ?_
      show some (some (start policy), calls policy random (start policy : Run T)) = _
      rw [hstart]
      rfl
    exact List.not_mem_nil (hlaw _ _ hr).1
  · intro hle h run hr
    have hp := position_of_reaches hr
    generalize hs : some run = s at hp
    cases hp with
    | idle => cases hs
    | skipped hno => rw [hle] at hno; cases hno
    | attempting => cases hs; exact ⟨attempt_one_mem _, fun err he => by cases he⟩
    | sleeping => cases hs; exact ⟨attempt_one_mem_rounds _, fun err he => by cases he⟩
    | @finished m =>
        cases hs
        refine ⟨attempt_one_mem _, fun err he => ⟨m + 1, lastAttempt_append_attempt _ _, ?_⟩⟩
        exact settled.inj he
    | @exhausted m _ ho =>
        cases hs
        refine ⟨attempt_one_mem_rounds _, fun err he => ⟨m + 1, lastAttempt_rounds_succ _, ?_⟩⟩
        rw [ho]
        exact settled.inj he

/-- Every admitted request is attempted and fails with a reason if and only if its caller
asks for a budget that allows one attempt; `0`, negative numbers, `NaN` and fractions
below 1 are numbers too. -/
theorem attemptLaw_iff (method : HttpMethod) (opts : HttpCallOpts) (outcomes : ℕ → Outcome T)
    (random : ℕ → ℚ) :
    AttemptLaw (resolveRetryPolicy method opts) outcomes random ↔ BudgetAllows method opts :=
  attemptLaw_iff_le.trans le_one_maxAttempts_iff

/-- With `retries: 0` nothing is attempted. -/
theorem attemptLaw_zeroRetries :
    ¬ AttemptLaw (resolveRetryPolicy .GET { retries := some (0 : ℕ) }) answeredSecond
      fun _ => 0 := by
  intro hlaw
  have hno : ¬ JsNumber.le (1 : ℕ) ((0 : ℕ) : JsNumber) = true := by
    rw [JsNumber.le_natCast]
    decide
  exact hno (attemptLaw_iff_le.mp hlaw)

end Run

end EmailPlatform.Http
