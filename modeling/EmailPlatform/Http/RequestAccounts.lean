import EmailPlatform.Http.Backoff
import EmailPlatform.Http.ClientRest
import EmailPlatform.Http.RequestExecutorLaws
import EmailPlatform.Http.RequestLife
import Mathlib.Algebra.Order.BigOperators.Group.List

/-!
# EmailPlatform.Http.RequestAccounts

What the lives of requests (`EmailPlatform.Http.RequestLife`) add up to: which calls of `fetch`
they make and what the log says of them, how long they wait, and what they settle with.

Each account is a filter of the history. `Life.inLoop` says what is left of a history in the
retry loop, and the account of one round follows by computation.
-/

namespace EmailPlatform

/-- How often the loop can pause before a bound: once behind every counter below it. -/
def JsNumber.pauses : JsNumber → ℕ
  | .finite q => ⌈q⌉₊ - 1
  | .nan | .negInfinity | .infinity => 0

/-- A counter that is let through and has not reached the bound. -/
theorem JsNumber.le_pauses {n : ℕ} {b : JsNumber} (hfin : b ≠ .infinity)
    (hle : JsNumber.le n b = true) (hge : JsNumber.le b n = false) : n ≤ b.pauses := by
  cases b with
  | nan => cases hle
  | negInfinity => cases hle
  | infinity => exact absurd rfl hfin
  | finite q =>
      have hlt : (n : ℚ) < q := by simpa [JsNumber.le] using hge
      have hceil := Nat.lt_ceil.mpr hlt
      simp only [pauses]
      omega

namespace Http

open ClientSystem (lookup unavailable available repeatedLookup_runs lookupHistory)

variable {O : Opossum} {T : Type} {c : AbstractHttpClient} {A : Round → Prop}
  {args : RequestArgs} {rs : List Round} {g : List (RequestEvent T)}

/-! ### The part of the loop -/

/-- The event belongs to the retry loop. -/
def RequestEvent.inLoop : RequestEvent T → Bool
  | .fetch .. | .responded .. | .call _ | .sleep _ => true
  | .invoked | .refused | .completed _ | .fired _ | .read _ | .settled _ => false

/-- What has happened in the loop, by the rounds that it has come through. -/
inductive LoopPart (c : AbstractHttpClient) (A : Round → Prop) (args : RequestArgs) :
    List (RequestEvent T) → Prop
  | between {rs : List Round} : AllRepeated c A args rs → LoopPart c A args (repeats c args rs)
  | waiting {rs : List Round} :
      AllRepeated c A args rs →
      LoopPart c A args
        (repeats c args rs ++ Request.attempt c args (.attempting (rs.length + 1)))
  | decided {rs : List Round} {r : Round} :
      AllRepeated c A args rs → A r → ¬ r.Repeated c args (rs.length + 1) →
      LoopPart c A args (repeats c args rs ++ r.events c args (rs.length + 1))

theorem inLoop_events (n : ℕ) (r : Round) :
    (r.events (T := T) c args n).filter RequestEvent.inLoop = r.events c args n := by
  rw [List.filter_eq_self]
  intro e he
  simp only [Round.events, Request.attempt, List.cons_append, List.nil_append, List.mem_cons,
    List.mem_map] at he
  rcases he with rfl | rfl | ⟨line, -, rfl⟩ <;> rfl

theorem inLoop_repeats (rs : List Round) :
    (repeats (T := T) c args rs).filter RequestEvent.inLoop = repeats c args rs := by
  induction rs using List.reverseRecOn with
  | nil => rfl
  | append_singleton rs r ih =>
      rw [repeats_concat, List.filter_append, List.filter_append, ih, inLoop_events]
      rfl

theorem Loop.inLoop {o : Outcome Response} (hl : Loop c A args o g) :
    LoopPart c A args (g.filter RequestEvent.inLoop) := by
  cases hl with
  | decided hrs _ hA hstop =>
      rw [List.filter_cons_of_neg (by simp [RequestEvent.inLoop]), List.filter_append,
        inLoop_repeats, inLoop_events]
      exact .decided hrs hA hstop
  | exhausted hrs =>
      rw [List.filter_cons_of_neg (by simp [RequestEvent.inLoop]), inLoop_repeats]
      exact .between hrs

theorem Life.inLoop {phase : Phase T} (hl : Life c A args phase g) :
    LoopPart c A args (g.filter RequestEvent.inLoop) := by
  cases hl with
  | attempting hrs =>
      rw [List.filter_cons_of_neg (by simp [RequestEvent.inLoop]), List.filter_append,
        inLoop_repeats]
      exact .waiting hrs
  | sleeping hrs =>
      rw [List.filter_cons_of_neg (by simp [RequestEvent.inLoop]), inLoop_repeats]
      exact .between hrs
  | looped hloop => exact hloop.inLoop
  | refused | turnedAway => exact .between .nil
  | counted hloop | reading hloop | failed hloop | read hloop =>
      rw [List.filter_append]
      simpa [RequestEvent.inLoop] using hloop.inLoop

/-- An account that reads only the loop. -/
theorem filterMap_inLoop {β : Type} {f : RequestEvent T → Option β}
    (hf : ∀ e, RequestEvent.inLoop e = false → f e = none) (g : List (RequestEvent T)) :
    (g.filter RequestEvent.inLoop).filterMap f = g.filterMap f := by
  induction g with
  | nil => rfl
  | cons e g ih =>
      cases he : e.inLoop with
      | true => rw [List.filter_cons_of_pos he, List.filterMap_cons, List.filterMap_cons, ih]
      | false => rw [List.filter_cons_of_neg (by simp [he]), List.filterMap_cons_none (hf e he), ih]

/-! ### Fetches, answers and the log -/

/-- A call of `fetch`, or its answer, by its number. -/
inductive Exchange
  | sent (n : ℕ)
  | answered (n : ℕ)
  deriving DecidableEq

namespace RequestEvent

/-- A `fetch` that is sent or answered. -/
def exchange? : RequestEvent T → Option Exchange
  | .fetch n _ _ => some (.sent n)
  | .responded n _ => some (.answered n)
  | _ => none

/-- The answer to a `fetch`. -/
def answer? : RequestEvent T → Option (Outcome Response)
  | .responded _ o => some o
  | _ => none

/-- The line that is logged. -/
def line? : RequestEvent T → Option HttpClientLogFields
  | .call line => some line
  | _ => none

/-- The length of a pause. -/
def sleep? : RequestEvent T → Option ℚ
  | .sleep ms => some ms
  | _ => none

end RequestEvent

/-- `n` calls of `fetch` in turn, each answered before the next. -/
def exchanges : ℕ → List Exchange
  | 0 => []
  | n + 1 => exchanges n ++ [.sent (n + 1), .answered (n + 1)]

/-- The calls of `fetch` and their answers. -/
def exchanged (g : List (RequestEvent T)) : List Exchange := g.filterMap RequestEvent.exchange?

/-- What `fetch` has answered. -/
def answers (g : List (RequestEvent T)) : List (Outcome Response) :=
  g.filterMap RequestEvent.answer?

/-- What has been logged. -/
def logged (g : List (RequestEvent T)) : List HttpClientLogFields :=
  g.filterMap RequestEvent.line?

/-- The line an answer is worth. -/
def logLine (deps : HttpClientDeps) (args : RequestArgs) (r : Round) : HttpClientLogFields :=
  match r.answer with
  | .fulfilled res => HttpRequestExecutor.logFields deps args r.duration (some res.status)
      (if res.ok then .OK else .ERROR)
  | .rejected _ => HttpRequestExecutor.logFields deps args r.duration none .ERROR

/-- `fetch` itself does not reject with an error of the client. -/
def Round.Foreign (r : Round) : Prop := ¬ HttpRequestExecutor.ClientRejection r.answer

theorem lines_of_foreign {r : Round} (hr : r.Foreign) :
    r.lines c args = [logLine c.deps args r] := by
  obtain ⟨answer, duration, random⟩ := r
  cases answer with
  | fulfilled res =>
      simp only [Round.lines, HttpRequestExecutor.afterFetch, logLine]
      split <;> rfl
  | rejected err =>
      have herr : err.isHttpClientError = false := by
        rw [Bool.eq_false_iff]
        exact fun he => hr ⟨err, rfl, he⟩
      simp [Round.lines, HttpRequestExecutor.afterFetch, logLine, herr]

/-- The account of repeated rounds grows by that of one round and its pause. -/
theorem filterMap_repeats {β : Type} {f : RequestEvent T → Option β} {φ : List Round → List β}
    (hnil : φ [] = [])
    (hround : ∀ rs r, A r → φ (rs ++ [r]) = φ rs ++
      ((r.events c args (rs.length + 1)).filterMap f ++
        (f (r.pause args (rs.length + 1))).toList))
    (hrs : AllRepeated c A args rs) : (repeats c args rs).filterMap f = φ rs := by
  induction rs using List.reverseRecOn with
  | nil => exact hnil.symm
  | append_singleton rs r ih =>
      have hA : A r := (hrs rs.length r List.getElem?_concat_length).2.1
      have hinit : AllRepeated c A args rs := fun k r' hk =>
        hrs k r' (by rw [List.getElem?_append_left (List.getElem?_eq_some_iff.mp hk).1, hk])
      have hpause : [r.pause (T := T) args (rs.length + 1)].filterMap f =
          (f (r.pause args (rs.length + 1))).toList := by
        cases hf : f (r.pause args (rs.length + 1)) <;> simp [hf]
      rw [repeats_concat, List.filterMap_append, List.filterMap_append, ih hinit, hpause,
        hround rs r hA]

theorem exchanged_events (n : ℕ) (r : Round) :
    (r.events (T := T) c args n).filterMap RequestEvent.exchange? = [.sent n, .answered n] := by
  simp [Round.events, Request.attempt, RequestEvent.exchange?, List.filterMap_map]

theorem answers_events (n : ℕ) (r : Round) :
    (r.events (T := T) c args n).filterMap RequestEvent.answer? = [r.answer] := by
  simp [Round.events, Request.attempt, RequestEvent.answer?, List.filterMap_cons]

theorem logged_events (n : ℕ) {r : Round} (hr : r.Foreign) :
    (r.events (T := T) c args n).filterMap RequestEvent.line? = [logLine c.deps args r] := by
  simp [Round.events, Request.attempt, RequestEvent.line?, List.filterMap_cons,
    lines_of_foreign hr]

theorem slept_events (n : ℕ) (r : Round) :
    (r.events (T := T) c args n).filterMap RequestEvent.sleep? = [] := by
  simp [Round.events, Request.attempt, RequestEvent.sleep?, List.filterMap_cons]

theorem exchanged_repeats (hrs : AllRepeated c A args rs) :
    (repeats (T := T) c args rs).filterMap RequestEvent.exchange? = exchanges rs.length := by
  refine filterMap_repeats (φ := fun rs => exchanges rs.length) rfl (fun rs r _ => ?_) hrs
  rw [exchanged_events, List.length_append]
  rfl

theorem answers_repeats (hrs : AllRepeated c A args rs) :
    (repeats (T := T) c args rs).filterMap RequestEvent.answer? = rs.map Round.answer := by
  refine filterMap_repeats (φ := fun rs => rs.map Round.answer) rfl (fun rs r _ => ?_) hrs
  rw [answers_events, List.map_append]
  rfl

theorem logged_repeats (hA : ∀ r, A r → r.Foreign) (hrs : AllRepeated c A args rs) :
    (repeats (T := T) c args rs).filterMap RequestEvent.line? =
      rs.map (logLine c.deps args) := by
  refine filterMap_repeats (φ := fun rs => rs.map (logLine c.deps args)) rfl
    (fun rs r hr => ?_) hrs
  rw [logged_events _ (hA r hr), List.map_append]
  rfl

/-- What a loop that is never cut short sends, is answered and logs: one exchange and one line
an attempt, and one more call where an answer is due. -/
theorem exists_rounds (hA : ∀ r, A r → r.Foreign) {phase : Phase T} (hl : Life c A args phase g) :
    ∃ rounds : List Round, answers g = rounds.map Round.answer ∧
      logged g = rounds.map (logLine c.deps args) ∧
      (exchanged g = exchanges rounds.length ∨
        exchanged g = exchanges rounds.length ++ [.sent (rounds.length + 1)]) := by
  have hpart := hl.inLoop
  rw [answers, logged, exchanged,
    ← filterMap_inLoop (f := RequestEvent.answer?) (fun e he => by cases e <;> trivial) g,
    ← filterMap_inLoop (f := RequestEvent.line?) (fun e he => by cases e <;> trivial) g,
    ← filterMap_inLoop (f := RequestEvent.exchange?) (fun e he => by cases e <;> trivial) g]
  generalize g.filter RequestEvent.inLoop = loop at hpart ⊢
  cases hpart with
  | @between rs hrs =>
      exact ⟨rs, answers_repeats hrs, logged_repeats hA hrs, .inl (exchanged_repeats hrs)⟩
  | @waiting rs hrs =>
      refine ⟨rs, ?_, ?_, .inr ?_⟩ <;> rw [List.filterMap_append]
      · rw [answers_repeats hrs]
        exact List.append_nil _
      · rw [logged_repeats hA hrs]
        exact List.append_nil _
      · rw [exchanged_repeats hrs]
        rfl
  | @decided rs r hrs hr =>
      refine ⟨rs ++ [r], ?_, ?_, .inl ?_⟩ <;> rw [List.filterMap_append]
      · rw [answers_repeats hrs, answers_events, List.map_append]
        rfl
      · rw [logged_repeats hA hrs, logged_events _ (hA r hr), List.map_append]
        rfl
      · rw [exchanged_repeats hrs, exchanged_events, List.length_append]
        rfl

/-- **A request talks to its vendor in turn, and the log tells it all.** In every run of a client
whose `fetch` rejects with errors of its own, the calls of `fetch` for a request are numbered in
order, each is answered before the next, and the log of the request has one line for each answer,
in order, with its status. -/
theorem conversation_logged {h : List (ClientEvent T)} {s : ClientSystem O T}
    (hr : (ClientSystem.machine O T c).ReachesWhen (ClientSystem.VendorAnswers Round.Foreign) h s)
    {i : ℕ} {q : Request T} (hq : s.requests[i]? = some q) :
    ∃ rounds : List Round, answers (requestHistory i h) = rounds.map Round.answer ∧
      logged (requestHistory i h) = rounds.map (logLine c.deps q.args) ∧
      (exchanged (requestHistory i h) = exchanges rounds.length ∨
        exchanged (requestHistory i h) =
          exchanges rounds.length ++ [.sent (rounds.length + 1)]) :=
  exists_rounds (fun _ => id) ((ClientSystem.lives_of_reaches hr i).2 q hq)

/-- A lookup that is answered twice has two lines in the log. -/
theorem conversation_logged_repeatedLookup :
    ∃ (h : List (ClientEvent Nat)) (s : ClientSystem .v9 Nat) (rounds : List Round),
      (ClientSystem.machine .v9 Nat (vendorClient 5)).ReachesWhen
        (ClientSystem.VendorAnswers Round.Foreign) h s ∧
      exchanged (requestHistory 0 h) = [.sent 1, .answered 1, .sent 2, .answered 2] ∧
      rounds.map Round.answer = [unavailable.answer, available.answer] ∧
      logged (requestHistory 0 h) = rounds.map (logLine (vendorClient 5).deps lookup) := by
  obtain ⟨h, s, hr, hdone, hhistory⟩ := repeatedLookup_runs (A := Round.Foreign)
    (by simp [Round.Foreign, HttpRequestExecutor.ClientRejection, unavailable,
      available])
  obtain ⟨rounds, hanswers, hlogged, -⟩ := conversation_logged hr hdone
  have htwo : answers (requestHistory 0 h) = [unavailable.answer, available.answer] := by
    rw [hhistory]
    rfl
  exact ⟨h, s, rounds, hr, by rw [hhistory]; rfl, hanswers.symm.trans htwo, hlogged⟩

/-! ### The time spent waiting -/

/-- The pauses of a request, in milliseconds. -/
def slept (g : List (RequestEvent T)) : List ℚ := g.filterMap RequestEvent.sleep?

/-- `Math.random()` drew from its range. -/
def Round.Drawn (r : Round) : Prop := 0 ≤ r.random ∧ r.random < 1

theorem slept_repeats (hrs : AllRepeated c A args rs) :
    (repeats (T := T) c args rs).filterMap RequestEvent.sleep? =
      rs.mapIdx fun k r => backoffWithJitter (k + 1) (Request.policy args) r.random := by
  refine filterMap_repeats
    (φ := fun rs => rs.mapIdx fun k r => backoffWithJitter (k + 1) (Request.policy args) r.random)
    rfl (fun rs r _ => ?_) hrs
  rw [slept_events, List.mapIdx_concat]
  rfl

/-- An attempt is repeated only below the bound. -/
theorem le_maxAttempts_of_shouldRetry {err : Thrown} {n : ℕ} {policy : RetryPolicy}
    (h : shouldRetry err n policy = true) : JsNumber.le policy.maxAttempts n = false := by
  rw [Bool.eq_false_iff]
  intro hge
  simp [shouldRetry, hge] at h

theorem fetches_events (n : ℕ) (r : Round) :
    fetches (r.events (T := T) c args n) = 1 := by
  simp [Round.events, Request.attempt]

theorem fetches_repeats (rs : List Round) :
    fetches (repeats (T := T) c args rs) = rs.length := by
  induction rs using List.reverseRecOn with
  | nil => rfl
  | append_singleton rs r ih =>
      rw [repeats_concat, fetches_append, fetches_append, ih, fetches_events, List.length_append]
      rfl

/-- All calls of `fetch` are made in the loop. -/
theorem fetches_inLoop (g : List (RequestEvent T)) :
    fetches (g.filter RequestEvent.inLoop) = fetches g := by
  rw [fetches, List.countP_filter]
  refine List.countP_congr fun e _ => ?_
  cases e <;> simp [RequestEvent.inLoop]

/-- A history's pauses are those behind its repeated rounds, and `fetch` was called for each of
these and once more at most. -/
theorem exists_slept {phase : Phase T} (hl : Life c A args phase g) :
    ∃ rs, AllRepeated c A args rs ∧
      slept g = (rs.mapIdx fun k r =>
        backoffWithJitter (k + 1) (Request.policy args) r.random) ∧
      rs.length ≤ fetches g ∧ fetches g ≤ rs.length + 1 := by
  have hpart := hl.inLoop
  rw [slept, ← filterMap_inLoop (f := RequestEvent.sleep?) (fun e he => by cases e <;> trivial) g,
    ← fetches_inLoop g]
  generalize g.filter RequestEvent.inLoop = loop at hpart ⊢
  cases hpart with
  | @between rs hrs =>
      rw [fetches_repeats]
      exact ⟨rs, hrs, slept_repeats hrs, le_rfl, Nat.le_succ _⟩
  | @waiting rs hrs =>
      have hfetches : fetches (repeats (T := T) c args rs ++
          Request.attempt c args (.attempting (rs.length + 1))) = rs.length + 1 := by
        rw [fetches_append, fetches_repeats]
        rfl
      rw [hfetches]
      refine ⟨rs, hrs, ?_, Nat.le_succ _, le_rfl⟩
      rw [List.filterMap_append, slept_repeats hrs]
      exact List.append_nil _
  | @decided rs r hrs =>
      rw [fetches_append, fetches_repeats, fetches_events]
      refine ⟨rs, hrs, ?_, Nat.le_succ _, le_rfl⟩
      rw [List.filterMap_append, slept_repeats hrs, slept_events, List.append_nil]

/-- A loop with a whole number for its budget pauses between two attempts. -/
theorem Loop.pauses_between {n : ℕ} (hn : (Request.policy args).maxAttempts = n)
    {o : Outcome Response} (hl : Loop c A args o g) :
    slept g = [] ∧ fetches g = 0 ∨ fetches g = (slept g).length + 1 := by
  cases hl with
  | @decided rs r hrs =>
      right
      rw [slept, List.filterMap_cons_none rfl, List.filterMap_append, slept_repeats hrs,
        slept_events, List.append_nil, List.length_mapIdx, fetches_cons, fetches_append,
        fetches_repeats, fetches_events]
      rfl
  | @exhausted rs hrs hover =>
      left
      -- a round that was repeated was not the last that the budget allows
      have hnil : rs = [] := by
        by_contra hne
        obtain ⟨init, r, rfl⟩ := List.eq_nil_or_concat' rs |>.resolve_left hne
        obtain ⟨-, -, err, -, hretry⟩ := hrs init.length r List.getElem?_concat_length
        have hbelow := le_maxAttempts_of_shouldRetry hretry
        rw [hn, JsNumber.le_natCast, decide_eq_false_iff_not] at hbelow hover
        rw [List.length_append, List.length_singleton] at hover
        omega
      subst hnil
      exact ⟨rfl, rfl⟩

/-- A settled request with such a budget was turned away, or paused once less than it sent. -/
theorem Life.pauses_between {n : ℕ} (hn : (Request.policy args).maxAttempts = n) {o : Outcome T}
    (hl : Life c A args (.done o) g) :
    slept g = [] ∧ fetches g = 0 ∨ fetches g = (slept g).length + 1 := by
  cases hl with
  | turnedAway => exact .inl ⟨rfl, rfl⟩
  | failed hloop | read hloop =>
      have hsame := hloop.pauses_between hn
      simp only [slept, List.filterMap_append, List.filterMap_cons, RequestEvent.sleep?,
        List.filterMap_nil, List.append_nil, fetches_append] at hsame ⊢
      exact hsame

/-- Repeated rounds stay below the bound. -/
theorem length_le_pauses (hfin : (Request.policy args).maxAttempts ≠ .infinity)
    (hrs : AllRepeated c A args rs) : rs.length ≤ (Request.policy args).maxAttempts.pauses := by
  cases hlast : rs.getLast? with
  | none =>
      rw [List.getLast?_eq_none_iff.mp hlast]
      exact Nat.zero_le _
  | some r =>
      obtain ⟨init, rfl⟩ := List.getLast?_eq_some_iff.mp hlast
      obtain ⟨hle, -, err, -, hretry⟩ := hrs init.length r List.getElem?_concat_length
      rw [List.length_append]
      exact JsNumber.le_pauses hfin hle (le_maxAttempts_of_shouldRetry hretry)

/-- The policy of a request makes sense: its bounds are the client's own. -/
theorem sensible_policy (args : RequestArgs) : (Request.policy args).Sensible where
  min_pos := by
    show (0 : ℚ) < RETRY_BACKOFF_MIN_MS
    norm_num [RETRY_BACKOFF_MIN_MS]
  min_le_max := by
    show RETRY_BACKOFF_MIN_MS ≤ RETRY_BACKOFF_MAX_MS
    norm_num [RETRY_BACKOFF_MIN_MS, RETRY_BACKOFF_MAX_MS]
  ratio_nonneg := by
    show (0 : ℚ) ≤ RETRY_JITTER_RATIO
    norm_num [ RETRY_JITTER_RATIO]
  ratio_le_one := by
    show RETRY_JITTER_RATIO ≤ (1 : ℚ)
    norm_num [ RETRY_JITTER_RATIO]

/-- The longest that a request can wait, in milliseconds: every pause at its full delay. -/
def RetryPolicy.longestWait (policy : RetryPolicy) : ℚ :=
  ((List.range policy.maxAttempts.pauses).map fun k => policy.clampedDelay (k + 1)).sum

/-- Terms that each stay below their bound, and no more of them than bounds. -/
theorem sum_le_sum_range {l : List ℚ} {b : ℕ → ℚ} {n : ℕ} (hlen : l.length ≤ n)
    (hb : ∀ k, 0 ≤ b k) (hl : ∀ k x, l[k]? = some x → x ≤ b k) :
    l.sum ≤ ((List.range n).map b).sum := by
  induction l generalizing b n with
  | nil =>
      refine List.sum_nonneg fun x hx => ?_
      obtain ⟨k, -, rfl⟩ := List.mem_map.mp hx
      exact hb k
  | cons x l ih =>
      obtain ⟨n, rfl⟩ := Nat.exists_eq_add_one_of_ne_zero (Nat.ne_zero_of_lt hlen)
      rw [List.range_succ_eq_map, List.map_cons, List.map_map, List.sum_cons, List.sum_cons]
      exact add_le_add (hl 0 x rfl) (ih (Nat.succ_le_succ_iff.mp hlen) (fun k => hb (k + 1))
        fun k y hk => hl (k + 1) y (by simpa using hk))

/-- **How often and how long a request waits.** In every run in which `Math.random()` keeps to its
range, the `k`-th pause of a request takes at least half of the `k`-th delay and at most all of
it. A request pauses once for each call of `fetch`, or once less; a settled request whose budget
is a whole number, once less if it called `fetch` at all. Unless the budget is infinite, there are
at most as many pauses as whole numbers from 1 on below it, and all of them together are no longer
than the delays of that many. -/
theorem waiting_bounded {h : List (ClientEvent T)} {s : ClientSystem O T}
    (hr : (ClientSystem.machine O T c).ReachesWhen (ClientSystem.VendorAnswers Round.Drawn) h s)
    {i : ℕ} {q : Request T} (hq : s.requests[i]? = some q) :
    (∀ k ms, (slept (requestHistory i h))[k]? = some ms →
      1 / 2 * (Request.policy q.args).clampedDelay (k + 1) ≤ ms ∧
        ms ≤ (Request.policy q.args).clampedDelay (k + 1)) ∧
      ((slept (requestHistory i h)).length ≤ fetches (requestHistory i h) ∧
        fetches (requestHistory i h) ≤ (slept (requestHistory i h)).length + 1) ∧
      (∀ (n : ℕ) (o : Outcome T), (Request.policy q.args).maxAttempts = n → q.phase = .done o →
        slept (requestHistory i h) = [] ∧ fetches (requestHistory i h) = 0 ∨
          fetches (requestHistory i h) = (slept (requestHistory i h)).length + 1) ∧
      (q.Finite →
        (slept (requestHistory i h)).length ≤ (Request.policy q.args).maxAttempts.pauses ∧
          (slept (requestHistory i h)).sum ≤ (Request.policy q.args).longestWait) := by
  have hlife := (ClientSystem.lives_of_reaches hr i).2 q hq
  obtain ⟨rs, hrs, hslept, hmost, hleast⟩ := exists_slept hlife
  have hsensible := sensible_policy q.args
  have hlength : (slept (requestHistory i h)).length = rs.length := by
    rw [hslept, List.length_mapIdx]
  have hinterval : ∀ k ms, (slept (requestHistory i h))[k]? = some ms →
      1 / 2 * (Request.policy q.args).clampedDelay (k + 1) ≤ ms ∧
        ms ≤ (Request.policy q.args).clampedDelay (k + 1) := by
    intro k ms hms
    rw [hslept, List.getElem?_mapIdx] at hms
    obtain ⟨r, hr, rfl⟩ := Option.map_eq_some_iff.mp hms
    obtain ⟨-, ⟨hlow, hhigh⟩, -⟩ := hrs k r hr
    have hwithin := (backoffWithin_iff hsensible).1.interval (k + 1) r.random (by omega) hlow hhigh
    norm_num at hwithin ⊢
    exact hwithin
  refine ⟨hinterval, hlength ▸ ⟨hmost, hleast⟩, fun n o hn hdone => ?_, fun hfin => ?_⟩
  · rw [hdone] at hlife
    exact hlife.pauses_between hn
  · have hlen := hlength.le.trans (length_le_pauses hfin hrs)
    exact ⟨hlen, sum_le_sum_range hlen (fun k => (clampedDelay_pos hsensible (k + 1)).le)
      fun k ms hms => (hinterval k ms hms).2⟩

/-- A lookup that is answered twice pauses once, for 150 of the 600 ms that it may. -/
theorem waiting_bounded_repeatedLookup :
    ∃ (h : List (ClientEvent Nat)) (s : ClientSystem .v9 Nat),
      (ClientSystem.machine .v9 Nat (vendorClient 5)).ReachesWhen
        (ClientSystem.VendorAnswers Round.Drawn) h s ∧
      slept (requestHistory 0 h) = [150] ∧ fetches (requestHistory 0 h) = 2 ∧
      (slept (requestHistory 0 h)).length ≤ 2 ∧ (slept (requestHistory 0 h)).sum ≤ 600 := by
  obtain ⟨h, s, hr, hdone, hhistory⟩ := repeatedLookup_runs (A := Round.Drawn)
    (by norm_num [Round.Drawn, unavailable, available])
  have hpauses : (Request.policy lookup).maxAttempts.pauses = 2 := by decide +kernel
  have hwait : (Request.policy lookup).longestWait = 600 := by decide +kernel
  have hfin : (Request.policy lookup).maxAttempts ≠ .infinity := by decide
  have hslept : slept (requestHistory 0 h) = [150] := by
    rw [hhistory]
    decide +kernel
  obtain ⟨-, -, hsettled, hbounded⟩ := waiting_bounded hr hdone
  have hfetches := (hsettled 3 _ rfl rfl).resolve_left (by simp [hslept])
  rw [hslept] at hfetches
  have hbound := hbounded hfin
  rw [hpauses, hwait] at hbound
  exact ⟨h, s, hr, hslept, hfetches, hbound⟩

/-! ### What a request settles with -/

/-- What a request settles with, by what its vendor answered and what the breaker heard. -/
inductive Settlement (c : AbstractHttpClient) (args : RequestArgs) (g : List (RequestEvent T)) :
    Outcome T → Prop
  /-- Turned away: nothing is sent, and the breaker is told nothing. -/
  | refused {e : Thrown} :
      RequestEvent.refused ∈ g → exchanged g = [] → completions g = [] →
      Settlement c args g (.rejected e)
  /-- No answer was a 2xx. The error is that of the last attempt, and the breaker hears of it. -/
  | failed {rounds : List Round} {e : Thrown} :
      answers g = rounds.map Round.answer →
      (∀ res, .fulfilled res ∈ answers g → res.ok = false) →
      completions g = [.rejected (lastError c args rounds)] →
      e = lastError c args rounds ∨ e = .newCircuitOpenError c.deps.cb.api →
      Settlement c args g (.rejected e)
  /-- The first 2xx is the last answer, and the caller gets what reading its body gives. -/
  | read {before : List (Outcome Response)} {res : Response} {o : Outcome T} :
      answers g = before ++ [.fulfilled res] → res.ok = true →
      (∀ res', .fulfilled res' ∈ before → res'.ok = false) →
      completions g = [.fulfilled res] → RequestEvent.read o ∈ g → Settlement c args g o

theorem Round.result_eq_fulfilled {r : Round} {res : Response} :
    r.result c args = .fulfilled res ↔ r.answer = .fulfilled res ∧ res.ok = true :=
  HttpRequestExecutor.afterFetch_fulfilled_iff

/-- A repeated round was not answered with a 2xx. -/
theorem AllRepeated.not_ok (hrs : AllRepeated c A args rs) {res : Response}
    (hres : .fulfilled res ∈ rs.map Round.answer) : res.ok = false := by
  obtain ⟨r, hmem, hanswer⟩ := List.mem_map.mp hres
  obtain ⟨k, hk⟩ := List.mem_iff_getElem?.mp hmem
  obtain ⟨-, -, err, herr, -⟩ := hrs k r hk
  rw [Bool.eq_false_iff]
  intro hok
  rw [Round.result_eq_fulfilled.mpr ⟨hanswer, hok⟩] at herr
  cases herr

/-- A loop that has run ends with the first 2xx, or with the error of its last round. -/
theorem Loop.answers {o : Outcome Response} (hl : Loop c A args o g) :
    ∃ rounds : List Round, Http.answers g = rounds.map Round.answer ∧
      ((∃ before res, o = .fulfilled res ∧ res.ok = true ∧
          rounds.map Round.answer = before ++ [.fulfilled res] ∧
          ∀ res', .fulfilled res' ∈ before → res'.ok = false) ∨
        (o = .rejected (lastError c args rounds) ∧
          ∀ res, .fulfilled res ∈ rounds.map Round.answer → res.ok = false)) := by
  cases hl with
  | @decided rs r hrs =>
      refine ⟨rs ++ [r], ?_, ?_⟩
      · rw [Http.answers, List.filterMap_cons_none rfl, List.filterMap_append,
          answers_repeats hrs, answers_events, List.map_append]
        rfl
      · cases hresult : r.result c args with
        | fulfilled res =>
            obtain ⟨hanswer, hok⟩ := Round.result_eq_fulfilled.mp hresult
            exact .inl ⟨rs.map Round.answer, res, rfl, hok, by simp [hanswer],
              fun _ => hrs.not_ok⟩
        | rejected err =>
            refine .inr ⟨by simp [lastError, Round.error, hresult], fun res hres => ?_⟩
            rw [List.map_append] at hres
            rcases List.mem_append.mp hres with hres | hres
            · exact hrs.not_ok hres
            · rw [Bool.eq_false_iff]
              intro hok
              have hanswer : r.answer = .fulfilled res := (List.mem_singleton.mp hres).symm
              rw [Round.result_eq_fulfilled.mpr ⟨hanswer, hok⟩] at hresult
              cases hresult
  | exhausted hrs =>
      refine ⟨_, ?_, .inr ⟨rfl, fun _ => hrs.not_ok⟩⟩
      rw [Http.answers, List.filterMap_cons_none rfl, answers_repeats hrs]

/-- **Where the outcome of a request comes from.** When the promise of a request has settled,
either the breaker turned it away and nothing was sent; or no answer was a 2xx, the breaker was
told of the last error once, and the caller got it or `CircuitOpenError`; or the last answer was
the first 2xx, the breaker was told of a success once, and the caller got what reading that
body gave. -/
theorem settlement_of_done {h : List (ClientEvent T)} {s : ClientSystem O T}
    (hr : (ClientSystem.machine O T c).Reaches h s) {i : ℕ} {q : Request T}
    (hq : s.requests[i]? = some q) {o : Outcome T} (hdone : q.phase = .done o) :
    Settlement c q.args (requestHistory i h) o := by
  have hany : (ClientSystem.machine O T c).ReachesWhen
      (ClientSystem.VendorAnswers fun _ => True) h s :=
    hr.mono fun _ _ _ _ _ _ _ _ _ => trivial
  have hl := (ClientSystem.lives_of_reaches hany i).2 q hq
  rw [hdone] at hl
  generalize hg : requestHistory i h = g at hl
  clear hg
  cases hl with
  | turnedAway => exact .refused (by simp) rfl rfl
  | @failed err e g hloop he =>
      obtain ⟨rounds, hanswers, ⟨_, _, hres, -⟩ | ⟨herr, hbad⟩⟩ := hloop.answers
      · cases hres
      · obtain rfl : err = lastError c q.args rounds := by simpa using herr
        have hsame : answers (g ++ [.completed (.rejected (lastError c q.args rounds)),
            .fired (.rejected e), .settled (.rejected e)]) = rounds.map Round.answer := by
          rw [answers, List.filterMap_append, ← answers, hanswers]
          exact List.append_nil _
        refine .failed hsame (by rwa [hsame]) ?_ he
        simp [Request.completions_loop hloop]
  | @read res o g hloop =>
      obtain ⟨rounds, hanswers, ⟨before, res', hres, hok, hlast, hbefore⟩ | ⟨herr, -⟩⟩ :=
        hloop.answers
      · obtain rfl : res = res' := by simpa using hres
        refine Settlement.read ?_ hok hbefore ?_ (by simp)
        · rw [answers, List.filterMap_append, ← answers, hanswers, hlast]
          exact List.append_nil _
        · simp [Request.completions_loop hloop]
      · cases herr

theorem settlement_of_done_repeatedLookup :
    ∃ h : List (ClientEvent Nat),
      Settlement (vendorClient 5) lookup (requestHistory 0 h) (.fulfilled 7) := by
  obtain ⟨h, s, hr, hdone, -⟩ :=
    repeatedLookup_runs (A := fun _ => True) (fun _ _ => trivial)
  exact ⟨h, settlement_of_done hr.reaches hdone rfl⟩

end Http

end EmailPlatform
