import EmailPlatform.Http.CircuitBreakerRest
import EmailPlatform.Http.ClientLaws
import Mathlib.Algebra.Order.Floor.Semiring
import Mathlib.Data.Rat.Floor

/-!
# EmailPlatform.Http.ClientRest

**A client left alone.** Without new requests a client's run is a stretch of answers, wake-ups
and continuations. `ClientSystem.work` falls with each of them, as long as no request has an
infinite budget, so the run ends; and where it ends every promise that `request()` returned has
settled (`done_of_rests`). Nothing waits for a step that never comes: `Paired` says that a
request and its call of the breaker are always at the same suspension point, so whoever is due
next can go on.
-/

namespace EmailPlatform

/-- The number of attempts that a bound of the retry loop allows. -/
def JsNumber.budget : JsNumber → ℕ
  | .finite q => ⌊q⌋₊
  | .nan | .negInfinity | .infinity => 0

/-- A counter that the loop condition lets through is within the budget. -/
theorem JsNumber.le_budget {n : ℕ} {b : JsNumber} (hfin : b ≠ .infinity)
    (h : JsNumber.le n b = true) : n ≤ b.budget := by
  cases b with
  | nan => cases h
  | negInfinity => cases h
  | infinity => exact absurd rfl hfin
  | finite q => exact Nat.le_floor (by simpa [JsNumber.le] using h)

namespace Http

variable {O : Opossum} {T : Type} {c : AbstractHttpClient}

/-! ### The work left -/

/-- The steps left to a retry loop: two for each attempt it may still make, and three after
the last. -/
def Run.work (budget : ℕ) : Run Response → ℕ
  | .attempting n => 2 * (budget + 1 - n) + 5
  | .sleeping n _ => 2 * (budget + 1 - n) + 4
  | .settled _ => 3

namespace Request

/-- The attempts the policy of a request allows. -/
def budget (q : Request T) : ℕ := (policy q.args).maxAttempts.budget

/-- The steps left to a request. -/
def work (q : Request T) : ℕ :=
  match q.phase with
  | .running run => run.work q.budget
  | .firing => 2
  | .reading _ => 1
  | .done _ => 0

/-- The request tries no more than finitely often. -/
def Finite (q : Request T) : Prop := (policy q.args).maxAttempts ≠ .infinity

/-- The promise of the request has settled. -/
def isDone (q : Request T) : Bool :=
  match q.phase with
  | .done _ => true
  | .running _ | .firing | .reading _ => false

theorem isDone_iff {q : Request T} : q.isDone = true ↔ ∃ o, q.phase = .done o := by
  unfold isDone
  cases q.phase <;> simp

theorem work_le (q : Request T) : q.work ≤ 2 * q.budget + 7 := by
  unfold work
  split
  · next run _ =>
    cases run <;> simp only [Run.work] <;> omega
  all_goals omega

/-- At its head the loop makes an attempt within the budget, or has settled. -/
theorem work_head (args : RequestArgs) (hfin : (policy args).maxAttempts ≠ .infinity) (i : ℕ)
    (lastErr : Thrown) :
    (Run.head (T := Response) (policy args) (i + 1) lastErr).work (policy args).maxAttempts.budget <
      2 * ((policy args).maxAttempts.budget + 1 - i) + 4 := by
  unfold Run.head
  split
  · next hle =>
    have hbudget := JsNumber.le_budget hfin hle
    simp only [Run.work]
    omega
  · simp only [Run.work]
    omega

/-- A request keeps its arguments. -/
theorem Trans.args {q q' : Request T} {a : RequestAction T} {es : List (RequestEvent T)}
    (ht : Trans c (some q) a q' es) : q'.args = q.args := by
  cases ht <;> rfl

/-- Every step of a request leaves it less to do. -/
theorem Trans.work_lt {q q' : Request T} {a : RequestAction T} {es : List (RequestEvent T)}
    (ht : Trans c (some q) a q' es) (hfin : q.Finite) : q'.work < q.work := by
  cases ht with
  | responded args n duration random o o' lines =>
      show Run.work _ (Run.onAttempt (policy args) n o') < Run.work _ (.attempting n)
      cases hrun : Run.onAttempt (policy args) n o' with
      | attempting m => exact absurd hrun Run.onAttempt_ne_attempting
      | sleeping m err =>
          obtain ⟨rfl, -, -⟩ := Run.onAttempt_eq_sleeping.mp hrun
          exact Nat.lt_succ_self _
      | settled o'' =>
          simp only [Run.work]
          omega
  | woken args n err => exact work_head args hfin n err
  | completed | firedFulfilled | firedRejected | read => simp [work, Run.work]

end Request

namespace ClientSystem

/-- The work of all requests, and of their calls. -/
def work (s : ClientSystem O T) : ℕ := weight Request.work s.requests + s.breaker.work

/-- What happens without a new request and without `dispose()`. -/
def Unprompted (_ : ClientSystem O T) : ClientAction T → Prop
  | .request _ | .dispose => False
  | .respond .. | .wake _ | .complete _ | .emit _ | .settle _ | .json _ _ | .tick => True

instance (s : ClientSystem O T) : ∀ a : ClientAction T, Decidable (Unprompted s a)
  | .request _ | .dispose => isFalse id
  | .respond .. | .wake _ | .complete _ | .emit _ | .settle _ | .json _ _ | .tick => isTrue trivial

theorem undisposed_of_unprompted {h : List (ClientEvent T)} {s : ClientSystem O T}
    {a : ClientAction T} (ha : Unprompted s a) : Undisposed h s a := by
  intro hdispose
  subst hdispose
  exact ha

/-- No request of the client tries forever. -/
def AllFinite (s : ClientSystem O T) : Prop := ∀ q ∈ s.requests, q.Finite

variable {s s' : ClientSystem O T} {a : ClientAction T} {es : List (ClientEvent T)}

/-- One request moves on, by a step of its own. -/
theorem weight_set_lt {i : ℕ} {q q' : Request T} {ra : RequestAction T}
    {res : List (RequestEvent T)} (hfin : s.AllFinite) (hq : s.requests[i]? = some q)
    (ht : Request.Trans c (some q) ra q' res) :
    weight Request.work (s.requests.set i q') < weight Request.work s.requests := by
  have hset := weight_set (w := Request.work) hq q'
  have hlt := ht.work_lt (hfin q (List.mem_of_getElem? hq))
  omega

theorem AllFinite.set {i : ℕ} {q q' : Request T} {ra : RequestAction T}
    {res : List (RequestEvent T)} {b : BreakerSystem O Response} (hfin : s.AllFinite)
    (hq : s.requests[i]? = some q) (ht : Request.Trans c (some q) ra q' res) :
    AllFinite ⟨b, s.requests.set i q'⟩ := by
  intro q₁ hq₁
  rcases List.mem_or_eq_of_mem_set hq₁ with hold | rfl
  · exact hfin q₁ hold
  · have hsame := hfin q (List.mem_of_getElem? hq)
    rwa [Request.Finite, ht.args]

/-- Every step that nobody prompts leaves less work. -/
theorem work_variant : (machine O T c).Variant Unprompted AllFinite work where
  keeps {s a s' es} hfin ha hs := by
    cases trans_of_step hs with
    | request => cases ha
    | own i _ hq ht | settle i hq _ ht => exact hfin.set hq ht
    | complete i hq => exact hfin.set hq (Request.Trans.completed (c := c) _ _)
    | breaker => exact hfin
    | dispose => cases ha
  falls {s a s' es} hfin ha hs := by
    have hbreaker : ∀ {ba : Action Response} {b : BreakerSystem O Response}
        {bs : List (Event Response)}, BreakerSystem.Unprompted s.breaker ba →
        BreakerSystem.step c.deps.cb s.breaker ba = some (b, bs) → b.work < s.breaker.work :=
      fun hba hb => (BreakerSystem.trans_of_step hb).work_lt hba
    cases trans_of_step hs with
    | request => cases ha
    | own i _ hq ht => exact Nat.add_lt_add_right (weight_set_lt hfin hq ht) _
    | complete i hq hb =>
        exact Nat.add_lt_add (weight_set_lt hfin hq (Request.Trans.completed (c := c) _ _))
          (hbreaker ⟨by simp, by simp⟩ hb)
    | settle i hq hb ht =>
        exact Nat.add_lt_add (weight_set_lt hfin hq ht) (hbreaker ⟨by simp, by simp⟩ hb)
    | breaker hba hb =>
        refine Nat.add_lt_add_left (hbreaker ?_ hb) _
        rcases hba with ⟨i, -, rfl⟩ | ⟨-, rfl⟩ <;> exact ⟨by simp, by simp⟩
    | dispose => cases ha

/-- What is left to `request()`, its retry loop and its call, and one tick. -/
theorem work_le (hlen : s.requests.length = s.breaker.calls.length) :
    s.work ≤ weight (fun q => 2 * q.budget + 11) s.requests + 1 := by
  have hbreaker := s.breaker.work_le
  rw [← hlen] at hbreaker
  have hrequests : weight Request.work s.requests + 4 * s.requests.length ≤
      weight (fun q : Request T => 2 * q.budget + 11) s.requests := by
    generalize s.requests = l
    induction l with
    | nil => simp
    | cons q l ih =>
        have hq := q.work_le
        rw [weight_cons, weight_cons, List.length_cons]
        omega
  rw [work]
  omega

/-! ### Requests and calls keep pace -/

/-- A request and its call are suspended at the same point. -/
def Paired : Phase T → Call Response → Prop
  | .running _, .running _ => True
  | .firing, .refused _ | .firing, .returned _ | .firing, .answered _ => True
  | .reading _, .settled _ _ | .done _, .settled _ _ => True
  | _, _ => False

/-- Every request with its call. -/
def AllPaired (s : ClientSystem O T) : Prop :=
  ∀ (i : ℕ) (q : Request T) (call : Call Response), s.requests[i]? = some q →
    s.breaker.calls[i]? = some call → Paired q.phase call

/-- Request `i` and its call move together, and the others stay. -/
theorem AllPaired.set (hs : s.AllPaired) {i : ℕ} {q : Request T} {call : Call Response}
    {a : Adapter O} (hnew : Paired q.phase call) :
    AllPaired ⟨⟨a, s.breaker.calls.set i call⟩, s.requests.set i q⟩ := by
  intro j q' call' hq hcall
  rcases getElem?_set_cases hq with ⟨rfl, rfl⟩ | ⟨hji, hq⟩
  · rcases getElem?_set_cases hcall with ⟨-, rfl⟩ | ⟨hne, -⟩
    · exact hnew
    · exact absurd rfl hne
  · rcases getElem?_set_cases hcall with ⟨rfl, -⟩ | ⟨-, hcall⟩
    · exact absurd rfl hji
    · exact hs j q' call' hq hcall

/-- Request `i` moves on and its call stays, or the other way round. -/
theorem AllPaired.setRequest (hs : s.AllPaired) {i : ℕ} {q q' : Request T}
    (hq : s.requests[i]? = some q)
    (hnew : ∀ call, Paired q.phase call → Paired q'.phase call) :
    AllPaired { s with requests := s.requests.set i q' } := by
  intro j q₁ call hq₁ hcall
  rcases getElem?_set_cases hq₁ with ⟨rfl, rfl⟩ | ⟨-, hq₁⟩
  · exact hnew call (hs j q call hq hcall)
  · exact hs j q₁ call hq₁ hcall

@[inherit_doc AllPaired.setRequest]
theorem AllPaired.setCall (hs : s.AllPaired) {i : ℕ} {call call' : Call Response} {a : Adapter O}
    (hcall : s.breaker.calls[i]? = some call)
    (hnew : ∀ phase : Phase T, Paired phase call → Paired phase call') :
    AllPaired ⟨⟨a, s.breaker.calls.set i call'⟩, s.requests⟩ := by
  intro j q call₁ hq hcall₁
  rcases getElem?_set_cases hcall₁ with ⟨rfl, rfl⟩ | ⟨-, hcall₁⟩
  · exact hnew q.phase (hs j q call hq hcall)
  · exact hs j q call₁ hq hcall₁

/-- A new request and its call. -/
theorem AllPaired.concat (hs : s.AllPaired) (hlen : s.requests.length = s.breaker.calls.length)
    {q : Request T} {call : Call Response} {a : Adapter O} (hnew : Paired q.phase call) :
    AllPaired ⟨⟨a, s.breaker.calls ++ [call]⟩, s.requests ++ [q]⟩ := by
  intro j q' call' hq hcall
  rcases getElem?_concat_cases hq with ⟨rfl, rfl⟩ | hq
  · rw [hlen] at hcall
    obtain rfl : call = call' := by simpa using hcall
    exact hnew
  · have hlt : j < s.breaker.calls.length := hlen ▸ (List.getElem?_eq_some_iff.mp hq).1
    rw [List.getElem?_append_left hlt] at hcall
    exact hs j q' call' hq hcall

theorem AllPaired.step (hs : s.AllPaired) (hlen : s.requests.length = s.breaker.calls.length)
    (ht : Trans c s a s' es) : s'.AllPaired := by
  cases ht with
  -- The record and the call are appended together, both admitted or both refused.
  | request args admitted hb hq =>
      generalize hes : [if admitted = true then Event.invoked (R := Response) s.breaker.calls.length
        else .refused s.breaker.calls.length] = bs at hb
      cases BreakerSystem.trans_of_step hb with
      | admitted =>
          cases admitted with
          | true =>
              cases hq
              exact hs.concat hlen trivial
          | false => simp at hes
      | refused =>
          cases admitted with
          | true => simp at hes
          | false =>
              cases hq
              exact hs.concat hlen trivial
  -- The steps of the request alone leave its call, and the pairing does not tell them apart.
  | own i hra hq ht =>
      refine hs.setRequest hq fun call hcall => ?_
      cases ht with
      | responded | woken | read => cases call <;> exact hcall
      | completed | firedFulfilled | firedRejected =>
          rcases hra with ⟨-, hra⟩ | ⟨_, -, hra⟩ | ⟨_, _, _, -, hra⟩ <;> cases hra
  -- Here, and where it settles, both halves move.
  | complete i hq hb =>
      generalize hes : Event.completed i _ :: _ = bs at hb
      cases BreakerSystem.trans_of_step hb with
      | @succeeded _ tracked | @tripped _ tracked | @counted _ tracked =>
          refine hs.set ?_
          cases tracked <;> trivial
  | settle i hq hb ht =>
      generalize hes : [Event.settled i _] = bs at hb
      cases BreakerSystem.trans_of_step hb with
      | settledRefused | settledAnswered =>
          cases ht <;> exact hs.set trivial
  | breaker hba hb =>
      generalize hes : List.map Event.transition _ = bs at hb
      rcases hba with ⟨i, -, rfl⟩ | ⟨-, rfl⟩
      · cases BreakerSystem.trans_of_step hb with
        | emitted hcall =>
            refine hs.setCall hcall fun phase hphase => ?_
            cases phase <;> exact hphase
      · cases BreakerSystem.trans_of_step hb with
        | ticked => exact hs
  | dispose hb =>
      cases BreakerSystem.trans_of_step hb with
      | disposed => exact hs

theorem allPaired_of_reaches {h : List (ClientEvent T)} (hr : (machine O T c).Reaches h s) :
    s.AllPaired := by
  refine Machine.Reaches.invariant (I := fun _ s => s.AllPaired) ?_ (fun hr hi hs => ?_) hr
  · simp [AllPaired, machine]
  · exact hi.step (requests_length_of_reaches hr) (trans_of_step hs)

/-! ### At rest -/

/-- A request can take the step that the phase of it is due for. -/
theorem step_own {i : ℕ} {q q' : Request T} {ra : RequestAction T} {res : List (RequestEvent T)}
    (hq : s.requests[i]? = some q) (ht : Request.Trans c (some q) ra q' res) :
    s.stepRequest c i ra =
      some ({ s with requests := s.requests.set i q' }, res.map (.request i)) := by
  simp only [stepRequest, hq, ht.step]

/-- A call that can settle settles its request. -/
theorem settle_isSome {i : ℕ} {args : RequestArgs} (hq : s.requests[i]? = some ⟨args, .firing⟩)
    (hcall : (BreakerSystem.step c.deps.cb s.breaker (.settle i)).isSome = true) :
    (step c s (.settle i)).isSome = true := by
  obtain ⟨⟨b, bs⟩, hb⟩ := Option.isSome_iff_exists.mp hcall
  obtain ⟨r, -, hresult⟩ := result_of_settle hb
  cases r with
  | fulfilled res =>
      simp only [step, hb, hresult, step_own hq (.firedFulfilled args res), Option.isSome_some]
  | rejected e =>
      simp only [step, hb, hresult, step_own hq (.firedRejected args e), Option.isSome_some]

/-- At rest every request is done. -/
theorem done_of_rests {h : List (ClientEvent T)} (hr : (machine O T c).Reaches h s)
    (hrest : (machine O T c).Rests Unprompted s) : ∀ q ∈ s.requests, ∃ o, q.phase = .done o := by
  intro q hmem
  obtain ⟨i, hq⟩ := List.mem_iff_getElem?.mp hmem
  have hlt : i < s.breaker.calls.length :=
    requests_length_of_reaches hr ▸ (List.getElem?_eq_some_iff.mp hq).1
  have hcall : s.breaker.calls[i]? = some s.breaker.calls[i] := List.getElem?_eq_getElem hlt
  have hpaired := allPaired_of_reaches hr i q _ hq hcall
  generalize s.breaker.calls[i] = call at hcall hpaired
  have hno : ∀ a, Unprompted s a → ¬ (step c s a).isSome = true := by
    intro a ha hsome
    have hnone : step c s a = none := hrest a ha
    rw [hnone] at hsome
    cases hsome
  -- In every other phase the request or its call has a step, which the pairing finds.
  obtain ⟨args, phase⟩ := q
  cases phase with
  | done o => exact ⟨o, rfl⟩
  | reading res =>
      refine absurd ?_ (hno (.json i (.rejected .undefined)) trivial)
      simp only [step, step_own hq (.read args res _), Option.isSome_some]
  | running run =>
      cases run with
      | attempting n =>
          refine absurd ?_ (hno (.respond i 0 0 (.rejected .undefined)) trivial)
          simp only [step, step_own hq (.responded args n 0 0 _ _ _ rfl), Option.isSome_some]
      | sleeping n err =>
          refine absurd ?_ (hno (.wake i) trivial)
          simp only [step, step_own hq (.woken args n err), Option.isSome_some]
      | settled o =>
          cases call with
          | running tracked =>
              refine absurd ?_ (hno (.complete i) trivial)
              simp only [step, hq, step_own hq (.completed args o), BreakerSystem.step, hcall,
                Option.isSome_some]
          | _ => cases hpaired
  | firing =>
      cases call with
      | returned o =>
          refine absurd ?_ (hno (.emit i) trivial)
          simp only [step, stepBreaker, BreakerSystem.step, hcall, Option.isSome_some]
      | refused e =>
          refine absurd (settle_isSome hq ?_) (hno (.settle i) trivial)
          simp only [BreakerSystem.step, hcall, Option.isSome_some]
      | answered o =>
          refine absurd (settle_isSome hq ?_) (hno (.settle i) trivial)
          simp only [BreakerSystem.step, hcall, Option.isSome_some]
      | running | settled => cases hpaired

/-- Where every request is done, every call has settled. -/
theorem settled_of_done {h : List (ClientEvent T)} (hr : (machine O T c).Reaches h s)
    (hdone : ∀ q ∈ s.requests, ∃ o, q.phase = .done o) :
    ∀ call ∈ s.breaker.calls, call.result.isSome = true := by
  intro call hmem
  obtain ⟨i, hcall⟩ := List.mem_iff_getElem?.mp hmem
  have hlt : i < s.requests.length :=
    (requests_length_of_reaches hr).symm ▸ (List.getElem?_eq_some_iff.mp hcall).1
  have hq : s.requests[i]? = some s.requests[i] := List.getElem?_eq_getElem hlt
  have hpaired := allPaired_of_reaches hr i _ call hq hcall
  obtain ⟨o, ho⟩ := hdone _ (List.mem_of_getElem? hq)
  rw [ho] at hpaired
  cases call with
  | settled inner r => rfl
  | _ => cases hpaired

/-- A client rests when its requests are done and its breaker rests. -/
theorem rests_iff {h : List (ClientEvent T)} (hr : (machine O T c).Reaches h s) :
    (machine O T c).Rests Unprompted s ↔
      (∀ q ∈ s.requests, ∃ o, q.phase = .done o) ∧ s.breaker.view.resetTimer = false := by
  have hwrapper : (∀ q ∈ s.requests, ∃ o, q.phase = .done o) →
      s.requests.any wrapperDue = false := by
    intro hdone
    rw [List.any_eq_false]
    intro q hq
    obtain ⟨o, ho⟩ := hdone q hq
    simp [wrapperDue, ho]
  constructor
  · intro hrest
    have hdone := done_of_rests hr hrest
    refine ⟨hdone, ?_⟩
    -- No call is pending, so that only the timer can keep the breaker from resting.
    have hno : step c s .tick = none := hrest .tick trivial
    have hquiet : s.breaker.calls.any Call.pending = false := by
      rw [List.any_eq_false]
      intro call hcall
      have hsettled := settled_of_done hr hdone call hcall
      cases call <;> simp [Call.result, Call.pending] at hsettled ⊢
    cases htimer : s.breaker.view.resetTimer with
    | false => rfl
    | true =>
        have hview : (O.resetTimeout s.breaker.adapter.breaker).map (Prod.map O.view id) =
            some _ := (O.view_resetTimeout _).trans (if_pos htimer)
        obtain ⟨p, htick, -⟩ := Option.map_eq_some_iff.mp hview
        simp [step, hwrapper hdone, stepBreaker, BreakerSystem.step, hquiet, htick] at hno
  · intro hends a ha
    obtain ⟨hdone, htimer⟩ := hends
    -- Settled requests have nothing left to do, and each action needs one that has.
    have hbreaker : ∀ ba, BreakerSystem.Unprompted s.breaker ba →
        BreakerSystem.step c.deps.cb s.breaker ba = none :=
      BreakerSystem.rests_iff.mpr ⟨settled_of_done hr hdone, htimer⟩
    have hphase : ∀ {i : ℕ} {q : Request T}, s.requests[i]? = some q →
        ∃ args o, q = ⟨args, .done o⟩ := by
      intro i q hq
      obtain ⟨o, ho⟩ := hdone q (List.mem_of_getElem? hq)
      exact ⟨q.args, o, by rw [← ho]⟩
    have hown : ∀ (i : ℕ) (ra : RequestAction T), s.stepRequest c i ra = none := by
      intro i ra
      cases hq : s.requests[i]? with
      | none => simp [stepRequest, hq]
      | some q =>
          obtain ⟨args, o, rfl⟩ := hphase hq
          simp [stepRequest, hq, Request.step]
    show step c s a = none
    cases a with
    | request | dispose => cases ha
    | respond i d u o => exact hown i _
    | wake i => exact hown i _
    | json i o => exact hown i _
    | complete i =>
        cases hq : s.requests[i]? with
        | none => simp [step, hq]
        | some q =>
            obtain ⟨args, o, rfl⟩ := hphase hq
            simp [step, hq]
    | emit i => simp [step, stepBreaker, hbreaker (.emit i) ⟨by simp, by simp⟩]
    | settle i => simp [step, hbreaker (.settle i) ⟨by simp, by simp⟩]
    | tick => simp [step, hwrapper hdone, stepBreaker, hbreaker .tick ⟨by simp, by simp⟩]

/-- A request whose call opossum runs is admitted. -/
theorem request_admitted (args : RequestArgs)
    (hfire : s.breaker.fire.2 = [.invoked s.breaker.calls.length]) :
    ∃ s' es, (machine O T c).step s (.request args) =
      some (s', .request s.requests.length .invoked :: es) := by
  have hevents := fire_events s.breaker
  rw [hfire] at hevents
  cases hflag : (s.breaker.fire.1.calls[s.breaker.calls.length]?.map Call.invoked).getD false with
  | false => simp [hflag] at hevents
  | true =>
      let run := Run.start (T := Response) (Request.policy args)
      refine ⟨⟨s.breaker.fire.1, s.requests ++ [⟨args, .running run⟩]⟩,
        (Request.attempt c args run).map (.request s.requests.length), ?_⟩
      show step c s (.request args) = _
      simp only [step, hflag, Request.step, List.map_cons, run]

end ClientSystem

/-- **A client left alone settles its requests and is ready for the next.** From any state of an
undisposed client none of whose requests has an infinite budget, steps without a new request come
to an end, after at most `2 * budget + 11` for each request and one tick. Where they end every
request has settled, and the next one is let through to its retry loop. -/
theorem client_quiesces (hthr : 1 ≤ c.deps.cb.consecutiveThreshold) {h es : List (ClientEvent T)}
    {s s' : ClientSystem O T} {as : List (ClientAction T)}
    (hr : (ClientSystem.machine O T c).ReachesWhen ClientSystem.Undisposed h s)
    (hfin : s.AllFinite)
    (hp : (ClientSystem.machine O T c).Performs ClientSystem.Unprompted s as es s') :
    as.length ≤ weight (fun q => 2 * q.budget + 11) s.requests + 1 ∧
      ((ClientSystem.machine O T c).Rests ClientSystem.Unprompted s' →
        (∀ q ∈ s'.requests, ∃ o, q.phase = .done o) ∧
          ∀ args, ∃ s'' es', (ClientSystem.machine O T c).step s' (.request args) =
            some (s'', .request s'.requests.length .invoked :: es')) := by
  have hr' := hp.reachesWhen (C := ClientSystem.Undisposed)
    ClientSystem.undisposed_of_unprompted hr
  refine ⟨?_, fun hrest => ⟨ClientSystem.done_of_rests hr'.reaches hrest, fun args => ?_⟩⟩
  · have hlen := ClientSystem.work_variant.length_le hp hfin
    have hwork := ClientSystem.work_le (ClientSystem.requests_length_of_reaches hr.reaches)
    omega
  · have hbreaker := ClientSystem.breaker_undisposed hr'
    obtain ⟨hdone, htimer⟩ := (ClientSystem.rests_iff hr'.reaches).mp hrest
    have hrests : (BreakerSystem.machine O Response c.deps.cb).Rests BreakerSystem.Unprompted
        s'.breaker := BreakerSystem.rests_iff.mpr
      ⟨ClientSystem.settled_of_done hr'.reaches hdone, htimer⟩
    exact ClientSystem.request_admitted args
      (BreakerSystem.invoked_of_not_blocks (inv_of_reaches hthr hbreaker).live
        (BreakerSystem.admits_of_rests hthr hbreaker hrests))

/-- The connection breaks under a message, the request ends, and the timer ticks. -/
def messageFails : List (ClientAction Nat) :=
  [.respond 0 12 0 (.rejected connectionError), .complete 0, .emit 0, .settle 0, .tick]

theorem client_quiesces_messageFails :
    ∃ s' : ClientSystem .v9 Nat, s'.requests.length = 1 ∧
      (∀ q ∈ s'.requests, ∃ o, q.phase = .done o) ∧
        ∀ args, ∃ s'' es', (ClientSystem.machine .v9 Nat (vendorClient 1)).step s'
          (.request args) = some (s'', .request 1 .invoked :: es') := by
  obtain ⟨h, s, es, s', hr, hp, hfin, hlen, hdone, htimer⟩ := Machine.exists_performs
    (M := ClientSystem.machine .v9 Nat (vendorClient 1)) (C := ClientSystem.Undisposed)
    (P := ClientSystem.Unprompted)
    (Q := fun s s' => (∀ q ∈ s.requests, (Request.policy q.args).maxAttempts ≠ .infinity) ∧
      s'.requests.length = 1 ∧ (∀ q ∈ s'.requests, q.isDone = true) ∧
        s'.breaker.view.resetTimer = false)
    [.request message] messageFails (by decide +kernel)
  have hdone' : ∀ q ∈ s'.requests, ∃ o, q.phase = .done o :=
    fun q hq => Request.isDone_iff.mp (hdone q hq)
  have hreach := hp.reaches hr.reaches
  have hend := (client_quiesces (by decide) hr hfin hp).2
    ((ClientSystem.rests_iff hreach).mpr ⟨hdone', htimer⟩)
  rw [hlen] at hend
  exact ⟨s', hlen, hend⟩

end Http

end EmailPlatform
