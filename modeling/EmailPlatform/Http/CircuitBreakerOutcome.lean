import EmailPlatform.Http.CircuitBreakerCalls
import EmailPlatform.Http.CircuitBreakerLaws

/-!
# EmailPlatform.Http.CircuitBreakerOutcome

What a caller learns from the way `fire()` settles. `CircuitOpenError` is
documented as "rejected without invoking the inner function"; the catch of `fire`
decides by the state of the breaker *when the rejection arrives* and not by
whether this call was admitted. `circuitOpen_iff_notSent` gives the exact extent of
the difference: the law holds of a run if and only if no failure of an admitted
call arrives at `fire` while the circuit is open. The call that trips the breaker
is already outside (`circuitOpen_though_sent`).
-/

namespace EmailPlatform.Http

variable {O : Opossum} {R : Type} {opts : CbOptions}

/-- An error of the inner function that cannot be mistaken for opossum's own. -/
def Thrown.Benign (e : Thrown) : Prop :=
  e.isCircuitOpenError = false ∧ includes e.message CB_BREAKER_OPEN_MESSAGE_SUBSTRING = false

/-- The inner function rejects with benign errors only, and nobody disposes the
adapter. -/
def BenignRun (_ : List (Event R)) (_ : BreakerSystem O R) (a : Action R) : Prop :=
  a ≠ .dispose ∧ ∀ i e, a = .complete i (.rejected e) → e.Benign

/-- A failure of an admitted call arrives at `fire` with the circuit not open. -/
def SettlesNotOpen (_ : List (Event R)) (s : BreakerSystem O R) (a : Action R) : Prop :=
  ∀ i e, a = .settle i → s.calls[i]? = some (.answered (.rejected e)) → s.cb ≠ .opened

/-- The law on one history: `CircuitOpenError` exactly for the calls whose inner
function was never invoked, and otherwise the outcome of the inner function. -/
def CallOutcome (h : List (Event R)) : Prop :=
  ∀ i r, Event.settled i r ∈ h →
    ((∃ e, r = .rejected e ∧ e.isCircuitOpenError = true) ↔ Event.invoked i ∉ h) ∧
      ∀ o, Event.completed i o ∈ h → r = o

/-- The same law on the record of one settled call. -/
def LawfulRecord (inner : Option (Outcome R)) (r : Outcome R) : Prop :=
  ((∃ e, r = .rejected e ∧ e.isCircuitOpenError = true) ↔ inner = none) ∧
    ∀ o, inner = some o → r = o

/-- The law can be read off the records. -/
theorem callOutcome_iff {h : List (Event R)} {s : BreakerSystem O R}
    (hr : (BreakerSystem.machine O R opts).Reaches h s) :
    CallOutcome h ↔
      ∀ (i : Nat) (inner : Option (Outcome R)) (r : Outcome R),
        s.calls[i]? = some (Call.settled inner r) → LawfulRecord inner r := by
  have hrecord : ∀ (i : Nat) (inner : Option (Outcome R)) (r : Outcome R),
      s.calls[i]? = some (Call.settled inner r) →
      (Event.invoked i ∉ h ↔ inner = none) ∧ ∀ o, Event.completed i o ∈ h ↔ inner = some o := by
    intro i inner r hc
    refine ⟨?_, ?_⟩
    · rw [invoked_mem_iff_call hr, hc]
      cases inner <;> simp [Call.invoked]
    · intro o
      rw [completed_mem_iff_call hr, hc]
      simp [Call.outcome]
  constructor
  · intro hlaw i inner r hc
    have := hlaw i r ((settled_mem_iff_call hr).mpr ⟨inner, hc⟩)
    rw [(hrecord i inner r hc).1] at this
    exact ⟨this.1, fun o ho => this.2 o (((hrecord i inner r hc).2 o).mpr ho)⟩
  · intro hlaw i r hsettled
    obtain ⟨inner, hc⟩ := (settled_mem_iff_call hr).mp hsettled
    rw [(hrecord i inner r hc).1]
    exact ⟨(hlaw i inner r hc).1,
      fun o ho => (hlaw i inner r hc).2 o (((hrecord i inner r hc).2 o).mp ho)⟩

namespace BreakerSystem

/-! ### The catch of `fire` -/

variable {s : BreakerSystem O R} {e : Thrown}

/-- With the circuit open every rejection becomes a `CircuitOpenError`. -/
theorem fireCatch_of_opened (hcb : s.cb = .opened) :
    s.adapter.fireCatch (R := R) opts (.rejected e) =
      .rejected (.newCircuitOpenError opts.api) := by
  rw [Adapter.fireCatch, opened_iff_cb.mpr hcb, Bool.true_or, if_pos rfl]

/-- An error with opossum's message is taken for opossum's own. -/
theorem fireCatch_of_message (he : e.isError = true)
    (hmsg : includes e.message CB_BREAKER_OPEN_MESSAGE_SUBSTRING = true) :
    s.adapter.fireCatch (R := R) opts (.rejected e) =
      .rejected (.newCircuitOpenError opts.api) := by
  rw [Adapter.fireCatch, he, hmsg, Bool.true_and, Bool.or_true, if_pos rfl]

/-- Any other rejection is passed on. -/
theorem fireCatch_of_passes (hcb : s.cb ≠ .opened)
    (hmsg : includes e.message CB_BREAKER_OPEN_MESSAGE_SUBSTRING = false) :
    s.adapter.fireCatch (R := R) opts (.rejected e) = .rejected e := by
  rw [Adapter.fireCatch, hmsg, Bool.and_false, Bool.or_false, if_neg (mt opened_iff_cb.mp hcb)]

end BreakerSystem

theorem isCircuitOpenError_new (api : String) :
    (Thrown.newCircuitOpenError api).isCircuitOpenError = true := rfl

/-- A record of a refused call is lawful, whatever the state: opossum's own rejection is
recognised by its message. -/
theorem lawfulRecord_refused (s : BreakerSystem O R) :
    LawfulRecord none
      (s.adapter.fireCatch (R := R) opts (.rejected Opossum.breakerOpenError)) := by
  rw [BreakerSystem.fireCatch_of_message rfl (by decide)]
  exact ⟨by simp [isCircuitOpenError_new], by simp⟩

/-- A record of an admitted call is lawful exactly when the call succeeded or the
circuit was not open as it settled. -/
theorem lawfulRecord_answered {s : BreakerSystem O R} {o : Outcome R}
    (ho : ∀ e, o = .rejected e → e.Benign) :
    LawfulRecord (some o) (s.adapter.fireCatch opts o) ↔
      ∀ e, o = .rejected e → s.cb ≠ .opened := by
  cases o with
  | fulfilled r => simp [LawfulRecord, Adapter.fireCatch]
  | rejected e =>
      have he := ho e rfl
      by_cases hcb : s.cb = .opened
      · rw [BreakerSystem.fireCatch_of_opened hcb]
        simp [LawfulRecord, isCircuitOpenError_new, hcb]
      · rw [BreakerSystem.fireCatch_of_passes hcb he.2]
        simp [LawfulRecord, he.1, hcb]

/-- What benign runs keep of the records. -/
structure BenignInv (s : BreakerSystem O R) : Prop where
  live : s.view.Live
  refused : ∀ (i : Nat) (e : Thrown), s.calls[i]? = some (Call.refused e) →
    e = Opossum.breakerOpenError
  outcome : ∀ (i : Nat) (c : Call R) (e : Thrown), s.calls[i]? = some c →
    c.outcome = some (.rejected e) → e.Benign

theorem BenignInv.step {h es : List (Event R)} {s s' : BreakerSystem O R} {a : Action R}
    (hi : BenignInv s) (ha : BenignRun h s a)
    (hs : (BreakerSystem.machine O R opts).step s a = some (s', es)) : BenignInv s' := by
  have ht := BreakerSystem.trans_of_step hs
  refine ⟨(ht.live hi.live ha.1).live hi.live, ?_, ?_⟩
  · intro i e hc
    rcases ht.moved hc with hc | hm
    · exact hi.refused i e hc
    · generalize hcall : Call.refused e = c at hm
      cases hm with
      | refused _ _ hf =>
          rcases hf with ⟨-, he⟩ | ⟨hdown, -⟩
          · cases hcall
            exact he
          · exact absurd hdown hi.live.fire_ne_rejectShutdown
      | @wrapped tracked => cases tracked <;> cases hcall
      | _ => cases hcall
  · intro i c e hc he
    rcases ht.moved hc with hc | hm
    · exact hi.outcome i c e hc he
    · cases hm with
      | @wrapped tracked o haction =>
          have ho : o = .rejected e := by
            cases tracked <;> simpa [BreakerSystem.afterWrap, Call.outcome] using he
          exact ha.2 i e (ho ▸ haction)
      | answered _ hprev => exact hi.outcome i _ e hprev he
      | settledAnswered _ hprev => exact hi.outcome i _ e hprev he
      | _ => simp [Call.outcome] at he

theorem benignInv_of_reaches {h : List (Event R)} {s : BreakerSystem O R}
    (hr : (BreakerSystem.machine O R opts).ReachesWhen BenignRun h s) : BenignInv s := by
  refine Machine.ReachesWhen.invariant_of (I := fun _ s => BenignInv s) ?_
    (fun _ hi ha hs => hi.step ha hs) hr
  exact ⟨live_init, by simp [BreakerSystem.machine], by simp [BreakerSystem.machine]⟩

/-- **`CircuitOpenError` means "not sent"** — in a benign run, exactly when no
failure of an admitted call arrives at `fire` while the circuit is open. -/
theorem circuitOpen_iff_notSent {h : List (Event R)} {s : BreakerSystem O R}
    (hr : (BreakerSystem.machine O R opts).ReachesWhen BenignRun h s) :
    CallOutcome h ↔
      (BreakerSystem.machine O R opts).ReachesWhen
        (fun h s a => BenignRun h s a ∧ SettlesNotOpen h s a) h s := by
  rw [callOutcome_iff hr.reaches]
  constructor
  · intro hlaw
    induction hr with
    | init => exact .init
    | @step h s s' a es hr ha hs ih =>
        have hi := benignInv_of_reaches hr
        have ht := BreakerSystem.trans_of_step hs
        -- settled records stay, so the law held before the step, too
        refine .step (ih fun i inner r hc => hlaw i inner r (ht.settled hc)) ⟨ha, ?_⟩ hs
        intro i e heq hc
        subst heq
        cases ht with
        | settledRefused hc' =>
            rw [hc] at hc'
            cases hc'
        | settledAnswered hc' =>
            -- the record this step makes is lawful, so the circuit was not open
            have hlt : i < s.calls.length := (List.getElem?_eq_some_iff.mp hc').1
            obtain rfl := Call.answered.inj (Option.some.inj (hc'.symm.trans hc))
            have hnew := hlaw i _ _ (List.getElem?_set_self hlt)
            refine (lawfulRecord_answered fun e' he' => ?_).mp hnew e rfl
            exact hi.outcome i _ e' hc (by simp [Call.outcome, he'])
  · intro hr'
    refine Machine.ReachesWhen.invariant_of (I := fun _ s =>
      ∀ (i : Nat) (inner : Option (Outcome R)) (r : Outcome R),
        s.calls[i]? = some (Call.settled inner r) → LawfulRecord inner r) ?_ ?_ hr'
    · simp [BreakerSystem.machine]
    · intro h s a s' es hr hlaw hrun hs i inner r hc
      have hopen := hrun.2
      have hi := benignInv_of_reaches (hr.mono fun _ _ _ h => h.1)
      rcases (BreakerSystem.trans_of_step hs).moved hc with hc | hm
      · exact hlaw i inner r hc
      · generalize hcall : Call.settled inner r = c at hm
        cases hm with
        | @wrapped tracked => cases tracked <;> cases hcall
        | settledRefused _ hprev =>
            cases hcall
            rw [hi.refused i _ hprev]
            exact lawfulRecord_refused _
        | @settledAnswered o haction hprev =>
            cases hcall
            refine (lawfulRecord_answered fun e he => ?_).mpr fun e he => ?_
            · exact hi.outcome i _ e hprev (by simp [Call.outcome, he])
            · exact hopen i e haction (he ▸ hprev)
        | _ => cases hcall

instance [DecidableEq R] (h : List (Event R)) (s : BreakerSystem O R) (a : Action R) :
    Decidable (BenignRun h s a) :=
  match a with
  | .complete i (.rejected e) =>
      decidable_of_iff (e.isCircuitOpenError = false ∧
          includes e.message CB_BREAKER_OPEN_MESSAGE_SUBSTRING = false)
        ⟨fun he => ⟨by simp, by rintro _ _ ⟨⟩; exact he⟩, fun ha => ha.2 i e rfl⟩
  | .dispose => isFalse fun ha => ha.1 rfl
  | .complete _ (.fulfilled _) => isTrue ⟨by simp, by simp⟩
  | .fire | .emit _ | .settle _ | .tick => isTrue ⟨by simp, by simp⟩

instance [DecidableEq R] (h : List (Event R)) (s : BreakerSystem O R) (a : Action R) :
    Decidable (SettlesNotOpen h s a) :=
  match a with
  | .settle i =>
      match hc : s.calls[i]? with
      | some (.answered (.rejected _)) =>
          decidable_of_iff (s.cb ≠ .opened)
            ⟨fun ho j e ha _ => ho, fun ho => ho i _ rfl hc⟩
      | some (.answered (.fulfilled _)) | some (.refused _) | some (.running _)
      | some (.returned _) | some (.settled _ _) | none =>
          isTrue fun j e ha hc' => by cases ha; rw [hc] at hc'; cases hc'
  | .dispose | .complete _ _ | .fire | .emit _ | .tick => isTrue fun _ _ ha => by cases ha

/-- A breaker that opens at the second failure in a row. -/
def twoStrikes : CbOptions := { oneStrike with consecutiveThreshold := 2 }

/-- The error the inner function fails with in the runs below. -/
def vendorError : Thrown := .newError "down"

/-- One failure below the threshold, one success. -/
def failThenSucceed : List (Action Nat) :=
  [.fire, .complete 0 (.rejected vendorError), .emit 0, .settle 0,
    .fire, .complete 1 (.fulfilled 7), .emit 1, .settle 1]

theorem failThenSucceed_runs :
    ((BreakerSystem.machine .v9 Nat twoStrikes).execWhen
      (fun h s a => BenignRun h s a ∧ SettlesNotOpen h s a) failThenSucceed).isSome := by
  decide +kernel

theorem circuitOpen_iff_notSent_failThenSucceed :
    ∃ h, CallOutcome (R := Nat) h ∧ .settled 0 (.rejected vendorError) ∈ h := by
  have hr := Machine.reachesWhen_get failThenSucceed_runs
  exact ⟨_, (circuitOpen_iff_notSent (hr.mono fun _ _ _ h => h.1)).mpr hr, by decide +kernel⟩

/-- The single failure that trips a breaker of threshold one. -/
def trip : List (Action Nat) :=
  [.fire, .complete 0 (.rejected vendorError), .emit 0, .settle 0]

theorem trip_runs :
    ((BreakerSystem.machine .v9 Nat oneStrike).execWhen BenignRun trip).isSome := by
  decide +kernel

/-- The call that trips the breaker was sent, and settles with `CircuitOpenError`:
the law fails on that run. -/
theorem circuitOpen_though_sent :
    ¬ ∀ (h : List (Event Nat)) (s : BreakerSystem .v9 Nat),
      (BreakerSystem.machine .v9 Nat oneStrike).ReachesWhen BenignRun h s → CallOutcome h := by
  intro hclaim
  have hlaw := hclaim _ _ (Machine.reachesWhen_get trip_runs) 0
    (.rejected (.newCircuitOpenError "vendor")) (by decide +kernel)
  exact hlaw.1.mp ⟨_, rfl, rfl⟩ (by decide +kernel)

end EmailPlatform.Http
