import EmailPlatform.Core.Progress
import EmailPlatform.Http.CircuitBreakerLaws

/-!
# EmailPlatform.Http.CircuitBreakerRest

**A breaker left alone.** While nobody calls it, its calls in flight settle and its reset timer
ticks. Each such step makes `work` smaller, so a breaker left alone comes to rest after at most
four steps a call and one tick (`work_variant`); and at rest it admits the next call
(`admits_of_rests`), whatever the calls came to and whenever it opened.

The second fact rests on `ProbeInv`: the slot of a half-open period is taken only as long as the
call that took it is in flight. A circuit never waits for a probe that has come and gone.
-/

namespace EmailPlatform.Http

variable {O : Opossum} {R : Type} {opts : CbOptions}

/-! ### The work left -/

/-- The steps a call may still take part in, with the tick that its failure may cause. -/
def Call.work : Call R → ℕ
  | .running _ => 4
  | .returned _ => 2
  | .refused _ | .answered _ => 1
  | .settled _ _ => 0

namespace BreakerSystem

/-- The work of all calls, and the tick of an armed timer. -/
def work (s : BreakerSystem O R) : ℕ :=
  weight Call.work s.calls + s.view.resetTimer.toNat

/-- What happens without a new call and without `dispose()`. -/
def Unprompted (_ : BreakerSystem O R) (a : Action R) : Prop := a ≠ .fire ∧ a ≠ .dispose

instance [DecidableEq R] (s : BreakerSystem O R) (a : Action R) : Decidable (Unprompted s a) :=
  inferInstanceAs (Decidable (_ ∧ _))

/-- The wrapper's continuation takes two off the call. -/
theorem work_afterWrap (tracked : Bool) (o : Outcome R) :
    (afterWrap tracked o).work + 2 ≤ (Call.running tracked : Call R).work := by
  cases tracked <;> simp [afterWrap, Call.work]

/-- `'success'` never arms the timer. -/
theorem resetTimer_of_success {v v' : BreakerView} {ts : List Transition}
    (h : v.success = (v', ts)) : v'.resetTimer.toNat ≤ v.resetTimer.toNat := by
  unfold BreakerView.success BreakerView.close at h
  split at h
  · split at h
    · obtain ⟨rfl, -⟩ := Prod.mk.inj h
      rfl
    · obtain ⟨rfl, -⟩ := Prod.mk.inj h
      exact Nat.zero_le _
  · obtain ⟨rfl, -⟩ := Prod.mk.inj h
    rfl

/-- The tick takes the timer's share. -/
theorem resetTimer_of_tick {v v' : BreakerView} {ts : List Transition}
    (h : v.resetTimeout = some (v', ts)) : v'.resetTimer.toNat < v.resetTimer.toNat := by
  unfold BreakerView.resetTimeout at h
  split at h
  · next harmed =>
    obtain ⟨rfl, -⟩ := Prod.mk.inj (Option.some.inj h)
    rw [harmed]
    exact Nat.zero_lt_one
  · cases h

/-- A call moves on, and the timer is armed no more than the call pays for. -/
theorem work_set_lt {s : BreakerSystem O R} {b : O.Breaker} {n : ℕ} {ls : List Transition}
    {i : ℕ} {c c' : Call R} (hc : s.calls[i]? = some c)
    (hlt : c'.work + (O.view b).resetTimer.toNat < c.work + s.view.resetTimer.toNat) :
    work (⟨⟨b, n, ls⟩, s.calls.set i c'⟩ : BreakerSystem O R) < s.work := by
  have hset := weight_set (w := Call.work) hc c'
  show weight Call.work (s.calls.set i c') + (O.view b).resetTimer.toNat <
    weight Call.work s.calls + s.view.resetTimer.toNat
  omega

/-- Every step that nobody prompts leaves less work. -/
theorem Trans.work_lt {s s' : BreakerSystem O R} {a : Action R} {es : List (Event R)}
    (ht : Trans opts s a s' es) (ha : Unprompted s a) : s'.work < s.work := by
  cases ht with
  | admitted | refused => exact absurd rfl ha.1
  | disposed => exact absurd rfl ha.2
  | @succeeded _ tracked r hc =>
      refine work_set_lt hc ?_
      have hle := work_afterWrap tracked (.fulfilled r)
      rw [view]
      omega
  | @counted _ tracked e hc =>
      refine work_set_lt hc ?_
      have hle := work_afterWrap tracked (R := R) (.rejected e)
      rw [view]
      omega
  | @tripped _ tracked e b _ hc =>
      -- the failing call pays for the tick that its failure causes
      refine work_set_lt hc ?_
      have hle := work_afterWrap tracked (R := R) (.rejected e)
      have htimer := Bool.toNat_le (O.view b).resetTimer
      omega
  | emitted hc hsuccess =>
      refine work_set_lt hc ?_
      have htimer := resetTimer_of_success hsuccess
      simp only [Call.work]
      omega
  | settledRefused hc | settledAnswered hc =>
      exact work_set_lt hc (Nat.add_lt_add_right Nat.zero_lt_one _)
  | ticked _ htick => exact Nat.add_lt_add_left (resetTimer_of_tick htick) _

theorem work_variant :
    (machine O R opts).Variant Unprompted (fun _ => True) work where
  keeps _ _ _ := trivial
  falls _ ha hs := (trans_of_step hs).work_lt ha

/-- Four steps a call, and one tick. -/
theorem work_le (s : BreakerSystem O R) : s.work ≤ 4 * s.calls.length + 1 := by
  have hcalls : weight Call.work s.calls ≤ 4 * s.calls.length := by
    refine weight_le ?_
    intro c _
    cases c <;> simp [Call.work]
  have htimer := Bool.toNat_le s.view.resetTimer
  rw [work]
  omega

/-! ### The probe -/

/-- The slot of a half-open period belongs to a call in flight. -/
structure ProbeInv (h : List (Event R)) (s : BreakerSystem O R) : Prop where
  /-- opossum itself awaits every action. -/
  tracked : ∀ (i : ℕ) (t : Bool), s.calls[i]? = some (Call.running t) → t = true
  /-- A taken slot is the probe's, which runs or has just resolved. -/
  probe : s.view.state = .halfOpen → s.view.pendingClose = false →
    ∃ i, (period h).during = [i] ∧ (s.calls[i]? = some (.running true) ∨
      ∃ r, s.calls[i]? = some (.returned (.fulfilled r)))

variable {h es : List (Event R)} {s s' : BreakerSystem O R} {a : Action R}

/-- A step that concerns another call leaves a call in flight as it is. -/
theorem inFlight_set {cs : List (Call R)} {i j : ℕ} {c c' : Call R} (hj : cs[j]? = some c)
    (hc : c.work = 1) (hi : cs[i]? = some (.running true) ∨
      ∃ r, cs[i]? = some (.returned (.fulfilled r))) :
    (cs.set j c')[i]? = some (.running true) ∨
      ∃ r, (cs.set j c')[i]? = some (.returned (.fulfilled r)) := by
  have hne : j ≠ i := by
    intro heq
    subst heq
    rcases hi with hi | ⟨r, hi⟩ <;> rw [hj] at hi <;> cases hi <;> simp [Call.work] at hc
  rwa [List.getElem?_set_ne hne]

/-- A call that moves on to a stage beyond `running` leaves the others awaited. -/
theorem ProbeInv.tracked_set (hi : ProbeInv h s) {i j : ℕ} {t : Bool} {c' : Call R}
    (hc' : ∀ t, c' ≠ .running t) (hr : (s.calls.set j c')[i]? = some (.running t)) : t = true := by
  rcases getElem?_set_cases hr with ⟨-, hnew⟩ | ⟨-, hold⟩
  · exact absurd hnew.symm (hc' t)
  · exact hi.tracked i t hold

theorem afterWrap_ne_running (tracked : Bool) (o : Outcome R) (t : Bool) :
    afterWrap tracked o ≠ .running t := by
  cases tracked <;> simp [afterWrap]

theorem LiveTrans.probeInv (ht : LiveTrans opts s a s' es) (hp : PeriodInv s.view (period h))
    (hi : ProbeInv h s) : ProbeInv (h ++ es) s' := by
  cases ht with
  | @admitted b hb hview =>
      refine ⟨fun i t hc => ?_, fun hs _ => ?_⟩
      · rcases getElem?_concat_cases hc with ⟨-, hnew⟩ | hold
        · cases hnew
          rfl
        · exact hi.tracked i t hold
      · -- admitted in half-open, the call takes the slot, which was free
        simp only [view_mk, hview] at hs
        simp only [BreakerView.Blocks, not_or, not_and, Bool.not_eq_false] at hb
        have hfree := (hp.halfOpen hs).2.2 (hb.2 hs)
        exact ⟨s.calls.length, by simp [Period.next, hfree], .inl List.getElem?_concat_length⟩
  | @refused b hb hview =>
      refine ⟨fun i t hc => ?_, fun hs hslot => ?_⟩
      · rcases getElem?_concat_cases hc with ⟨-, hnew⟩ | hold
        · cases hnew
        · exact hi.tracked i t hold
      · simp only [view_mk, hview] at hs hslot
        obtain ⟨i, hperiod, hflight⟩ := hi.probe hs hslot
        have hkeep : ∀ {c : Call R}, s.calls[i]? = some c →
            (s.calls ++ [.refused Opossum.breakerOpenError])[i]? = some c := by
          intro c hc
          rw [List.getElem?_append_left (List.getElem?_eq_some_iff.mp hc).1, hc]
        exact ⟨i, by simpa [Period.next] using hperiod,
          hflight.imp hkeep (Exists.imp fun _ => hkeep)⟩
  | @succeeded j tracked r hc =>
      obtain rfl := hi.tracked j tracked hc
      have hlt : j < s.calls.length := (List.getElem?_eq_some_iff.mp hc).1
      refine ⟨fun i t => hi.tracked_set (afterWrap_ne_running _ _), fun hs hslot => ?_⟩
      obtain ⟨i, hperiod, hflight⟩ := hi.probe hs hslot
      refine ⟨i, by simpa [Period.next] using hperiod, ?_⟩
      by_cases hij : j = i
      · -- the probe itself has resolved
        subst hij
        exact .inr ⟨r, by rw [List.getElem?_set_self hlt]; rfl⟩
      · rwa [List.getElem?_set_ne hij]
  | @tripped j tracked e b hc _ _ hview | @retripped j tracked e b hc _ hview =>
      refine ⟨fun i t => hi.tracked_set (afterWrap_ne_running _ _), fun hs _ => ?_⟩
      simp_all [view_mk]
  | @counted j tracked e hc hstate =>
      exact ⟨fun i t => hi.tracked_set (afterWrap_ne_running _ _), fun hs _ => absurd hs hstate⟩
  | @closed j o b hc _ hview | @emitted j o b hc hstate hview =>
      refine ⟨fun i t => hi.tracked_set (by simp), fun hs _ => ?_⟩
      simp_all [view_mk]
  | @settledRefused j e hc =>
      refine ⟨fun i t => hi.tracked_set (by simp), fun hs hslot => ?_⟩
      obtain ⟨i, hperiod, hflight⟩ := hi.probe hs hslot
      exact ⟨i, by simpa [Period.next] using hperiod, inFlight_set hc rfl hflight⟩
  | @settledAnswered j o hc =>
      refine ⟨fun i t => hi.tracked_set (by simp), fun hs hslot => ?_⟩
      obtain ⟨i, hperiod, hflight⟩ := hi.probe hs hslot
      exact ⟨i, by simpa [Period.next] using hperiod, inFlight_set hc rfl hflight⟩
  | @ticked b _ _ hview =>
      refine ⟨hi.tracked, fun _ hslot => ?_⟩
      simp [view_mk, hview] at hslot

theorem probeInv_of_reaches (hthr : 1 ≤ opts.consecutiveThreshold)
    (hr : (machine O R opts).ReachesWhen Undisposed h s) : ProbeInv h s := by
  refine Machine.ReachesWhen.invariant_of ?_ (fun hr hi ha hs => ?_) hr
  · refine ⟨by simp [machine], fun hs => ?_⟩
    simp [machine, view, Adapter.new, Adapter.wireEvents, BreakerView.on, BreakerView.create] at hs
  · have hinv := inv_of_reaches hthr hr
    exact ((trans_of_step hs).live hinv.live ha).probeInv hinv.period hi

/-! ### At rest -/

/-- At rest every call has settled. -/
theorem settled_of_rests (hrest : (machine O R opts).Rests Unprompted s) :
    ∀ c ∈ s.calls, c.result.isSome = true := by
  intro c hc
  obtain ⟨i, hi⟩ := List.mem_iff_getElem?.mp hc
  cases c with
  | settled inner r => rfl
  | running t =>
      have hno := hrest (.complete i (.rejected .undefined)) ⟨by simp, by simp⟩
      simp [machine, step, hi] at hno
  | returned o =>
      have hno := hrest (.emit i) ⟨by simp, by simp⟩
      simp [machine, step, hi] at hno
  | refused e | answered o =>
      have hno := hrest (.settle i) ⟨by simp, by simp⟩
      simp [machine, step, hi] at hno

/-- At rest the reset timer is not armed. -/
theorem resetTimer_of_rests (hrest : (machine O R opts).Rests Unprompted s) :
    s.view.resetTimer = false := by
  have hquiet : s.calls.any Call.pending = false := by
    rw [List.any_eq_false]
    intro c hc
    have hsettled := settled_of_rests hrest c hc
    cases c <;> simp [Call.result, Call.pending] at hsettled ⊢
  have hno := hrest .tick ⟨by simp, by simp⟩
  have hnone : O.resetTimeout s.adapter.breaker = none := by
    cases htick : O.resetTimeout s.adapter.breaker with
    | none => rfl
    | some p => simp [machine, step, hquiet, htick] at hno
  have hview : s.view.resetTimeout = none := by
    rw [view, ← O.view_resetTimeout, hnone]
    rfl
  unfold BreakerView.resetTimeout at hview
  split at hview
  · cases hview
  · next hoff => simpa using hoff

/-- A breaker rests when its calls have settled and its timer is off. -/
theorem rests_iff : (machine O R opts).Rests Unprompted s ↔
    (∀ c ∈ s.calls, c.result.isSome = true) ∧ s.view.resetTimer = false := by
  refine ⟨fun hrest => ⟨settled_of_rests hrest, resetTimer_of_rests hrest⟩, ?_⟩
  intro ⟨hsettled, htimer⟩ a ha
  have hcalls : ∀ i : ℕ, s.calls[i]? = none ∨ ∃ inner r, s.calls[i]? = some (.settled inner r) := by
    intro i
    cases hc : s.calls[i]? with
    | none => exact .inl rfl
    | some c =>
        have hresult := hsettled c (List.mem_of_getElem? hc)
        cases c with
        | settled inner r => exact .inr ⟨inner, r, rfl⟩
        | _ => cases hresult
  cases a with
  | fire => exact absurd rfl ha.1
  | dispose => exact absurd rfl ha.2
  | complete i o | emit i | settle i =>
      rcases hcalls i with hc | ⟨inner, r, hc⟩ <;> simp [machine, step, hc]
  | tick =>
      have hnone : O.resetTimeout s.adapter.breaker = none := by
        rw [← Option.map_eq_none_iff, O.view_resetTimeout]
        exact if_neg (by simpa [view] using htimer)
      simp [machine, step, hnone]

/-- At rest the circuit lets a call through. -/
theorem admits_of_rests (hthr : 1 ≤ opts.consecutiveThreshold)
    (hr : (machine O R opts).ReachesWhen Undisposed h s)
    (hrest : (machine O R opts).Rests Unprompted s) : ¬ s.view.Blocks := by
  have hlive := (inv_of_reaches hthr hr).live
  intro hblocks
  rcases hblocks with hopen | ⟨hhalf, hslot⟩
  · have harmed := hlive.timer.mpr hopen
    rw [resetTimer_of_rests hrest] at harmed
    cases harmed
  · -- the probe would still be in flight
    obtain ⟨i, -, hflight⟩ := (probeInv_of_reaches hthr hr).probe hhalf hslot
    rcases hflight with hc | ⟨r, hc⟩
    · have hsettled := settled_of_rests hrest _ (List.mem_of_getElem? hc)
      cases hsettled
    · have hsettled := settled_of_rests hrest _ (List.mem_of_getElem? hc)
      cases hsettled

/-- Where the circuit does not block, a call is admitted. -/
theorem invoked_of_not_blocks (hv : s.view.Live) (hb : ¬ s.view.Blocks) :
    s.fire.2 = [.invoked s.calls.length] := by
  have ht : LiveTrans ⟨1, 0, ""⟩ s .fire s.fire.1 s.fire.2 :=
    (trans_of_fire s).live hv (by simp)
  generalize s.fire = p at ht
  obtain ⟨s', es'⟩ := p
  cases ht with
  | admitted => rfl
  | refused hblocks => exact absurd hblocks hb

end BreakerSystem

/-- **A breaker left alone settles its calls and recovers.** From any state of an undisposed
breaker, steps without a new call come to an end after at most four a call and one tick. Where
they end every call has settled, and the next call is admitted. -/
theorem quiesces (hthr : 1 ≤ opts.consecutiveThreshold) {h es : List (Event R)}
    {s s' : BreakerSystem O R} {as : List (Action R)}
    (hr : (BreakerSystem.machine O R opts).ReachesWhen Undisposed h s)
    (hp : (BreakerSystem.machine O R opts).Performs BreakerSystem.Unprompted s as es s') :
    as.length ≤ 4 * s.calls.length + 1 ∧
      ((BreakerSystem.machine O R opts).Rests BreakerSystem.Unprompted s' →
        (∀ c ∈ s'.calls, c.result.isSome = true) ∧
          ∃ s'', (BreakerSystem.machine O R opts).step s' .fire =
            some (s'', [.invoked s'.calls.length])) := by
  have hr' := hp.reachesWhen (C := Undisposed) (fun ha => ha.2) hr
  refine ⟨?_, fun hrest => ⟨BreakerSystem.settled_of_rests hrest, ?_⟩⟩
  · have hlen := BreakerSystem.work_variant.length_le hp trivial
    have hwork := BreakerSystem.work_le s
    omega
  · have hevents := BreakerSystem.invoked_of_not_blocks (inv_of_reaches hthr hr').live
      (BreakerSystem.admits_of_rests hthr hr' hrest)
    exact ⟨s'.fire.1, congrArg some (Prod.ext rfl hevents)⟩

/-- A call that trips the breaker, from its failure on, and the tick that follows. -/
def afterTrip : List (Action Nat) :=
  [.complete 0 (.rejected (.newError "down")), .emit 0, .settle 0, .tick]

theorem quiesces_trip :
    ∃ s' : BreakerSystem .v9 Nat, s'.calls.length = 1 ∧ (∀ c ∈ s'.calls, c.result.isSome = true) ∧
      ∃ s'', (BreakerSystem.machine .v9 Nat oneStrike).step s' .fire =
        some (s'', [.invoked 1]) := by
  obtain ⟨h, s, es, s', hr, hp, hlen, hrest⟩ := Machine.exists_performs
    (M := BreakerSystem.machine .v9 Nat oneStrike) (C := Undisposed) (P := BreakerSystem.Unprompted)
    (Q := fun _ s' => s'.calls.length = 1 ∧
      (∀ c ∈ s'.calls, c.result.isSome = true) ∧ s'.view.resetTimer = false)
    [.fire] afterTrip (by decide +kernel)
  have hend := (quiesces (by decide) hr hp).2 (BreakerSystem.rests_iff.mpr hrest)
  rw [hlen] at hend
  exact ⟨s', hlen, hend⟩

end EmailPlatform.Http
