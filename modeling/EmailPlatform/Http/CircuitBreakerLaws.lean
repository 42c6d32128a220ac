import EmailPlatform.Http.CircuitBreakerHistory

/-!
# EmailPlatform.Http.CircuitBreakerLaws

Laws of the adapter over all interleavings of its calls and the timer.

* `transitions_legal`: the reported transitions are a path of the breaker
  automaton that ends in the current state, and a failing call never reports
  `close`.
* `consecutiveFailureLaw_of_reaches`, `admissionLaw_of_reaches`: what the counter
  counts, when the circuit opens, and whom it admits.
* `probe_decides_iff`: the half-open verdict belongs to the probe at exactly the
  steps that do not handle another call in half-open. Both the wrapper and opossum
  look at the state of the circuit only, so a straggler that completes then is taken
  for the probe (`straggler_decides`).
-/

namespace EmailPlatform.Http

variable {O : Opossum} {R : Type} {opts : CbOptions}

/-- A step that handles the failure of some call. -/
def HandlesFailure (s : BreakerSystem O R) (a : Action R) : Prop :=
  (∃ i e, a = .complete i (.rejected e)) ∨
    ∃ i e c, (a = .emit i ∨ a = .settle i) ∧ s.calls[i]? = some c ∧
      Call.outcome c = some (.rejected e)

/-- A failing call never closes the circuit, although its failure is filtered and
opossum emits `'success'` for it. -/
theorem BreakerSystem.LiveTrans.close_notMem {h : List (Event R)} {s s' : BreakerSystem O R}
    {a : Action R} {es : List (Event R)} (ht : LiveTrans opts s a s' es) (hi : Inv opts h s)
    (hf : HandlesFailure s a) : Event.transition .close ∉ es := by
  cases ht with
  | closed hc hs =>
      -- the call whose event closes the circuit holds a result
      obtain ⟨-, r, rfl⟩ := hi.returned hs _ _ hc
      rcases hf with ⟨_, _, ha⟩ | ⟨_, _, _, ha, hc', ho⟩
      · cases ha
      · rcases ha with ha | ha
        · cases ha
          rw [hc] at hc'
          cases hc'
          simp [Call.outcome] at ho
        · cases ha
  | _ => simp

/-- **The reported transitions form a legal breaker history.** -/
theorem transitions_legal (hthr : 1 ≤ opts.consecutiveThreshold) {h : List (Event R)}
    {s : BreakerSystem O R} (hr : (BreakerSystem.machine O R opts).ReachesWhen Undisposed h s) :
    Cb.closed.path (transitions h) = some s.cb ∧
      ∀ a s' es, (BreakerSystem.machine O R opts).step s a = some (s', es) →
        HandlesFailure s a → Event.transition .close ∉ es := by
  have hi := inv_of_reaches hthr hr
  refine ⟨hi.path, ?_⟩
  intro a s' es hs hf
  have ha : a ≠ .dispose := by
    intro heq
    subst heq
    rcases hf with ⟨_, _, ha⟩ | ⟨_, _, _, ha | ha, _⟩ <;> cases ha
  exact ((BreakerSystem.trans_of_step hs).live hi.live ha).close_notMem hi hf

/-- A breaker that opens at the first failure. -/
def oneStrike : CbOptions where
  consecutiveThreshold := 1
  halfOpenAfterMs := 30000
  api := "vendor"

/-- Open, half-open, a failed probe, half-open again, and closed by a probe. -/
def tripAndRecover : List (Action Nat) :=
  [.fire, .complete 0 (.rejected .undefined), .emit 0, .settle 0, .tick,
    .fire, .complete 1 (.rejected .undefined), .emit 1, .settle 1, .tick,
    .fire, .complete 2 (.fulfilled 7), .emit 2]

theorem tripAndRecover_runs :
    ((BreakerSystem.machine .v9 Nat oneStrike).execWhen Undisposed tripAndRecover).isSome := by
  decide

theorem transitions_legal_tripAndRecover :
    Cb.closed.path [.open, .halfOpen, .open, .halfOpen, .close] = some .closed :=
  (transitions_legal (show 1 ≤ oneStrike.consecutiveThreshold by decide)
    (Machine.reachesWhen_get tripAndRecover_runs)).1

/-! ### Consecutive failures -/

/-- The counter of a closed breaker, and when it opens. -/
structure ConsecutiveFailureLaw (opts : CbOptions) (h : List (Event R))
    (s : BreakerSystem O R) : Prop where
  counter : s.cb = .closed → s.adapter.state.consecutiveFailures = failuresSince h ∧
    s.adapter.state.consecutiveFailures < opts.consecutiveThreshold
  /-- A step out of closed opens the circuit, and is a failing completion that brings
  the number of failures to the threshold. -/
  trips : ∀ a s' es, (BreakerSystem.machine O R opts).step s a = some (s', es) → a ≠ .dispose →
    s.cb = .closed →
      (s'.cb ≠ .closed ↔ s'.cb = .opened) ∧
      (s'.cb = .opened ↔ (∃ i e, a = .complete i (.rejected e)) ∧
        failuresSince h + 1 = opts.consecutiveThreshold)

theorem consecutiveFailureLaw_of_reaches (hthr : 1 ≤ opts.consecutiveThreshold)
    {h : List (Event R)} {s : BreakerSystem O R}
    (hr : (BreakerSystem.machine O R opts).ReachesWhen Undisposed h s) :
    ConsecutiveFailureLaw opts h s := by
  have hi := inv_of_reaches hthr hr
  have hcounter : s.cb = .closed → s.adapter.consecutiveFailures = failuresSince h ∧
      s.adapter.consecutiveFailures < opts.consecutiveThreshold :=
    fun hcb => hi.counter ((cb_eq_closed_iff hi.live).mp hcb)
  refine ⟨hcounter, ?_⟩
  intro a s' es hs ha hcb
  obtain ⟨heq, hlt⟩ := hcounter hcb
  have ht := (BreakerSystem.trans_of_step hs).live hi.live ha
  have hopened : s'.cb = .opened ↔ (∃ i e, a = .complete i (.rejected e)) ∧
      failuresSince h + 1 = opts.consecutiveThreshold := by
    constructor
    · intro hs'
      cases ht.cbChange with
      | same hsame => rw [hsame, hcb] at hs'; cases hs'
      | @trips i e ha' _ _ hwhy =>
          rw [hcb] at hwhy
          refine ⟨⟨i, e, ha'⟩, ?_⟩
          rcases hwhy with hhalf | hn
          · cases hhalf
          · omega
      | closes _ _ _ hs'' | ticks _ _ hs'' => rw [hs''] at hs'; cases hs'
    · intro hex
      obtain ⟨⟨i, e, rfl⟩, hn⟩ := hex
      -- a failure that reaches the threshold is not just counted
      cases ht with
      | tripped _ _ _ hb => simp [cb_eq_opened_iff, BreakerSystem.view_mk, hb]
      | retripped _ hst hb => simp [cb_eq_opened_iff, BreakerSystem.view_mk, hb, hst]
      | counted => omega
  refine ⟨⟨fun hne => ?_, fun hs' => by simp [hs']⟩, hopened⟩
  cases ht.cbChange with
  | same hsame => exact absurd (hsame.trans hcb) hne
  | trips _ _ hs' _ => exact hs'
  | closes _ _ _ hs' => exact absurd hs' hne
  | ticks _ hopen _ => rw [hcb] at hopen; cases hopen

/-! ### Admission -/

/-- What may have been admitted in the period a history ends in. -/
def AdmissionOk (p : Period) : Prop :=
  (p.last = some .open → p.during = []) ∧ (p.last = some .halfOpen → p.during.length ≤ 1)

theorem PeriodInv.admissionOk {v : BreakerView} {p : Period} (hi : PeriodInv v p)
    (hv : v.Live) : AdmissionOk p := by
  have hup := hv.up
  cases hs : v.state with
  | closed => simp [AdmissionOk, hi.closed hs]
  | opened => simp [AdmissionOk, hi.opened hs]
  | halfOpen => simp [AdmissionOk, hi.halfOpen hs]
  | shutdown => exact absurd hs hup

/-- A step reports its transition last. -/
theorem BreakerSystem.LiveTrans.prefix_cases {s s' : BreakerSystem O R} {a : Action R}
    {es es' : List (Event R)} (ht : LiveTrans opts s a s' es) (hp : es' <+: es) :
    es' = es ∨ es' = [] ∨ ∃ i o, es' = [.completed i o] := by
  cases ht <;> simp only [List.prefix_cons_iff, List.prefix_nil] at hp <;> grind

theorem admissionOk_of_prefix (hthr : 1 ≤ opts.consecutiveThreshold) {h : List (Event R)}
    {s : BreakerSystem O R} (hr : (BreakerSystem.machine O R opts).ReachesWhen Undisposed h s) :
    ∀ p, p <+: h → AdmissionOk (period p) := by
  have hok : ∀ {h s}, (BreakerSystem.machine O R opts).ReachesWhen Undisposed h s →
      AdmissionOk (period h) := fun hr =>
    have hi := inv_of_reaches hthr hr
    hi.period.admissionOk hi.live
  refine hr.forall_prefix (by simp [period, AdmissionOk]) fun hr ha hs es' hp => ?_
  have hlive := (inv_of_reaches hthr hr).live
  rcases ((BreakerSystem.trans_of_step hs).live hlive ha).prefix_cases hp with
    rfl | rfl | ⟨i, o, rfl⟩
  · exact hok (hr.step ha hs)
  · simpa using hok hr
  · simpa [Period.next] using hok hr

/-- The admission law of a history: nothing between an opening and the next half-open,
at most one call in a half-open period. -/
structure AdmissionLaw (h : List (Event R)) : Prop where
  opened : ∀ h₁ h₂ h₃, h = h₁ ++ .transition .open :: (h₂ ++ h₃) →
    .transition .halfOpen ∉ h₂ → ∀ i, .invoked i ∉ h₂
  halfOpen : ∀ h₁ h₂ h₃, h = h₁ ++ .transition .halfOpen :: (h₂ ++ h₃) →
    (∀ t, .transition t ∉ h₂) → (h₂.filterMap Event.invoked?).length ≤ 1

theorem admissionLaw_of_reaches (hthr : 1 ≤ opts.consecutiveThreshold) {h : List (Event R)}
    {s : BreakerSystem O R} (hr : (BreakerSystem.machine O R opts).ReachesWhen Undisposed h s) :
    AdmissionLaw h := by
  have hpath := (inv_of_reaches hthr hr).path
  have hok : ∀ h₁ h₂ h₃ t, h = h₁ ++ .transition t :: (h₂ ++ h₃) →
      AdmissionOk (period (h₁ ++ .transition t :: h₂)) := fun h₁ h₂ h₃ t heq =>
    admissionOk_of_prefix hthr hr _ ⟨h₃, by simp [heq]⟩
  refine ⟨?_, ?_⟩
  · -- only `halfOpen` can follow an opening, so the segment has no transition
    intro h₁ h₂ h₃ heq hhalf i hi
    have hquiet : ∀ t, .transition t ∉ h₂ := by
      intro t ht
      cases hts : transitions h₂ with
      | nil => simp [← mem_transitions, hts] at ht
      | cons u us =>
          have hfirst : transitions h =
              transitions h₁ ++ .open :: u :: (us ++ transitions h₃) := by
            simp [heq, hts]
          rw [hfirst] at hpath
          refine hhalf (mem_transitions.mp ?_)
          rw [hts, Cb.eq_halfOpen_of_path hpath]
          exact List.mem_cons_self
    have hperiod := period_of_quiet h₁ .open hquiet
    have hnone := (hok h₁ h₂ h₃ _ heq).1 hperiod.1
    rw [hperiod.2] at hnone
    have hmem : i ∈ h₂.filterMap Event.invoked? := List.mem_filterMap.mpr ⟨_, hi, rfl⟩
    simp [hnone] at hmem
  · intro h₁ h₂ h₃ heq hquiet
    have hperiod := period_of_quiet h₁ .halfOpen hquiet
    rw [← hperiod.2]
    exact (hok h₁ h₂ h₃ _ heq).2 hperiod.1

/-! ### The half-open verdict -/

/-- What one step may do to the verdict of a half-open period. -/
structure ProbeDecides (h : List (Event R)) (s : BreakerSystem O R) (a : Action R)
    (s' : BreakerSystem O R) : Prop where
  /-- Half-open ends only at a completion of the call admitted in it. -/
  exit : s.cb = .halfOpen → s'.cb ≠ .halfOpen →
    (period h).last = some .halfOpen ∧ ∃ i ∈ (period h).during,
      (∃ e, a = .complete i (.rejected e) ∧ s'.cb = .opened) ∨
      (∃ r, a = .emit i ∧ s.calls[i]? = some (.returned (.fulfilled r)) ∧ s'.cb = .closed)
  /-- A failed probe reopens the circuit. -/
  reopens : s.cb = .halfOpen → ∀ i ∈ (period h).during, ∀ e, a = .complete i (.rejected e) →
    s'.cb = .opened
  /-- A successful probe closes it. -/
  closes : s.cb = .halfOpen → ∀ i ∈ (period h).during, ∀ r, a = .emit i →
    s.calls[i]? = some (.returned (.fulfilled r)) → s'.cb = .closed
  /-- A call admitted earlier that completes while the circuit is open or
  half-open leaves the state as it is. -/
  straggler : s.cb ≠ .closed → ∀ i, i ∉ (period h).during →
    ((∃ o, a = .complete i o) ∨ a = .emit i ∨ a = .settle i) → s'.cb = s.cb

/-- The step does not handle, in half-open, the failure or the `'success'` event of
a call other than the probe. -/
def StragglerQuiet (h : List (Event R)) (s : BreakerSystem O R) (a : Action R) : Prop :=
  s.cb = .halfOpen → ∀ i, ((∃ e, a = .complete i (.rejected e)) ∨ a = .emit i) →
    i ∈ (period h).during

/-- A failure handled in half-open reopens the circuit, whoever's it is. -/
theorem BreakerSystem.LiveTrans.cb_of_failure {s s' : BreakerSystem O R} {i : Nat} {e : Thrown}
    {es : List (Event R)} (ht : LiveTrans opts s (.complete i (.rejected e)) s' es)
    (hhalf : s.cb = .halfOpen) : s'.cb = .opened := by
  cases ht with
  | tripped _ _ _ hb => simp [cb_eq_opened_iff, view_mk, hb]
  | retripped _ hst hb => simp [cb_eq_opened_iff, view_mk, hb, hst]
  | counted _ hst => exact absurd (cb_eq_halfOpen_iff.mp hhalf) hst

/-- A `'success'` event handled in half-open closes it, whoever's it is. -/
theorem BreakerSystem.LiveTrans.cb_of_success {s s' : BreakerSystem O R} {i : Nat}
    {es : List (Event R)} (ht : LiveTrans opts s (.emit i) s' es) (hhalf : s.cb = .halfOpen) :
    s'.cb = .closed := by
  cases ht with
  | closed _ _ hb => simp [cb_eq, view_mk, hb, BreakerState.cb]
  | emitted _ hst => exact absurd (cb_eq_halfOpen_iff.mp hhalf) hst

/-- **The half-open verdict belongs to the probe** at exactly those steps of a run
that do not take a straggler for it. -/
theorem probe_decides_iff (hthr : 1 ≤ opts.consecutiveThreshold) {h : List (Event R)}
    {s s' : BreakerSystem O R} {a : Action R} {es : List (Event R)}
    (hr : (BreakerSystem.machine O R opts).ReachesWhen Undisposed h s) (ha : a ≠ .dispose)
    (hs : (BreakerSystem.machine O R opts).step s a = some (s', es)) :
    ProbeDecides h s a s' ↔ StragglerQuiet h s a := by
  have hi := inv_of_reaches hthr hr
  have ht := (BreakerSystem.trans_of_step hs).live hi.live ha
  constructor
  -- A straggler would move the circuit, against the law.
  · intro hlaw hhalf i hai
    by_contra hp
    have hopen : s.cb ≠ .closed := by simp [hhalf]
    rcases hai with ⟨e, rfl⟩ | rfl
    · have hsame := hlaw.straggler hopen i hp (.inl ⟨_, rfl⟩)
      rw [ht.cb_of_failure hhalf, hhalf] at hsame
      cases hsame
    · have hsame := hlaw.straggler hopen i hp (.inr (.inl rfl))
      rw [ht.cb_of_success hhalf, hhalf] at hsame
      cases hsame
  -- Only the probe completes, so that what moves the circuit is its outcome.
  · intro hq
    refine ⟨fun hhalf hexit => ⟨(hi.period.halfOpen (cb_eq_halfOpen_iff.mp hhalf)).1, ?_⟩,
      fun hhalf i _ e ha => ?_, fun hhalf i _ r ha _ => ?_, fun hne i hp ha => ?_⟩
    · cases ht.cbChange with
      | same heq => exact absurd (heq.trans hhalf) hexit
      | @trips i e ha _ hs' _ => exact ⟨i, hq hhalf i (.inl ⟨e, ha⟩), .inl ⟨e, ha, hs'⟩⟩
      | @closes i o ha hc _ hs' =>
          obtain ⟨-, r, rfl⟩ := hi.returned (cb_eq_halfOpen_iff.mp hhalf) i o hc
          exact ⟨i, hq hhalf i (.inr ha), .inr ⟨r, ha, hc, hs'⟩⟩
      | ticks _ hopen _ => rw [hhalf] at hopen; cases hopen
    · subst ha
      exact ht.cb_of_failure hhalf
    · subst ha
      exact ht.cb_of_success hhalf
    · cases ht.cbChange with
      | same heq => exact heq
      | @trips j e ha' hnotopen _ _ =>
          have hhalf : s.cb = .halfOpen := by
            cases hcb : s.cb <;> simp_all
          have hj := hq hhalf j (.inl ⟨e, ha'⟩)
          rcases ha with ⟨o, rfl⟩ | rfl | rfl <;> cases ha'
          exact absurd hj hp
      | @closes j o ha' hc hhalf _ =>
          have hj := hq hhalf j (.inr ha')
          rcases ha with ⟨o, rfl⟩ | rfl | rfl <;> cases ha'
          exact absurd hj hp
      | ticks ha' => rcases ha with ⟨o, rfl⟩ | rfl | rfl <;> cases ha'

/-- Call 0 trips the breaker while call 1 is still running, and the circuit goes
half-open; call 2 is its probe. -/
def stragglerInFlight : List (Action Nat) :=
  [.fire, .fire, .complete 0 (.rejected .undefined), .emit 0, .settle 0, .tick, .fire]

theorem stragglerInFlight_runs :
    ((BreakerSystem.machine .v9 Nat oneStrike).execWhen Undisposed stragglerInFlight).isSome := by
  decide

/-- The probe of the pending half-open period fails and reopens the circuit. -/
theorem probe_decides_iff_stragglerInFlight :
    ∃ h s s', ProbeDecides (R := Nat) (O := .v9) h s (.complete 2 (.rejected .undefined)) s' ∧
      (s.cb, s'.cb) = (.halfOpen, .opened) := by
  refine ⟨_, _, _, (probe_decides_iff (show 1 ≤ oneStrike.consecutiveThreshold by decide)
    (Machine.reachesWhen_get stragglerInFlight_runs) (by decide)
    (Option.some_get (by decide)).symm).mpr fun _ i hi => ?_, by decide⟩
  obtain rfl : i = 2 := by simpa [eq_comm] using hi
  decide

/-- The run in which the straggler of `stragglerInFlight` succeeds late. -/
theorem stragglerSucceeds_runs :
    ((BreakerSystem.machine .v9 Nat oneStrike).execWhen Undisposed
      (stragglerInFlight ++ [.complete 1 (.fulfilled 7)])).isSome := by
  decide

/-- A late success of a straggler closes the circuit while the probe is still out:
the verdict does not belong to the probe in every run. -/
theorem straggler_decides :
    ¬ ∀ (h : List (Event Nat)) (s s' : BreakerSystem .v9 Nat) (a : Action Nat)
      (es : List (Event Nat)),
      (BreakerSystem.machine .v9 Nat oneStrike).ReachesWhen Undisposed h s →
      a ≠ .dispose → (BreakerSystem.machine .v9 Nat oneStrike).step s a = some (s', es) →
      ProbeDecides h s a s' := by
  intro hclaim
  have hverdict := hclaim _ _ _ (.emit 1) _ (Machine.reachesWhen_get stragglerSucceeds_runs)
    (by decide) (Option.some_get (by decide)).symm
  have hsame := hverdict.straggler (by decide) 1 (by decide) (.inr (.inl rfl))
  exact absurd hsame (by decide)

end EmailPlatform.Http
