import EmailPlatform.Http.CircuitBreakerOutcome

/-!
# EmailPlatform.Http.CircuitBreakerDispose

What is left of an adapter after `dispose()`. Its listeners are gone for good, so
`onTransition` is never called again. Calls in flight are not cancelled, and the
wrapper's continuation of a late failure may still call `open()`: on a shut-down
breaker that overwrites the shut-down state, after which `fire()` finds a disabled
breaker and runs the action directly. `disposed_stays_disposed` is the law for the
runs in which no late failure gets that far, `dispose_undone` the next call after
one that does.
-/

namespace EmailPlatform.Http

variable {O : Opossum} {R : Type} {opts : CbOptions}

/-- A breaker without listeners, timer and enablement: `dispose()` leads here and
no operation leads out. -/
structure BreakerView.Dead (v : BreakerView) : Prop where
  enabled : v.enabled = false
  internal : v.internal = false
  listeners : v.listeners = []
  timer : v.resetTimer = false

namespace BreakerView.Dead

variable {v : BreakerView}

theorem open_eq (hv : v.Dead) :
    v.open.2 = [] ∧ v.open.1.Dead ∧ v.open.1.state = .opened := by
  unfold BreakerView.open
  split
  · next hs => exact ⟨rfl, hv, hs⟩
  · refine ⟨by simp [emit, hv.listeners], ⟨hv.enabled, hv.internal, hv.listeners, ?_⟩, rfl⟩
    exact hv.internal

theorem success_eq (hv : v.Dead) : v.success = (v, []) := by
  rw [BreakerView.success, if_neg (by simp [hv.internal])]

theorem resetTimeout_eq (hv : v.Dead) : v.resetTimeout = none := by
  rw [BreakerView.resetTimeout, if_neg (by simp [hv.timer])]

theorem fire_snd (hv : v.Dead) : v.fire.2 = v := by
  unfold BreakerView.fire
  split
  · rfl
  · rw [if_pos hv.enabled]

theorem fire_of_shutdown (hs : v.state = .shutdown) : v.fire = (.rejectShutdown, v) := by
  rw [BreakerView.fire, if_pos hs]

theorem fire_of_ne_shutdown (hv : v.Dead) (hs : v.state ≠ .shutdown) :
    v.fire = (.direct, v) := by
  rw [BreakerView.fire, if_neg hs, if_pos hv.enabled]

end BreakerView.Dead

theorem dead_dispose (a : Adapter O) :
    (O.view a.dispose.breaker).Dead ∧ (O.view a.dispose.breaker).state = .shutdown := by
  simp only [Adapter.dispose, Opossum.view_shutdown]
  exact ⟨⟨rfl, rfl, rfl, rfl⟩, rfl⟩

/-- Every step on a dead breaker leaves it dead and reports no transition. -/
theorem BreakerSystem.Trans.dead {s s' : BreakerSystem O R} {a : Action R} {es : List (Event R)}
    (ht : Trans opts s a s' es) (hv : s.view.Dead) :
    s'.view.Dead ∧ ∀ t, Event.transition t ∉ es := by
  cases ht with
  | @admitted b tracked hf =>
      have hb : s.view = O.view b := by
        rw [← hv.fire_snd, hf]
      rw [hb] at hv
      exact ⟨hv, by simp⟩
  | refused _ hb =>
      simp only [view_mk, hb]
      exact ⟨hv, by simp⟩
  | succeeded | counted | settledRefused | settledAnswered => exact ⟨hv, by simp⟩
  | tripped _ _ hopen =>
      obtain ⟨hts, hdead, -⟩ := hv.open_eq
      rw [hopen] at hts hdead
      cases hts
      exact ⟨hdead, by simp⟩
  | emitted _ hsucc =>
      rw [hv.success_eq, Prod.mk.injEq] at hsucc
      obtain ⟨hb, rfl⟩ := hsucc
      rw [hb] at hv
      exact ⟨hv, by simp⟩
  | ticked _ htick => rw [hv.resetTimeout_eq] at htick; cases htick
  | disposed => exact ⟨(dead_dispose _).1, by simp⟩

/-- The marker of `dispose()` is emitted alone, by that step only. -/
theorem BreakerSystem.Trans.disposed_mem {s s' : BreakerSystem O R} {a : Action R}
    {es : List (Event R)} (ht : Trans opts s a s' es) (hm : .disposed ∈ es) :
    a = .dispose ∧ es = [.disposed] := by
  cases ht with
  | disposed => exact ⟨rfl, rfl⟩
  | _ => simp at hm

/-- After `dispose()` the breaker is dead, whatever happens. -/
theorem dead_of_reaches {h : List (Event R)} {s : BreakerSystem O R}
    (hr : (BreakerSystem.machine O R opts).Reaches h s) (hd : .disposed ∈ h) : s.view.Dead := by
  refine Machine.Reaches.invariant (I := fun h s => .disposed ∈ h → s.view.Dead) (by simp)
    (fun _ hi hs hd => ?_) hr hd
  have ht := BreakerSystem.trans_of_step hs
  rcases List.mem_append.mp hd with hd | hd
  · exact (ht.dead (hi hd)).1
  · obtain ⟨rfl, -⟩ := ht.disposed_mem hd
    cases ht with
    | disposed => exact (dead_dispose _).1

/-- No late failure brings the counter to the threshold. -/
def LateFailuresBelow (opts : CbOptions) (h : List (Event R)) (s : BreakerSystem O R)
    (a : Action R) : Prop :=
  .disposed ∈ h → ∀ i e, a = .complete i (.rejected e) →
    s.adapter.consecutiveFailures + 1 < opts.consecutiveThreshold

/-- Then the breaker stays shut down. -/
theorem shutdown_of_reaches {h : List (Event R)} {s : BreakerSystem O R}
    (hr : (BreakerSystem.machine O R opts).ReachesWhen (LateFailuresBelow opts) h s)
    (hd : .disposed ∈ h) : s.view.state = .shutdown := by
  refine Machine.ReachesWhen.invariant_of
    (I := fun h s => .disposed ∈ h → s.view.state = .shutdown) (by simp)
    (fun hr hi hlate hs hd' => ?_) hr hd
  have ht := BreakerSystem.trans_of_step hs
  rcases List.mem_append.mp hd' with hbefore | hnow
  · have hdead := dead_of_reaches hr.reaches hbefore
    have hstate := hi hbefore
    cases ht with
    | admitted tracked hf =>
        rw [BreakerView.Dead.fire_of_shutdown hstate] at hf
        cases tracked <;> simp at hf
    | refused _ hb => simpa [BreakerSystem.view_mk, hb] using hstate
    | succeeded | counted | settledRefused | settledAnswered => exact hstate
    | tripped _ hwhy =>
        -- the only step that could leave the shut-down state
        have hbelow := hlate hbefore _ _ rfl
        rcases hwhy with hhalf | hn
        · rw [hstate] at hhalf
          cases hhalf
        · omega
    | emitted _ hsucc =>
        rw [hdead.success_eq, Prod.mk.injEq] at hsucc
        rw [hsucc.1] at hstate
        exact hstate
    | ticked _ htick => rw [hdead.resetTimeout_eq] at htick; cases htick
    | disposed => exact (dead_dispose _).2
  · obtain ⟨rfl, -⟩ := ht.disposed_mem hnow
    cases ht with
    | disposed => exact (dead_dispose _).2

/-- A call that opossum rejected never settles with a result. -/
theorem settled_refused {h : List (Event R)} {s : BreakerSystem O R}
    (hr : (BreakerSystem.machine O R opts).Reaches h s) {i : Nat} {r : Outcome R}
    (hrefused : Event.refused i ∈ h) (hsettled : Event.settled i r ∈ h) :
    ∃ e, r = .rejected e := by
  have hrecord : ∀ (i : Nat) (v : R), s.calls[i]? ≠ some (.settled none (.fulfilled v)) := by
    refine Machine.Reaches.invariant (I := fun _ s => ∀ (i : Nat) (v : R),
      s.calls[i]? ≠ some (.settled none (.fulfilled v))) ?_ ?_ hr
    · simp [BreakerSystem.machine]
    · intro h s a s' es _ hi hs i v hc
      rcases (BreakerSystem.trans_of_step hs).moved hc with hc | hm
      · exact hi i v hc
      · generalize hcall : Call.settled none (.fulfilled v) = c at hm
        cases hm with
        | @wrapped tracked => cases tracked <;> cases hcall
        | settledRefused =>
            injection hcall with _ hv
            cases Adapter.fireCatch_eq_fulfilled.mp hv.symm
        | _ => cases hcall
  obtain ⟨inner, hc⟩ := (settled_mem_iff_call hr).mp hsettled
  obtain ⟨c, hc', hinvoked⟩ := (refused_mem_iff_call hr).mp hrefused
  obtain rfl := Option.some.inj (hc.symm.trans hc')
  cases inner with
  | some => cases hinvoked
  | none =>
      cases r with
      | fulfilled v => exact absurd hc (hrecord i v)
      | rejected e => exact ⟨e, rfl⟩

/-- **A disposed breaker stays disposed**, in every run in which no late failure
brings the counter to the threshold: after `dispose()` no new call invokes the
inner function, every new call rejects, and `onTransition` is not called. -/
theorem disposed_stays_disposed {h₁ h₂ : List (Event R)} {s : BreakerSystem O R}
    (hr : (BreakerSystem.machine O R opts).ReachesWhen (LateFailuresBelow opts)
      (h₁ ++ .disposed :: h₂) s) :
    (∀ i, .invoked i ∉ h₂) ∧
      (∀ i r, .refused i ∈ h₂ → .settled i r ∈ h₂ → ∃ e, r = .rejected e) ∧
      ∀ t, .transition t ∉ h₂ := by
  have hafter : ∀ e ∈ h₂, (∀ i, e ≠ .invoked i) ∧ ∀ t, e ≠ .transition t := by
    refine hr.after (fun hs hm => ((BreakerSystem.trans_of_step hs).disposed_mem hm).2) ?_
    intro h s a s' es hr hd _ hs e he
    have ht := BreakerSystem.trans_of_step hs
    refine ⟨?_, fun t het => (ht.dead (dead_of_reaches hr.reaches hd)).2 t (het ▸ he)⟩
    intro i heq
    subst heq
    cases ht with
    | admitted tracked hf =>
        rw [BreakerView.Dead.fire_of_shutdown (shutdown_of_reaches hr hd)] at hf
        cases tracked <;> simp at hf
    | _ => simp at he
  refine ⟨fun i hm => (hafter _ hm).1 i rfl, fun i r hrefused hsettled => ?_,
    fun t hm => (hafter _ hm).2 t rfl⟩
  exact settled_refused hr.reaches (i := i) (by simp [hrefused]) (by simp [hsettled])

/-- A late failure that does reach the threshold undoes the shutdown: the next
call invokes the inner function. -/
theorem dispose_undone {h : List (Event R)} {s s' : BreakerSystem O R} {i : Nat} {e : Thrown}
    {es : List (Event R)} (hr : (BreakerSystem.machine O R opts).Reaches h s)
    (hd : .disposed ∈ h)
    (hs : (BreakerSystem.machine O R opts).step s (.complete i (.rejected e)) = some (s', es))
    (hn : opts.consecutiveThreshold ≤ s.adapter.consecutiveFailures + 1) :
    ∃ s'', (BreakerSystem.machine O R opts).step s' .fire =
      some (s'', [.invoked s'.calls.length]) := by
  have hdead := dead_of_reaches hr hd
  have ht : BreakerSystem.Trans opts s (.complete i (.rejected e)) s' es :=
    BreakerSystem.trans_of_step hs
  have hopened : s'.view.state = .opened := by
    cases ht with
    | tripped _ _ hopen =>
        have hstate := hdead.open_eq.2.2
        rwa [hopen] at hstate
    | counted => omega
  have hfire : (O.fire s'.adapter.breaker).1 = .direct := by
    rw [O.fire_fst]
    exact congrArg Prod.fst ((ht.dead hdead).1.fire_of_ne_shutdown (by simp [hopened]))
  rcases hb : O.fire s'.adapter.breaker with ⟨adm, b⟩
  rw [hb] at hfire
  cases hfire
  exact ⟨_, by simp only [BreakerSystem.machine, BreakerSystem.step, BreakerSystem.fire, hb]; rfl⟩

instance [DecidableEq R] (h : List (Event R)) (s : BreakerSystem O R) (a : Action R) :
    Decidable (LateFailuresBelow opts h s a) :=
  match a with
  | .complete i (.rejected e) =>
      decidable_of_iff (.disposed ∈ h →
          s.adapter.consecutiveFailures + 1 < opts.consecutiveThreshold)
        ⟨fun hn hd _ _ _ => hn hd, fun hn hd => hn hd i e rfl⟩
  | .complete _ (.fulfilled _) | .dispose | .fire | .emit _ | .settle _ | .tick =>
      isTrue fun _ _ _ ha => by cases ha

/-- A call is in flight at `dispose()` and fails below the threshold. -/
def disposeInFlight : List (Action Nat) :=
  [.fire, .dispose, .complete 0 (.rejected vendorError), .fire, .settle 1]

/-- What follows `dispose()` in that run. -/
def afterDispose : List (Event Nat) :=
  [.completed 0 (.rejected vendorError), .refused 1,
    .settled 1 (.rejected Opossum.v9.shutdownError)]

theorem disposeInFlight_runs :
    ((BreakerSystem.machine .v9 Nat twoStrikes).execWhen (LateFailuresBelow twoStrikes)
      disposeInFlight).map Prod.fst = some ([.invoked 0] ++ .disposed :: afterDispose) := by
  decide +kernel

theorem disposed_stays_disposed_disposeInFlight :
    (∀ i, .invoked i ∉ afterDispose) ∧
      (∀ i r, .refused i ∈ afterDispose → .settled i r ∈ afterDispose → ∃ e, r = .rejected e) ∧
      ∀ t, .transition t ∉ afterDispose := by
  obtain ⟨s, hr⟩ := Machine.exists_reachesWhen _ disposeInFlight_runs
  exact disposed_stays_disposed hr

theorem disposeTripped_runs :
    ((BreakerSystem.machine .v9 Nat oneStrike).execWhen (fun _ _ _ => True)
      [.fire, .dispose, .complete 0 (.rejected vendorError), .fire]).map Prod.fst =
    some ([.invoked 0] ++ .disposed :: [.completed 0 (.rejected vendorError), .invoked 1]) := by
  decide +kernel

/-- With threshold one the late failure reopens a shut-down breaker, and the next
call is sent. -/
theorem invoked_after_dispose :
    ¬ ∀ (h₁ h₂ : List (Event Nat)) (s : BreakerSystem .v9 Nat),
      (BreakerSystem.machine .v9 Nat oneStrike).Reaches (h₁ ++ .disposed :: h₂) s →
      ∀ i, .invoked i ∉ h₂ := by
  intro hclaim
  obtain ⟨s, hr⟩ := Machine.exists_reachesWhen _ disposeTripped_runs
  exact hclaim _ _ s hr 1 (by simp)

end EmailPlatform.Http
