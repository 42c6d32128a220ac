import EmailPlatform.Http.CircuitBreakerStep
import Mathlib.Data.List.Induction

/-!
# EmailPlatform.Http.CircuitBreakerHistory

What the laws of the circuit breaker talk about, read off the history alone, and
the invariant that ties it to the adapter's state.

The first part is the abstract side and mentions no adapter: the automaton of
legal transition sequences (`Cb.follow`, `Cb.path`), the number of failing
completions since the last reset (`failuresSince`), and the current period with
the calls admitted in it (`period`). The second part is the invariant `Inv` of
every run without `dispose()`, preserved field by field along `LiveTrans`.
-/

namespace EmailPlatform.Http

variable {O : Opossum} {R : Type} {opts : CbOptions}

/-! ### Legal transition sequences -/

/-- The edges of the breaker automaton. -/
def Cb.follow : Cb → Transition → Option Cb
  | .closed, .open => some .opened
  | .opened, .halfOpen => some .halfOpen
  | .halfOpen, .close => some .closed
  | .halfOpen, .open => some .opened
  | _, _ => none

/-- The state a sequence of transitions leads to, if each is an edge. -/
def Cb.path (c : Cb) : List Transition → Option Cb
  | [] => some c
  | t :: ts => (c.follow t).bind (·.path ts)

theorem Cb.path_append (ts us : List Transition) (c : Cb) :
    c.path (ts ++ us) = (c.path ts).bind (·.path us) := by
  induction ts generalizing c with
  | nil => rfl
  | cons t ts ih =>
      simp only [List.cons_append, Cb.path]
      cases c.follow t with
      | none => rfl
      | some c' => simpa using ih c'

/-- Only `halfOpen` can follow an opening. -/
theorem Cb.eq_halfOpen_of_path {ts us : List Transition} {t : Transition} {c c' : Cb}
    (h : c.path (ts ++ .open :: t :: us) = some c') : t = .halfOpen := by
  rw [Cb.path_append] at h
  obtain ⟨d, -, hd⟩ := Option.bind_eq_some_iff.mp h
  cases d <;> cases t <;> simp [Cb.path, Cb.follow] at hd ⊢

/-- The transition an event reports, if any. -/
@[simp] def Event.transition? : Event R → Option Transition
  | .transition t => some t
  | _ => none

/-- The values passed to `onTransition`, in order. -/
def transitions (h : List (Event R)) : List Transition := h.filterMap Event.transition?

@[simp] theorem transitions_append (h es : List (Event R)) :
    transitions (h ++ es) = transitions h ++ transitions es := List.filterMap_append

@[simp] theorem transitions_nil : transitions ([] : List (Event R)) = [] := rfl

@[simp] theorem transitions_cons (e : Event R) (es : List (Event R)) :
    transitions (e :: es) = e.transition?.toList ++ transitions es := by
  cases e <;> rfl

theorem mem_transitions {h : List (Event R)} {t : Transition} :
    t ∈ transitions h ↔ .transition t ∈ h := by
  rw [transitions, List.mem_filterMap]
  constructor
  · intro ⟨e, he, ht⟩
    cases e <;> simp at ht
    exact ht ▸ he
  · exact fun ht => ⟨_, ht, rfl⟩

/-- The snapshot's `cb` for each state of the breaker. -/
def BreakerState.cb : BreakerState → Cb
  | .opened => .opened
  | .halfOpen => .halfOpen
  | .closed | .shutdown => .closed

theorem BreakerSystem.cb_eq (s : BreakerSystem O R) : s.cb = s.view.state.cb := by
  rw [BreakerSystem.cb, Adapter.state, BreakerSystem.view]
  cases hs : (O.view s.adapter.breaker).state <;> simp [Opossum.opened, Opossum.halfOpen, hs,
    BreakerState.cb]

/-! ### Failures since the last reset -/

/-- One event, for the count of consecutive failures: a success and the return to
closed reset it, a failing completion adds one. -/
def countFailure (n : Nat) : Event R → Nat
  | .completed _ (.fulfilled _) => 0
  | .completed _ (.rejected _) => n + 1
  | .transition .close => 0
  | _ => n

/-- The failing completions since the latest of: construction, the last
successful completion, the last return to closed. -/
def failuresSince (h : List (Event R)) : Nat := h.foldl countFailure 0

@[simp] theorem failuresSince_append (h es : List (Event R)) :
    failuresSince (h ++ es) = es.foldl countFailure (failuresSince h) := List.foldl_append

/-! ### The current period -/

/-- The time since the latest reported transition. -/
structure Period where
  /-- That transition. -/
  last : Option Transition
  /-- The calls whose inner function was invoked before it. -/
  before : List Nat
  /-- The calls whose inner function was invoked since. -/
  during : List Nat
  deriving DecidableEq, Repr

/-- One event, for the current period. -/
def Period.next (p : Period) : Event R → Period
  | .transition t => ⟨some t, p.before ++ p.during, []⟩
  | .invoked i => { p with during := p.during ++ [i] }
  | _ => p

/-- The period a history ends in. -/
def period (h : List (Event R)) : Period := h.foldl Period.next ⟨none, [], []⟩

@[simp] theorem period_append (h es : List (Event R)) :
    period (h ++ es) = es.foldl Period.next (period h) := List.foldl_append

/-- A call was invoked exactly when some period lists it. -/
theorem invoked_mem_iff {h : List (Event R)} {i : Nat} :
    .invoked i ∈ h ↔ i ∈ (period h).before ++ (period h).during := by
  induction h using List.reverseRecOn with
  | nil => simp [period]
  | append_singleton h e ih =>
      cases e <;> simp_all [Period.next, or_assoc, eq_comm]

/-- The call an event admits, if any. -/
@[simp] def Event.invoked? : Event R → Option Nat
  | .invoked i => some i
  | _ => none

/-- Without a transition the period only grows. -/
theorem foldl_next_of_quiet {h : List (Event R)} (hquiet : ∀ t, .transition t ∉ h) (p : Period) :
    h.foldl Period.next p = { p with during := p.during ++ h.filterMap Event.invoked? } := by
  induction h generalizing p with
  | nil => simp
  | cons e h ih =>
      have hrest : ∀ t, .transition t ∉ h := fun t ht => hquiet t (List.mem_cons_of_mem _ ht)
      rw [List.foldl_cons, ih hrest]
      cases e with
      | transition t => exact absurd List.mem_cons_self (hquiet t)
      | _ => simp [Period.next, List.filterMap_cons]

/-- The period after a transition and nothing but other events. -/
theorem period_of_quiet (h₁ : List (Event R)) {h₂ : List (Event R)} (t : Transition)
    (hquiet : ∀ t, .transition t ∉ h₂) :
    (period (h₁ ++ .transition t :: h₂)).last = some t ∧
      (period (h₁ ++ .transition t :: h₂)).during = h₂.filterMap Event.invoked? := by
  rw [period_append, List.foldl_cons, foldl_next_of_quiet hquiet]
  simp [Period.next]

/-- A history in a period splits at the transition that began it. -/
theorem exists_of_last {h : List (Event R)} {t : Transition} (hlast : (period h).last = some t) :
    ∃ h₁ h₂, h = h₁ ++ .transition t :: h₂ ∧ (∀ t', .transition t' ∉ h₂) ∧
      ∀ i ∈ (period h).before, .invoked i ∈ h₁ := by
  induction h using List.reverseRecOn with
  | nil => simp [period] at hlast
  | append_singleton h e ih =>
      rw [period_append] at hlast ⊢
      by_cases he : ∃ t', e = .transition t'
      · obtain ⟨t', rfl⟩ := he
        obtain rfl : t' = t := by simpa [Period.next] using hlast
        exact ⟨h, [], rfl, by simp, fun i hi => invoked_mem_iff.mpr hi⟩
      · obtain ⟨hlast', hbefore'⟩ : ((period h).next e).last = (period h).last ∧
            ((period h).next e).before = (period h).before := by
          cases e <;> simp_all [Period.next]
        obtain ⟨h₁, h₂, heq, hquiet, hbefore⟩ := ih (hlast' ▸ hlast)
        refine ⟨h₁, h₂ ++ [e], by simp [heq], fun t' ht' => ?_, fun i hi => hbefore i ?_⟩
        · rcases List.mem_append.mp ht' with ht' | ht'
          · exact hquiet t' ht'
          · exact he ⟨t', (List.mem_singleton.mp ht').symm⟩
        · rw [← hbefore']
          exact hi

/-! ### The invariant -/

/-- The period agrees with the state of the breaker: nobody was admitted while it
is open, at most the probe while it is half-open. -/
structure PeriodInv (v : BreakerView) (p : Period) : Prop where
  closed : v.state = .closed → p.last ≠ some .open ∧ p.last ≠ some .halfOpen
  opened : v.state = .opened → p.last = some .open ∧ p.during = []
  halfOpen : v.state = .halfOpen → p.last = some .halfOpen ∧ p.during.length ≤ 1 ∧
    (v.pendingClose = true → p.during = [])

/-- The invariant of an adapter that nobody disposed. -/
structure Inv (opts : CbOptions) (h : List (Event R)) (s : BreakerSystem O R) : Prop where
  live : s.view.Live
  path : Cb.closed.path (transitions h) = some s.cb
  /-- In half-open only results await their `'success'` event: a failure there has
  reopened the circuit before the event. -/
  returned : s.view.state = .halfOpen → ∀ (i : Nat) (o : Outcome R),
    s.calls[i]? = some (Call.returned o) →
      s.adapter.consecutiveFailures = 0 ∧ ∃ r, o = Outcome.fulfilled r
  counter : s.view.state = .closed →
    s.adapter.consecutiveFailures = failuresSince h ∧
      s.adapter.consecutiveFailures < opts.consecutiveThreshold
  period : PeriodInv s.view (period h)

namespace BreakerSystem

variable {h : List (Event R)} {s s' : BreakerSystem O R} {a : Action R} {es : List (Event R)}

theorem LiveTrans.path (ht : LiveTrans opts s a s' es) (hv : s.view.Live)
    (hi : Cb.closed.path (transitions h) = some s.cb) :
    Cb.closed.path (transitions (h ++ es)) = some s'.cb := by
  rw [transitions_append, Cb.path_append, hi, Option.bind_some, cb_eq, cb_eq]
  cases ht with
  | succeeded | counted | settledRefused | settledAnswered =>
      simp [Cb.path, view_mk]
      rfl
  | admitted _ hb | refused _ hb | retripped _ _ hb | emitted _ _ hb =>
      simp [Cb.path, view_mk, hb]
  | closed _ hs hb | ticked _ hs hb =>
      simp [Cb.path, Cb.follow, view_mk, hb, hs, BreakerState.cb]
  | tripped _ hs _ hb =>
      -- there is an edge to open from closed and from half-open
      have hup := hv.up
      cases hst : s.view.state <;> simp_all [Cb.path, Cb.follow, view_mk, BreakerState.cb]

/-- Nothing is left between its wrapper and its event in half-open but results. -/
theorem LiveTrans.returned (ht : LiveTrans opts s a s' es)
    (hi : s.view.state = .halfOpen → ∀ (i : Nat) (o : Outcome R),
      s.calls[i]? = some (Call.returned o) →
        s.adapter.consecutiveFailures = 0 ∧ ∃ r, o = Outcome.fulfilled r) :
    s'.view.state = .halfOpen → ∀ (i : Nat) (o : Outcome R),
      s'.calls[i]? = some (Call.returned o) →
        s'.adapter.consecutiveFailures = 0 ∧ ∃ r, o = Outcome.fulfilled r := by
  intro hs' j o hj
  cases ht with
  | admitted _ hb | refused _ hb =>
      simp only [view_mk, hb] at hs'
      rcases getElem?_concat_cases hj with ⟨-, hc⟩ | hj
      · cases hc
      · exact hi hs' j o hj
  | succeeded =>
      refine ⟨rfl, ?_⟩
      rcases getElem?_set_cases hj with ⟨-, hc⟩ | ⟨-, hj⟩
      · next tracked r _ =>
        cases tracked with
        | true => exact ⟨r, by injection hc⟩
        | false => cases hc
      · exact (hi hs' j o hj).2
  | counted _ hs => exact absurd hs' hs
  | tripped _ _ _ hb | closed _ _ hb => simp [view_mk, hb] at hs'
  | retripped _ hs hb => simp [view_mk, hb, hs] at hs'
  | emitted _ hs hb =>
      simp only [view_mk, hb] at hs'
      exact absurd hs' hs
  | settledRefused | settledAnswered =>
      rcases getElem?_set_cases hj with ⟨-, hc⟩ | ⟨-, hj⟩
      · cases hc
      · exact hi hs' j o hj
  | ticked hp =>
      -- the timer waited for every continuation
      have hmem : Call.returned o ∈ s.calls := List.mem_of_getElem? hj
      have hany : s.calls.any Call.pending = true := List.any_eq_true.mpr ⟨_, hmem, rfl⟩
      exact absurd hany (by simp [hp])

theorem LiveTrans.counter (ht : LiveTrans opts s a s' es) (hthr : 1 ≤ opts.consecutiveThreshold)
    (hi : Inv opts h s) :
    s'.view.state = .closed →
      s'.adapter.consecutiveFailures = failuresSince (h ++ es) ∧
        s'.adapter.consecutiveFailures < opts.consecutiveThreshold := by
  intro hs'
  cases ht with
  | admitted _ hb | refused _ hb | emitted _ _ hb =>
      simp only [view_mk, hb] at hs'
      simpa [countFailure] using hi.counter hs'
  | settledRefused | settledAnswered => simpa [countFailure] using hi.counter hs'
  | succeeded => exact ⟨by simp [countFailure], hthr⟩
  | counted _ _ hn =>
      refine ⟨?_, hn⟩
      simp [countFailure, (hi.counter hs').1]
  | tripped _ _ _ hb | ticked _ _ hb => simp [view_mk, hb] at hs'
  | retripped _ hs hb => simp [view_mk, hb, hs] at hs'
  | closed hc hs =>
      -- the closing event belongs to a result, and its wrapper cleared the counter
      have hzero := (hi.returned hs _ _ hc).1
      refine ⟨?_, ?_⟩
      · simpa [countFailure] using hzero
      · show s.adapter.consecutiveFailures < _
        omega

theorem LiveTrans.periodInv (ht : LiveTrans opts s a s' es)
    (hi : PeriodInv s.view (period h)) : PeriodInv s'.view (period (h ++ es)) := by
  cases ht with
  | succeeded | counted | settledRefused | settledAnswered =>
      rw [period_append]
      exact hi
  | refused _ hb | retripped _ _ hb | emitted _ _ hb => simpa [Period.next, view_mk, hb] using hi
  | admitted hb hb' =>
      -- a call is admitted in closed, or as the probe of a half-open period
      simp only [BreakerView.Blocks, not_or, not_and, Bool.not_eq_false] at hb
      refine ⟨fun hs => ?_, fun hs => ?_, fun hs => ?_⟩ <;> simp only [view_mk, hb'] at hs
      · simpa [Period.next] using hi.closed hs
      · exact absurd hs hb.1
      · obtain ⟨hlast, -, hfree⟩ := hi.halfOpen hs
        simp [Period.next, hlast, hfree (hb.2 hs), view_mk, hb']
  | tripped _ _ _ hb =>
      refine ⟨?_, ?_, ?_⟩
      · intro hs
        simp [view_mk, hb] at hs
      · intro _
        simp [Period.next]
      · intro hs
        simp [view_mk, hb] at hs
  | closed _ _ hb =>
      refine ⟨?_, ?_, ?_⟩
      · intro _
        simp [Period.next]
      · intro hs
        simp [view_mk, hb] at hs
      · intro hs
        simp [view_mk, hb] at hs
  | ticked _ _ hb =>
      refine ⟨?_, ?_, ?_⟩
      · intro hs
        simp [view_mk, hb] at hs
      · intro hs
        simp [view_mk, hb] at hs
      · intro _
        simp [Period.next]

/-- One step without `dispose()` keeps the invariant. -/
theorem LiveTrans.inv (ht : LiveTrans opts s a s' es) (hthr : 1 ≤ opts.consecutiveThreshold)
    (hi : Inv opts h s) : Inv opts (h ++ es) s' where
  live := ht.live hi.live
  path := ht.path hi.live hi.path
  returned := ht.returned hi.returned
  counter := ht.counter hthr hi
  period := ht.periodInv hi.period

end BreakerSystem

theorem cb_eq_halfOpen_iff {s : BreakerSystem O R} :
    s.cb = .halfOpen ↔ s.view.state = .halfOpen := by
  rw [BreakerSystem.cb_eq]
  cases s.view.state <;> simp [BreakerState.cb]

theorem cb_eq_opened_iff {s : BreakerSystem O R} : s.cb = .opened ↔ s.view.state = .opened := by
  rw [BreakerSystem.cb_eq]
  cases s.view.state <;> simp [BreakerState.cb]

theorem opened_iff_cb {s : BreakerSystem O R} :
    O.opened s.adapter.breaker = true ↔ s.cb = .opened := by
  rw [O.opened_iff, cb_eq_opened_iff, BreakerSystem.view]

/-- On a live breaker `closed` is the state itself, not the shut-down one. -/
theorem cb_eq_closed_iff {s : BreakerSystem O R} (hv : s.view.Live) :
    s.cb = .closed ↔ s.view.state = .closed := by
  have hup := hv.up
  rw [BreakerSystem.cb_eq]
  cases hs : s.view.state <;> simp_all [BreakerState.cb]

/-- How the snapshot's `cb` can change, and by which step. -/
inductive CbChange (opts : CbOptions) (s s' : BreakerSystem O R) (a : Action R) : Prop
  | same : s'.cb = s.cb → CbChange opts s s' a
  | trips {i : Nat} {e : Thrown} :
      a = .complete i (.rejected e) → s.cb ≠ .opened → s'.cb = .opened →
      (s.cb = .halfOpen ∨ opts.consecutiveThreshold ≤ s.adapter.consecutiveFailures + 1) →
      CbChange opts s s' a
  | closes {i : Nat} {o : Outcome R} :
      a = .emit i → s.calls[i]? = some (.returned o) → s.cb = .halfOpen → s'.cb = .closed →
      CbChange opts s s' a
  | ticks : a = .tick → s.cb = .opened → s'.cb = .halfOpen → CbChange opts s s' a

theorem BreakerSystem.LiveTrans.cbChange {s s' : BreakerSystem O R} {a : Action R}
    {es : List (Event R)} (ht : LiveTrans opts s a s' es) : CbChange opts s s' a := by
  cases ht with
  | succeeded | counted | settledRefused | settledAnswered => exact .same rfl
  | admitted _ hb | refused _ hb | retripped _ _ hb | emitted _ _ hb =>
      refine .same ?_
      simp [cb_eq, view_mk, hb]
  | tripped _ hs hwhy hb =>
      refine .trips rfl (mt cb_eq_opened_iff.mp hs) ?_ (hwhy.imp_left cb_eq_halfOpen_iff.mpr)
      simp [cb_eq_opened_iff, view_mk, hb]
  | closed hc hs hb =>
      refine .closes rfl hc (cb_eq_halfOpen_iff.mpr hs) ?_
      simp [cb_eq, view_mk, hb, BreakerState.cb]
  | ticked _ hs hb =>
      refine .ticks rfl (cb_eq_opened_iff.mpr hs) ?_
      simp [cb_eq_halfOpen_iff, view_mk, hb]

/-- Steps other than `dispose()`. -/
def Undisposed (_ : List (Event R)) (_ : BreakerSystem O R) (a : Action R) : Prop := a ≠ .dispose

instance [DecidableEq R] (h : List (Event R)) (s : BreakerSystem O R) (a : Action R) :
    Decidable (Undisposed h s a) :=
  inferInstanceAs (Decidable (a ≠ .dispose))

theorem live_init : (BreakerSystem.machine O R opts).init.view.Live := BreakerView.live_new

/-- The invariant holds in every state an undisposed adapter reaches. -/
theorem inv_of_reaches (hthr : 1 ≤ opts.consecutiveThreshold) {h : List (Event R)}
    {s : BreakerSystem O R} (hr : (BreakerSystem.machine O R opts).ReachesWhen Undisposed h s) :
    Inv opts h s := by
  refine Machine.ReachesWhen.invariant_of ?_ ?_ hr
  · have hstate : (BreakerSystem.machine O R opts).init.view.state = .closed := by
      simp [BreakerSystem.machine, BreakerSystem.view, Adapter.new, Adapter.wireEvents,
        BreakerView.on, BreakerView.create]
    refine ⟨live_init, ?_, ?_, fun _ => ⟨rfl, hthr⟩, ⟨fun _ => ?_, ?_, ?_⟩⟩
    · rw [BreakerSystem.cb_eq, hstate]
      rfl
    · simp [hstate]
    · simp [period]
    · simp [hstate]
    · simp [hstate]
  · intro h s a s' es _ hi ha hs
    exact ((BreakerSystem.trans_of_step hs).live hi.live ha).inv hthr hi

end EmailPlatform.Http
