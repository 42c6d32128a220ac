import EmailPlatform.Http.CircuitBreaker

/-!
# EmailPlatform.Http.CircuitBreakerStep

Inversion of the adapter's machine. `Trans` lists every way the system can take a
step, with its guard and its whole effect, and `trans_of_step` reads a step off
as one of them; no later proof unfolds `BreakerSystem.step`. The breaker appears only
through its documented view.

`Live` collects what is true of the view as long as nobody has disposed the
adapter, together with what each operation then amounts to.
-/

namespace EmailPlatform.Http

variable {O : Opossum} {R : Type} {opts : CbOptions}

namespace BreakerSystem

/-- The steps of the system, by what happens to the call concerned. -/
inductive Trans (opts : CbOptions) (s : BreakerSystem O R) :
    Action R → BreakerSystem O R → List (Event R) → Prop
  /-- The inner function is invoked for a new call. -/
  | admitted {b : O.Breaker} (tracked : Bool) :
      s.view.fire = (if tracked then .run else .direct, O.view b) →
      Trans opts s .fire
        ⟨{ s.adapter with breaker := b }, s.calls ++ [.running tracked]⟩
        [.invoked s.calls.length]
  /-- A new call is rejected by opossum. -/
  | refused {b : O.Breaker} {e : Thrown} :
      (s.view.fire.1 = .rejectOpen ∧ e = Opossum.breakerOpenError ∨
        s.view.fire.1 = .rejectShutdown ∧ e = O.shutdownError) →
      O.view b = s.view →
      Trans opts s .fire
        ⟨{ s.adapter with breaker := b }, s.calls ++ [.refused e]⟩
        [.refused s.calls.length]
  /-- An action resolved: the counter is cleared. -/
  | succeeded {i : Nat} {tracked : Bool} {r : R} :
      s.calls[i]? = some (.running tracked) →
      Trans opts s (.complete i (.fulfilled r))
        ⟨{ s.adapter with consecutiveFailures := 0 },
          s.calls.set i (afterWrap tracked (.fulfilled r))⟩
        [.completed i (.fulfilled r)]
  /-- An action rejected and the wrapper calls `open()`: in half-open always,
  otherwise when the counter reaches the threshold. -/
  | tripped {i : Nat} {tracked : Bool} {e : Thrown} {b : O.Breaker} {ts : List Transition} :
      s.calls[i]? = some (.running tracked) →
      (s.view.state = .halfOpen ∨
        opts.consecutiveThreshold ≤ s.adapter.consecutiveFailures + 1) →
      s.view.open = (O.view b, ts) →
      Trans opts s (.complete i (.rejected e))
        ⟨{ s.adapter with breaker := b, consecutiveFailures := 0 },
          s.calls.set i (afterWrap tracked (.rejected e))⟩
        (.completed i (.rejected e) :: ts.map .transition)
  /-- An action rejected below the threshold. -/
  | counted {i : Nat} {tracked : Bool} {e : Thrown} :
      s.calls[i]? = some (.running tracked) →
      s.view.state ≠ .halfOpen →
      s.adapter.consecutiveFailures + 1 < opts.consecutiveThreshold →
      Trans opts s (.complete i (.rejected e))
        ⟨{ s.adapter with consecutiveFailures := s.adapter.consecutiveFailures + 1 },
          s.calls.set i (afterWrap tracked (.rejected e))⟩
        [.completed i (.rejected e)]
  /-- opossum emits `'success'` for an action that has settled. -/
  | emitted {i : Nat} {o : Outcome R} {b : O.Breaker} {ts : List Transition} :
      s.calls[i]? = some (.returned o) →
      s.view.success = (O.view b, ts) →
      Trans opts s (.emit i)
        ⟨{ s.adapter with breaker := b }, s.calls.set i (.answered o)⟩
        (ts.map .transition)
  /-- `fire()` settles for a call that opossum rejected. -/
  | settledRefused {i : Nat} {e : Thrown} :
      s.calls[i]? = some (.refused e) →
      Trans opts s (.settle i)
        ⟨s.adapter, s.calls.set i (.settled none (s.adapter.fireCatch opts (.rejected e)))⟩
        [.settled i (s.adapter.fireCatch opts (.rejected e))]
  /-- `fire()` settles for a call whose action has run. -/
  | settledAnswered {i : Nat} {o : Outcome R} :
      s.calls[i]? = some (.answered o) →
      Trans opts s (.settle i)
        ⟨s.adapter, s.calls.set i (.settled (some o) (s.adapter.fireCatch opts o))⟩
        [.settled i (s.adapter.fireCatch opts o)]
  /-- The reset timer ticks; no continuation is due. -/
  | ticked {b : O.Breaker} {ts : List Transition} :
      s.calls.any Call.pending = false →
      s.view.resetTimeout = some (O.view b, ts) →
      Trans opts s .tick ⟨{ s.adapter with breaker := b }, s.calls⟩ (ts.map .transition)
  | disposed :
      Trans opts s .dispose ⟨s.adapter.dispose, s.calls⟩ [.disposed]

/-- The adapter's continuation of the wrapped function, by outcome and guard. -/
theorem trans_of_complete {s : BreakerSystem O R} {i : Nat} {tracked : Bool}
    (hc : s.calls[i]? = some (.running tracked)) (o : Outcome R) :
    Trans opts s (.complete i o)
      ⟨(s.adapter.wrap opts o).1, s.calls.set i (afterWrap tracked o)⟩
      (.completed i o :: (s.adapter.wrap opts o).2.map .transition) := by
  cases o with
  | fulfilled r => exact .succeeded hc
  | rejected e =>
      have hopen : s.view.open =
          (O.view (O.open s.adapter.breaker).1, (O.open s.adapter.breaker).2) := by
        rw [O.view_open_fst, O.open_snd]
        rfl
      unfold Adapter.wrap
      by_cases hh : O.halfOpen s.adapter.breaker = true
      · simp only [hh, if_true]
        exact .tripped hc (.inl ((O.halfOpen_iff _).mp hh)) hopen
      · have hstate : s.view.state ≠ .halfOpen := fun h => hh ((O.halfOpen_iff _).mpr h)
        simp only [hh]
        by_cases hn : s.adapter.consecutiveFailures + 1 ≥ opts.consecutiveThreshold
        · simp only [hn, if_true]
          exact .tripped hc (.inr hn) hopen
        · simp only [hn, if_false]
          exact .counted hc hstate (by omega)

/-- A new call, by opossum's decision. -/
theorem trans_of_fire (s : BreakerSystem O R) : Trans opts s .fire s.fire.1 s.fire.2 := by
  have hfst : (O.fire s.adapter.breaker).1 = s.view.fire.1 := O.fire_fst _
  have hsnd : O.view (O.fire s.adapter.breaker).2 = s.view.fire.2 := O.view_fire_snd _
  -- a refusal leaves the breaker as it is
  have hkeep : s.view.fire.1 = .rejectOpen ∨ s.view.fire.1 = .rejectShutdown →
      O.view (O.fire s.adapter.breaker).2 = s.view := by
    rw [hsnd]
    unfold BreakerView.fire
    split
    · simp
    · split
      · simp
      · split <;> simp
  unfold BreakerSystem.fire
  rcases hf : O.fire s.adapter.breaker with ⟨adm, b⟩
  simp only [hf] at hfst hsnd hkeep
  cases adm with
  | run => exact .admitted true (Prod.ext hfst.symm hsnd.symm)
  | direct => exact .admitted false (Prod.ext hfst.symm hsnd.symm)
  | rejectOpen => exact .refused (.inl ⟨hfst.symm, rfl⟩) (hkeep (.inl hfst.symm))
  | rejectShutdown => exact .refused (.inr ⟨hfst.symm, rfl⟩) (hkeep (.inr hfst.symm))

/-- **Inversion.** Every step of the system is one of `Trans`. -/
theorem trans_of_step {s s' : BreakerSystem O R} {a : Action R} {es : List (Event R)}
    (h : step opts s a = some (s', es)) : Trans opts s a s' es := by
  cases a with
  | fire =>
      obtain ⟨rfl, rfl⟩ : s.fire.1 = s' ∧ s.fire.2 = es := by
        simpa [step, Prod.ext_iff] using h
      exact trans_of_fire s
  | complete i o =>
      rw [step] at h
      split at h
      · next tracked hc =>
        obtain ⟨rfl, rfl⟩ := by simpa using h
        exact trans_of_complete hc o
      · cases h
  | emit i =>
      rw [step] at h
      split at h
      · next o hc =>
        obtain ⟨rfl, rfl⟩ := by simpa using h
        refine .emitted hc ?_
        rw [O.view_success_fst]
        rfl
      · cases h
  | settle i =>
      rw [step] at h
      split at h
      · next e hc =>
        obtain ⟨rfl, rfl⟩ := by simpa using h
        exact .settledRefused hc
      · next o hc =>
        obtain ⟨rfl, rfl⟩ := by simpa using h
        exact .settledAnswered hc
      · cases h
  | tick =>
      rw [step] at h
      split at h
      · cases h
      · next hp =>
        split at h
        · next b ts ht =>
          obtain ⟨rfl, rfl⟩ := by simpa using h
          exact .ticked (by simpa using hp) (O.resetTimeout_eq_some ht)
        · cases h
  | dispose =>
      obtain ⟨rfl, rfl⟩ := by simpa [step] using h
      exact .disposed

end BreakerSystem

/-- `fire` resolves exactly with a result of the action. -/
theorem Adapter.fireCatch_eq_fulfilled {a : Adapter O} {o : Outcome R} {r : R} :
    a.fireCatch opts o = .fulfilled r ↔ o = .fulfilled r := by
  cases o with
  | fulfilled => rfl
  | rejected e =>
      rw [fireCatch]
      split <;> simp

/-! ### The records after a step -/

namespace BreakerSystem

/-- `c` is the record that step `a` out of `s` gives to call `j`. -/
inductive Moved (opts : CbOptions) (s : BreakerSystem O R) (a : Action R) (j : Nat) :
    Call R → Prop
  | admitted (tracked : Bool) :
      a = .fire → j = s.calls.length → s.view.fire.1 = (if tracked then .run else .direct) →
      Moved opts s a j (.running tracked)
  | refused {e : Thrown} :
      a = .fire → j = s.calls.length →
      (s.view.fire.1 = .rejectOpen ∧ e = Opossum.breakerOpenError ∨
        s.view.fire.1 = .rejectShutdown ∧ e = O.shutdownError) →
      Moved opts s a j (.refused e)
  | wrapped {tracked : Bool} {o : Outcome R} :
      a = .complete j o → s.calls[j]? = some (.running tracked) →
      Moved opts s a j (afterWrap tracked o)
  | answered {o : Outcome R} :
      a = .emit j → s.calls[j]? = some (.returned o) → Moved opts s a j (.answered o)
  | settledRefused {e : Thrown} :
      a = .settle j → s.calls[j]? = some (.refused e) →
      Moved opts s a j (.settled none (s.adapter.fireCatch opts (.rejected e)))
  | settledAnswered {o : Outcome R} :
      a = .settle j → s.calls[j]? = some (.answered o) →
      Moved opts s a j (.settled (some o) (s.adapter.fireCatch opts o))

/-- A record after a step is the one before it or the one the step made. -/
theorem Trans.moved {s s' : BreakerSystem O R} {a : Action R} {es : List (Event R)}
    (ht : Trans opts s a s' es) {j : Nat} {c : Call R} (hj : s'.calls[j]? = some c) :
    s.calls[j]? = some c ∨ Moved opts s a j c := by
  cases ht with
  | admitted tracked hf =>
      rcases getElem?_concat_cases hj with ⟨hlen, rfl⟩ | hj
      · exact .inr (.admitted tracked rfl hlen (congrArg Prod.fst hf))
      · exact .inl hj
  | refused hf =>
      rcases getElem?_concat_cases hj with ⟨hlen, rfl⟩ | hj
      · exact .inr (.refused rfl hlen hf)
      · exact .inl hj
  | succeeded hc | counted hc | tripped hc =>
      rcases getElem?_set_cases hj with ⟨rfl, rfl⟩ | ⟨-, hj⟩
      · exact .inr (.wrapped rfl hc)
      · exact .inl hj
  | emitted hc =>
      rcases getElem?_set_cases hj with ⟨rfl, rfl⟩ | ⟨-, hj⟩
      · exact .inr (.answered rfl hc)
      · exact .inl hj
  | settledRefused hc =>
      rcases getElem?_set_cases hj with ⟨rfl, rfl⟩ | ⟨-, hj⟩
      · exact .inr (.settledRefused rfl hc)
      · exact .inl hj
  | settledAnswered hc =>
      rcases getElem?_set_cases hj with ⟨rfl, rfl⟩ | ⟨-, hj⟩
      · exact .inr (.settledAnswered rfl hc)
      · exact .inl hj
  | ticked | disposed => exact .inl hj

/-- A settled call keeps its record. -/
theorem Trans.settled {s s' : BreakerSystem O R} {a : Action R} {es : List (Event R)}
    (ht : Trans opts s a s' es) {j : Nat} {inner : Option (Outcome R)} {r : Outcome R}
    (hj : s.calls[j]? = some (.settled inner r)) : s'.calls[j]? = some (.settled inner r) := by
  -- no step concerns a settled call, so the one it changes is another
  have hset : ∀ {k : Nat} {c c' : Call R}, s.calls[k]? = some c → c ≠ .settled inner r →
      (s.calls.set k c')[j]? = some (.settled inner r) := by
    intro k c c' hk hne
    have hkj : k ≠ j := by
      intro heq
      subst heq
      exact hne (Option.some.inj (hk.symm.trans hj))
    rw [List.getElem?_set_ne hkj, hj]
  cases ht with
  | admitted | refused =>
      rw [List.getElem?_append_left (List.getElem?_eq_some_iff.mp hj).1, hj]
  | succeeded hc | counted hc | tripped hc | emitted hc | settledRefused hc | settledAnswered hc =>
      exact hset hc (by simp)
  | ticked | disposed => exact hj

end BreakerSystem

/-! ### The view before `dispose()` -/

namespace BreakerView

/-- The circuit refuses calls: it is open, or half-open with the probe out. -/
def Blocks (v : BreakerView) : Prop :=
  v.state = .opened ∨ (v.state = .halfOpen ∧ v.pendingClose = false)

/-- What holds of the breaker as long as nobody disposed the adapter. -/
structure Live (v : BreakerView) : Prop where
  enabled : v.enabled = true
  internal : v.internal = true
  listeners : v.listeners = [.open, .halfOpen, .close]
  up : v.state ≠ .shutdown
  /-- The one reset timer runs exactly while the circuit is open. -/
  timer : v.resetTimer = true ↔ v.state = .opened

namespace Live

variable {v : BreakerView}

/-- Every transition reaches `onTransition` exactly once. -/
theorem emit_eq (hv : v.Live) (t : Transition) : v.emit t = [t] := by
  rw [BreakerView.emit, hv.listeners]
  cases t <;> rfl

theorem fire_of_blocks (hv : v.Live) (hb : v.Blocks) : v.fire = (.rejectOpen, v) := by
  simp only [BreakerView.fire, if_neg hv.up, hv.enabled, Bool.true_eq_false, if_false]
  exact if_pos hb

theorem fire_of_not_blocks (hv : v.Live) (hb : ¬ v.Blocks) :
    v.fire = (.run, { v with pendingClose := false }) := by
  simp only [BreakerView.fire, if_neg hv.up, hv.enabled, Bool.true_eq_false, if_false]
  exact if_neg hb

theorem fire_ne_rejectShutdown (hv : v.Live) : v.fire.1 ≠ .rejectShutdown := by
  by_cases hb : v.Blocks
  · simp [hv.fire_of_blocks hb]
  · simp [hv.fire_of_not_blocks hb]

theorem open_of_ne (hv : v.Live) (hs : v.state ≠ .opened) :
    v.open = ({ v with state := .opened, pendingClose := false, resetTimer := true }, [.open]) := by
  rw [BreakerView.open, if_neg hs, hv.emit_eq, hv.internal]

theorem success_of_halfOpen (hv : v.Live) (hs : v.state = .halfOpen) :
    v.success =
      ({ v with state := .closed, pendingClose := false, resetTimer := false }, [.close]) := by
  rw [BreakerView.success, if_pos ⟨hv.internal, hs⟩, BreakerView.close, if_neg (by simp [hs]),
    hv.emit_eq]

/-- The timer can only tick on an open circuit, and enters half-open. -/
theorem resetTimeout_eq_some (hv : v.Live) {v' : BreakerView} {ts : List Transition}
    (h : v.resetTimeout = some (v', ts)) :
    v.state = .opened ∧ ts = [.halfOpen] ∧
      v' = { v with state := .halfOpen, pendingClose := true, resetTimer := false } := by
  unfold BreakerView.resetTimeout at h
  split at h
  · next ht =>
    simp only [Option.some.injEq, Prod.mk.injEq, hv.emit_eq] at h
    exact ⟨hv.timer.mp ht, h.2.symm, h.1.symm⟩
  · cases h

end Live

theorem open_of_opened {v : BreakerView} (hs : v.state = .opened) : v.open = (v, []) :=
  if_pos hs

theorem success_of_ne_halfOpen {v : BreakerView} (hs : v.state ≠ .halfOpen) :
    v.success = (v, []) :=
  if_neg fun h => hs h.2

/-- The constructor leaves a live breaker behind. -/
theorem live_new : (O.view (Adapter.new O).breaker).Live := by
  have hview : O.view (Adapter.new O).breaker =
      ((BreakerView.create.on .open).on .halfOpen).on .close := by
    simp [Adapter.new, Adapter.wireEvents]
  rw [hview]
  exact ⟨rfl, rfl, rfl, by decide, by decide⟩

end BreakerView

namespace BreakerSystem

theorem view_mk (a : Adapter O) (cs : List (Call R)) :
    BreakerSystem.view ⟨a, cs⟩ = O.view a.breaker := rfl

/-- The steps of an adapter that nobody disposed, with their effect on the
breaker written out. -/
inductive LiveTrans (opts : CbOptions) (s : BreakerSystem O R) :
    Action R → BreakerSystem O R → List (Event R) → Prop
  | admitted {b : O.Breaker} :
      ¬ s.view.Blocks →
      O.view b = { s.view with pendingClose := false } →
      LiveTrans opts s .fire
        ⟨{ s.adapter with breaker := b }, s.calls ++ [.running true]⟩
        [.invoked s.calls.length]
  | refused {b : O.Breaker} :
      s.view.Blocks →
      O.view b = s.view →
      LiveTrans opts s .fire
        ⟨{ s.adapter with breaker := b }, s.calls ++ [.refused Opossum.breakerOpenError]⟩
        [.refused s.calls.length]
  | succeeded {i : Nat} {tracked : Bool} {r : R} :
      s.calls[i]? = some (.running tracked) →
      LiveTrans opts s (.complete i (.fulfilled r))
        ⟨{ s.adapter with consecutiveFailures := 0 },
          s.calls.set i (afterWrap tracked (.fulfilled r))⟩
        [.completed i (.fulfilled r)]
  /-- A failure opens the circuit. -/
  | tripped {i : Nat} {tracked : Bool} {e : Thrown} {b : O.Breaker} :
      s.calls[i]? = some (.running tracked) →
      s.view.state ≠ .opened →
      (s.view.state = .halfOpen ∨
        opts.consecutiveThreshold ≤ s.adapter.consecutiveFailures + 1) →
      O.view b = { s.view with state := .opened, pendingClose := false, resetTimer := true } →
      LiveTrans opts s (.complete i (.rejected e))
        ⟨{ s.adapter with breaker := b, consecutiveFailures := 0 },
          s.calls.set i (afterWrap tracked (.rejected e))⟩
        [.completed i (.rejected e), .transition .open]
  /-- A failure reaches the threshold while the circuit is open already. -/
  | retripped {i : Nat} {tracked : Bool} {e : Thrown} {b : O.Breaker} :
      s.calls[i]? = some (.running tracked) →
      s.view.state = .opened →
      O.view b = s.view →
      LiveTrans opts s (.complete i (.rejected e))
        ⟨{ s.adapter with breaker := b, consecutiveFailures := 0 },
          s.calls.set i (afterWrap tracked (.rejected e))⟩
        [.completed i (.rejected e)]
  | counted {i : Nat} {tracked : Bool} {e : Thrown} :
      s.calls[i]? = some (.running tracked) →
      s.view.state ≠ .halfOpen →
      s.adapter.consecutiveFailures + 1 < opts.consecutiveThreshold →
      LiveTrans opts s (.complete i (.rejected e))
        ⟨{ s.adapter with consecutiveFailures := s.adapter.consecutiveFailures + 1 },
          s.calls.set i (afterWrap tracked (.rejected e))⟩
        [.completed i (.rejected e)]
  /-- `'success'` arrives in half-open and closes the circuit. -/
  | closed {i : Nat} {o : Outcome R} {b : O.Breaker} :
      s.calls[i]? = some (.returned o) →
      s.view.state = .halfOpen →
      O.view b = { s.view with state := .closed, pendingClose := false, resetTimer := false } →
      LiveTrans opts s (.emit i)
        ⟨{ s.adapter with breaker := b }, s.calls.set i (.answered o)⟩
        [.transition .close]
  /-- `'success'` arrives in another state. -/
  | emitted {i : Nat} {o : Outcome R} {b : O.Breaker} :
      s.calls[i]? = some (.returned o) →
      s.view.state ≠ .halfOpen →
      O.view b = s.view →
      LiveTrans opts s (.emit i)
        ⟨{ s.adapter with breaker := b }, s.calls.set i (.answered o)⟩ []
  | settledRefused {i : Nat} {e : Thrown} :
      s.calls[i]? = some (.refused e) →
      LiveTrans opts s (.settle i)
        ⟨s.adapter, s.calls.set i (.settled none (s.adapter.fireCatch opts (.rejected e)))⟩
        [.settled i (s.adapter.fireCatch opts (.rejected e))]
  | settledAnswered {i : Nat} {o : Outcome R} :
      s.calls[i]? = some (.answered o) →
      LiveTrans opts s (.settle i)
        ⟨s.adapter, s.calls.set i (.settled (some o) (s.adapter.fireCatch opts o))⟩
        [.settled i (s.adapter.fireCatch opts o)]
  | ticked {b : O.Breaker} :
      s.calls.any Call.pending = false →
      s.view.state = .opened →
      O.view b = { s.view with state := .halfOpen, pendingClose := true, resetTimer := false } →
      LiveTrans opts s .tick ⟨{ s.adapter with breaker := b }, s.calls⟩ [.transition .halfOpen]

/-- On a live breaker every step except `dispose()` is one of `LiveTrans`. -/
theorem Trans.live {s s' : BreakerSystem O R} {a : Action R} {es : List (Event R)}
    (h : Trans opts s a s' es) (hv : s.view.Live) (ha : a ≠ .dispose) :
    LiveTrans opts s a s' es := by
  cases h with
  -- The breaker lets a call in iff it does not block, and tracks all it lets in.
  | admitted tracked hf =>
      by_cases hb : s.view.Blocks
      · rw [hv.fire_of_blocks hb] at hf
        cases tracked <;> simp at hf
      · rw [hv.fire_of_not_blocks hb] at hf
        cases tracked with
        | true => exact .admitted hb (congrArg Prod.snd hf).symm
        | false => simp at hf
  | refused hf hb' =>
      by_cases hb : s.view.Blocks
      · rw [hv.fire_of_blocks hb] at hf
        obtain rfl := by simpa using hf
        exact .refused hb hb'
      · rw [hv.fire_of_not_blocks hb] at hf
        simp at hf
  | succeeded hc => exact .succeeded hc
  -- An open circuit is opened again without an event.
  | tripped hc hwhy hopen =>
      by_cases hs : s.view.state = .opened
      · rw [BreakerView.open_of_opened hs, Prod.mk.injEq] at hopen
        obtain ⟨hb, rfl⟩ := hopen
        exact .retripped hc hs hb.symm
      · rw [hv.open_of_ne hs, Prod.mk.injEq] at hopen
        obtain ⟨hb, rfl⟩ := hopen
        exact .tripped hc hs hwhy hb.symm
  | counted hc hs hn => exact .counted hc hs hn
  -- Only a half-open circuit is closed by a success.
  | emitted hc hsucc =>
      by_cases hs : s.view.state = .halfOpen
      · rw [hv.success_of_halfOpen hs, Prod.mk.injEq] at hsucc
        obtain ⟨hb, rfl⟩ := hsucc
        exact .closed hc hs hb.symm
      · rw [BreakerView.success_of_ne_halfOpen hs, Prod.mk.injEq] at hsucc
        obtain ⟨hb, rfl⟩ := hsucc
        exact .emitted hc hs hb.symm
  | settledRefused hc => exact .settledRefused hc
  | settledAnswered hc => exact .settledAnswered hc
  | ticked hp ht =>
      obtain ⟨hs, rfl, hb⟩ := hv.resetTimeout_eq_some ht
      exact .ticked hp hs hb
  | disposed => exact absurd rfl ha

/-- A live breaker stays live. -/
theorem LiveTrans.live {s s' : BreakerSystem O R} {a : Action R} {es : List (Event R)}
    (h : LiveTrans opts s a s' es) (hv : s.view.Live) : s'.view.Live := by
  obtain ⟨he, hi, hl, hu, ht⟩ := hv
  cases h with
  | succeeded | counted | settledRefused | settledAnswered => exact ⟨he, hi, hl, hu, ht⟩
  | refused _ hb | retripped _ _ hb | emitted _ _ hb =>
      simp only [view_mk, hb]
      exact ⟨he, hi, hl, hu, ht⟩
  | admitted _ hb =>
      simp only [view_mk, hb]
      exact ⟨he, hi, hl, hu, ht⟩
  | tripped _ _ _ hb | closed _ _ hb | ticked _ _ hb =>
      simp only [view_mk, hb]
      exact ⟨he, hi, hl, by simp, by simp⟩

end BreakerSystem

end EmailPlatform.Http
