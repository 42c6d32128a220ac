import EmailPlatform.Http.CircuitBreakerStep

/-!
# EmailPlatform.Http.CircuitBreakerCalls

The history of one call. Whatever happens around it, the events that mention call
`i` are exactly the trace its record stands for (`trace_of_reaches`): one decision
of opossum, then at most one completion, then at most one settlement. Facts about
single calls are read off this equation instead of being proved by their own
inductions. It holds in all runs, with or without `dispose()`.
-/

namespace EmailPlatform.Http

variable {O : Opossum} {R : Type} {opts : CbOptions}

/-- The event mentions call `i`. -/
def Event.about (i : Nat) : Event R → Bool
  | .invoked j | .refused j | .completed j _ | .settled j _ => j == i
  | .transition _ | .disposed => false

/-- The events a record of call `i` stands for. -/
def Call.trace (i : Nat) : Call R → List (Event R)
  | .refused _ => [.refused i]
  | .running _ => [.invoked i]
  | .returned o | .answered o => [.invoked i, .completed i o]
  | .settled (some o) r => [.invoked i, .completed i o, .settled i r]
  | .settled none r => [.refused i, .settled i r]

/-- The trace of call `i` among `calls`; empty when there is no such call yet. -/
def traceAt (calls : List (Call R)) (i : Nat) : List (Event R) :=
  match calls[i]? with
  | some c => c.trace i
  | none => []

theorem traceAt_of_getElem? {calls : List (Call R)} {i : Nat} {c : Call R}
    (h : calls[i]? = some c) : traceAt calls i = c.trace i := by
  rw [traceAt, h]

/-- A step that adds call `calls.length` and mentions no other call. -/
theorem traceAt_concat {calls : List (Call R)} {c : Call R} {es : List (Event R)}
    (hself : c.trace calls.length = es.filter (Event.about calls.length))
    (hother : ∀ i, calls.length ≠ i → es.filter (Event.about i) = []) (i : Nat) :
    traceAt (calls ++ [c]) i = traceAt calls i ++ es.filter (Event.about i) := by
  rcases Nat.lt_trichotomy i calls.length with hi | hi | hi
  · rw [hother i (by omega), List.append_nil, traceAt, traceAt, List.getElem?_append_left hi]
  · rw [hi, traceAt_of_getElem? (c := c) (by simp), traceAt, List.getElem?_eq_none le_rfl, hself]
    rfl
  · rw [hother i (by omega), List.append_nil, traceAt, traceAt,
      List.getElem?_eq_none (by simp; omega), List.getElem?_eq_none (by omega)]

/-- A step that moves call `k` on and mentions no other call. -/
theorem traceAt_set {calls : List (Call R)} {k : Nat} {c c' : Call R} {es : List (Event R)}
    (hk : calls[k]? = some c)
    (hself : c'.trace k = c.trace k ++ es.filter (Event.about k))
    (hother : ∀ i, k ≠ i → es.filter (Event.about i) = []) (i : Nat) :
    traceAt (calls.set k c') i = traceAt calls i ++ es.filter (Event.about i) := by
  by_cases hi : k = i
  · subst hi
    have hlt : k < calls.length := (List.getElem?_eq_some_iff.mp hk).1
    rw [traceAt_of_getElem? (List.getElem?_set_self hlt), traceAt_of_getElem? hk, hself]
  · rw [hother i hi, List.append_nil, traceAt, traceAt, List.getElem?_set_ne hi]

/-- Transitions mention no call. -/
@[simp] theorem filter_about_transitions (i : Nat) (ts : List Transition) :
    (ts.map (Event.transition (R := R))).filter (Event.about i) = [] := by
  simp [List.filter_eq_nil_iff, Event.about]

@[simp] theorem trace_afterWrap (i : Nat) (tracked : Bool) (o : Outcome R) :
    (BreakerSystem.afterWrap tracked o).trace i = [.invoked i, .completed i o] := by
  cases tracked <;> rfl

namespace BreakerSystem

variable {h es : List (Event R)} {s s' : BreakerSystem O R} {a : Action R}

/-- One step appends to the trace of the call it concerns, and to no other. -/
theorem Trans.trace (ht : Trans opts s a s' es) (i : Nat) :
    traceAt s'.calls i = traceAt s.calls i ++ es.filter (Event.about i) := by
  cases ht with
  | admitted | refused =>
      exact traceAt_concat (by simp [Event.about, Call.trace]) (by simp [Event.about]) i
  | succeeded hc | counted hc | tripped hc =>
      refine traceAt_set hc ?_ (by simp [Event.about]) i
      rw [trace_afterWrap]
      simp [Event.about, Call.trace]
  | emitted hc =>
      exact traceAt_set hc (by simp [Call.trace]) (by simp) i
  | settledRefused hc | settledAnswered hc =>
      exact traceAt_set hc (by simp [Event.about, Call.trace]) (by simp [Event.about]) i
  | ticked => simp
  | disposed => simp [Event.about]

end BreakerSystem

/-- **The events of a call are its trace**, in every run. -/
theorem trace_of_reaches {h : List (Event R)} {s : BreakerSystem O R}
    (hr : (BreakerSystem.machine O R opts).Reaches h s) (i : Nat) :
    h.filter (Event.about i) = traceAt s.calls i := by
  refine Machine.Reaches.invariant (I := fun h s => h.filter (Event.about i) = traceAt s.calls i)
    ?_ ?_ hr
  · simp [traceAt, BreakerSystem.machine]
  · intro h s a s' es _ hi hs
    rw [List.filter_append, hi, (BreakerSystem.trans_of_step hs).trace i]

/-- An event about call `i` has happened exactly when its record's trace has it. -/
theorem mem_iff_mem_trace {h : List (Event R)} {s : BreakerSystem O R}
    (hr : (BreakerSystem.machine O R opts).Reaches h s) {i : Nat} {e : Event R}
    (he : e.about i = true) : e ∈ h ↔ ∃ c, s.calls[i]? = some c ∧ e ∈ c.trace i := by
  have hfilter : e ∈ h ↔ e ∈ traceAt s.calls i := by
    rw [← trace_of_reaches hr i, List.mem_filter, and_iff_left he]
  rw [hfilter, traceAt]
  cases s.calls[i]? <;> simp

theorem invoked_mem_iff_call {h : List (Event R)} {s : BreakerSystem O R}
    (hr : (BreakerSystem.machine O R opts).Reaches h s) {i : Nat} :
    Event.invoked i ∈ h ↔ ∃ c, s.calls[i]? = some c ∧ c.invoked = true := by
  rw [mem_iff_mem_trace hr (i := i) (by simp [Event.about])]
  refine exists_congr fun c => and_congr_right fun _ => ?_
  rcases c with _ | _ | _ | _ | ⟨_ | _, _⟩ <;> simp [Call.trace, Call.invoked]

theorem refused_mem_iff_call {h : List (Event R)} {s : BreakerSystem O R}
    (hr : (BreakerSystem.machine O R opts).Reaches h s) {i : Nat} :
    Event.refused i ∈ h ↔ ∃ c, s.calls[i]? = some c ∧ c.invoked = false := by
  rw [mem_iff_mem_trace hr (i := i) (by simp [Event.about])]
  refine exists_congr fun c => and_congr_right fun _ => ?_
  rcases c with _ | _ | _ | _ | ⟨_ | _, _⟩ <;> simp [Call.trace, Call.invoked]

theorem completed_mem_iff_call {h : List (Event R)} {s : BreakerSystem O R}
    (hr : (BreakerSystem.machine O R opts).Reaches h s) {i : Nat} {o : Outcome R} :
    Event.completed i o ∈ h ↔ ∃ c, s.calls[i]? = some c ∧ c.outcome = some o := by
  rw [mem_iff_mem_trace hr (i := i) (by simp [Event.about])]
  refine exists_congr fun c => and_congr_right fun _ => ?_
  rcases c with _ | _ | _ | _ | ⟨_ | _, _⟩ <;> simp [Call.trace, Call.outcome, eq_comm]

theorem settled_mem_iff_call {h : List (Event R)} {s : BreakerSystem O R}
    (hr : (BreakerSystem.machine O R opts).Reaches h s) {i : Nat} {r : Outcome R} :
    Event.settled i r ∈ h ↔ ∃ inner, s.calls[i]? = some (.settled inner r) := by
  rw [mem_iff_mem_trace hr (i := i) (by simp [Event.about])]
  constructor
  · intro ⟨c, hc, hmem⟩
    rcases c with _ | _ | _ | _ | ⟨_ | o, _⟩ <;> simp [Call.trace] at hmem
    · exact ⟨none, hmem ▸ hc⟩
    · exact ⟨some o, hmem ▸ hc⟩
  · intro hex
    obtain ⟨_ | o, hc⟩ := hex
    · exact ⟨_, hc, by simp [Call.trace]⟩
    · exact ⟨_, hc, by simp [Call.trace]⟩

end EmailPlatform.Http
