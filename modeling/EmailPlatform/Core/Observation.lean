import EmailPlatform.Core.Machine

/-!
# EmailPlatform.Core.Observation

**What an observer can tell apart.** `Machine.observe` is a machine whose events are seen through a
view. Two machines that are one to the observer have the same runs for him: whatever happens in
one can happen in the other, with the same state in the end (`exists_reaches_of_observe_eq`).
-/

namespace EmailPlatform

namespace Machine

variable {S A E F V : Type*}

/-- The machine, with its events seen through `view`. -/
def observe (M : Machine S A E) (view : E → V) : Machine S A V where
  init := M.init
  step s a := (M.step s a).map fun p => (p.1, p.2.map view)

section

variable {M : Machine S A E} {N : Machine S A F}

theorem Reaches.observe {h : List E} {s : S} (hr : M.Reaches h s) (view : E → V) :
    (M.observe view).Reaches (h.map view) s := by
  refine Reaches.invariant (I := fun h s => (M.observe view).Reaches (h.map view) s) .init ?_ hr
  intro h s a s' es _ hi hs
  rw [List.map_append]
  exact hi.step (congrArg (Option.map _) hs)

/-- Every observation is one of a run. -/
theorem exists_reaches_of_observe {view : E → V} {g : List V} {s : S}
    (hr : (M.observe view).Reaches g s) : ∃ h, M.Reaches h s ∧ h.map view = g := by
  refine Reaches.invariant (I := fun g s => ∃ h, M.Reaches h s ∧ h.map view = g)
    ⟨[], .init, rfl⟩ ?_ hr
  intro g s a s' es _ hi hs
  obtain ⟨h, hr, rfl⟩ := hi
  obtain ⟨⟨s₁, es₁⟩, hs₁, heq⟩ := Option.map_eq_some_iff.mp hs
  obtain ⟨rfl, rfl⟩ := Prod.mk.inj heq
  exact ⟨h ++ es₁, hr.step hs₁, List.map_append⟩

/-- **Machines that look alike** have runs that look alike. -/
theorem exists_reaches_of_observe_eq {view : E → V} {view' : F → V}
    (heq : M.observe view = N.observe view') {h : List E} {s : S} (hr : M.Reaches h s) :
    ∃ g, N.Reaches g s ∧ g.map view' = h.map view := by
  have hobserved := hr.observe view
  rw [heq] at hobserved
  exact exists_reaches_of_observe hobserved

end

end Machine

end EmailPlatform
