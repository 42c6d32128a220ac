import EmailPlatform.Core.Progress

/-!
# EmailPlatform.Core.Refinement

**One machine implements another.** Two machines are observed through views of their events.
A `Refinement` relates the states of an implementation to those of a specification, such that
every step of the implementation is invisible or answered by one step of the specification
that looks the same. Then whatever is seen of the implementation is seen of the specification
(`Refinement.reaches`).

In contrast to `Machine.Simulation` the specification's state need not be a function of the
implementation's: it may have stopped where the implementation goes on unobserved.
-/

namespace EmailPlatform

namespace Machine

variable {S A E T B F V : Type*}

/-- `M`, seen through `view`, implements `N`, seen through `view'`. -/
structure Refinement (M : Machine S A E) (N : Machine T B F) (view : E → Option V)
    (view' : F → Option V) where
  /-- The specification's state stands for the implementation's. -/
  rel : S → T → Prop
  init : rel M.init N.init
  step : ∀ {h s a s' es t}, M.Reaches h s → rel s t → M.step s a = some (s', es) →
    ∃ as fs t', N.Performs (fun _ _ => True) t as fs t' ∧ rel s' t' ∧
      es.filterMap view = fs.filterMap view'

section

variable {M : Machine S A E} {N : Machine T B F}

/-- Whatever is seen of the implementation, the specification can show. -/
theorem Refinement.reaches {view : E → Option V} {view' : F → Option V}
    (R : Refinement M N view view') {h : List E} {s : S} (hr : M.Reaches h s) :
    ∃ g t, N.Reaches g t ∧ R.rel s t ∧ h.filterMap view = g.filterMap view' := by
  refine Reaches.invariant (I := fun h s => ∃ g t, N.Reaches g t ∧ R.rel s t ∧
    h.filterMap view = g.filterMap view') ⟨[], N.init, .init, R.init, rfl⟩ ?_ hr
  intro h s a s' es hr hi hs
  obtain ⟨g, t, hg, hrel, hview⟩ := hi
  obtain ⟨as, fs, t', hp, hrel', hsame⟩ := R.step hr hrel hs
  exact ⟨g ++ fs, t', hp.reaches hg, hrel',
    by rw [List.filterMap_append, List.filterMap_append, hview, hsame]⟩

end

end Machine

end EmailPlatform
