import EmailPlatform.Core.Machine
import Mathlib.Algebra.GroupWithZero.Nat
import Mathlib.Algebra.BigOperators.Group.List.Basic

/-!
# EmailPlatform.Core.Progress

**Where a machine ends up.** The rules of `EmailPlatform.Core.Machine` say what no run ever
does; these say what every run comes to. `Performs` is a stretch of a run, `Rests` a state
that no action of a class leaves, and a `Variant` a number that each action of the class makes
smaller. With a variant every stretch is finite, with a bound on its length, so a machine left
to these actions comes to rest; what rest means is then a fact about single states.

`weight` is the variant of a system of parts: the sum of the weights of its parts.
-/

namespace EmailPlatform

/-! ### The weight of a list of parts -/

section Weight

variable {α : Type*}

/-- The parts weighed together. -/
def weight (w : α → ℕ) (l : List α) : ℕ := (l.map w).sum

@[simp] theorem weight_nil (w : α → ℕ) : weight w ([] : List α) = 0 := rfl

@[simp] theorem weight_cons (w : α → ℕ) (x : α) (l : List α) :
    weight w (x :: l) = w x + weight w l := by
  simp [weight]

/-- Exchanging one part exchanges its weight. -/
theorem weight_set {w : α → ℕ} {l : List α} {i : ℕ} {x : α} (h : l[i]? = some x) (y : α) :
    weight w (l.set i y) + w x = weight w l + w y := by
  induction l generalizing i with
  | nil => simp at h
  | cons z l ih =>
      cases i with
      | zero =>
          obtain rfl : z = x := by simpa using h
          simp only [List.set_cons_zero, weight_cons]
          omega
      | succ i =>
          have hi := ih (i := i) (by simpa using h)
          simp only [List.set_cons_succ, weight_cons]
          omega

/-- Parts that weigh at most `n` each. -/
theorem weight_le {w : α → ℕ} {l : List α} {n : ℕ} (h : ∀ x ∈ l, w x ≤ n) :
    weight w l ≤ n * l.length := by
  induction l with
  | nil => simp
  | cons x l ih =>
      have hx := h x List.mem_cons_self
      have hl := ih fun y hy => h y (List.mem_cons_of_mem _ hy)
      rw [weight_cons, List.length_cons, Nat.mul_succ]
      omega

end Weight

namespace Machine

variable {S A E : Type*} {M : Machine S A E} {P : S → A → Prop}

/-- `M.Performs P s as es s'`: the actions `as`, all of them of the class `P`, lead from `s`
to `s'` and emit `es`. -/
inductive Performs (M : Machine S A E) (P : S → A → Prop) : S → List A → List E → S → Prop
  | nil (s : S) : Performs M P s [] [] s
  | cons {s s₁ s' : S} {a : A} {as : List A} {es₁ es : List E} :
      P s a → M.step s a = some (s₁, es₁) → Performs M P s₁ as es s' →
      Performs M P s (a :: as) (es₁ ++ es) s'

/-- A stretch of one action. -/
theorem Performs.one {s s' : S} {a : A} {es : List E} (ha : P s a)
    (hs : M.step s a = some (s', es)) : M.Performs P s [a] es s' := by
  have hp := Performs.cons ha hs (.nil s')
  rwa [List.append_nil] at hp

/-- A step that emits nothing, before a stretch. -/
theorem Performs.cons_silent {s s₁ s' : S} {a : A} {as : List A} {es : List E} (ha : P s a)
    (hs : M.step s a = some (s₁, [])) (hp : M.Performs P s₁ as es s') :
    M.Performs P s (a :: as) es s' :=
  .cons ha hs hp

/-- A run goes on with a stretch of allowed actions. -/
theorem Performs.reachesWhen {C : List E → S → A → Prop} (hC : ∀ {h s a}, P s a → C h s a)
    {s s' : S} {as : List A} {es : List E} (hp : M.Performs P s as es s') :
    ∀ {h : List E}, M.ReachesWhen C h s → M.ReachesWhen C (h ++ es) s' := by
  induction hp with
  | nil s =>
      intro h hr
      rwa [List.append_nil]
  | cons ha hs _ ih =>
      intro h hr
      rw [← List.append_assoc]
      exact ih (hr.step (hC ha) hs)

theorem Performs.reaches {s s' : S} {as : List A} {es : List E} (hp : M.Performs P s as es s')
    {h : List E} (hr : M.Reaches h s) : M.Reaches (h ++ es) s' :=
  hp.reachesWhen (fun _ => trivial) hr

/-- An execution is a stretch. -/
theorem performs_of_runWhen [∀ s a, Decidable (P s a)] {as : List A} :
    ∀ {h h' : List E} {s s' : S}, M.runWhen (fun _ => P) h s as = some (h', s') →
      ∃ es, h' = h ++ es ∧ M.Performs P s as es s' := by
  induction as with
  | nil =>
      intro h h' s s' hrun
      obtain ⟨rfl, rfl⟩ : h = h' ∧ s = s' := by simpa [runWhen] using hrun
      exact ⟨[], (List.append_nil h).symm, .nil s⟩
  | cons a as ih =>
      intro h h' s s' hrun
      rw [runWhen] at hrun
      split at hrun
      · next ha =>
        cases hs : M.step s a with
        | none => simp [hs] at hrun
        | some p =>
            obtain ⟨s₁, es₁⟩ := p
            simp only [hs] at hrun
            obtain ⟨es, rfl, hp⟩ := ih hrun
            exact ⟨es₁ ++ es, List.append_assoc .., .cons ha hs hp⟩
      · simp at hrun

/-- A run and a stretch that follows it, both executed, to a state with some decidable
property. -/
theorem exists_performs {C : List E → S → A → Prop} [∀ h s a, Decidable (C h s a)]
    [∀ s a, Decidable (P s a)] (as bs : List A) {Q : S → S → Prop} [∀ s s', Decidable (Q s s')]
    (hexec : (M.execWhen C as).any (fun p =>
      (M.runWhen (fun _ => P) p.1 p.2 bs).any fun r => decide (Q p.2 r.2)) = true) :
    ∃ h s es s', M.ReachesWhen C h s ∧ M.Performs P s bs es s' ∧ Q s s' := by
  obtain ⟨⟨h, s⟩, hrun, hrest⟩ := (Option.any_eq_true _ _).mp hexec
  obtain ⟨⟨h', s'⟩, hrun', hQ⟩ := (Option.any_eq_true _ _).mp hrest
  obtain ⟨es, -, hp⟩ := performs_of_runWhen hrun'
  exact ⟨h, s, es, s', ReachesWhen.init.runWhen hrun, hp, of_decide_eq_true hQ⟩

/-- No action of the class can happen. -/
def Rests (M : Machine S A E) (P : S → A → Prop) (s : S) : Prop :=
  ∀ a, P s a → M.step s a = none

/-- `measure` falls with every action of the class, on the states of `I`. -/
structure Variant (M : Machine S A E) (P : S → A → Prop) (I : S → Prop) (measure : S → ℕ) :
    Prop where
  keeps : ∀ {s a s' es}, I s → P s a → M.step s a = some (s', es) → I s'
  falls : ∀ {s a s' es}, I s → P s a → M.step s a = some (s', es) → measure s' < measure s

namespace Variant

variable {I : S → Prop} {measure : S → ℕ}

/-- A stretch takes at least its length off the variant. -/
theorem length_le (hv : M.Variant P I measure) {s s' : S} {as : List A} {es : List E}
    (hp : M.Performs P s as es s') : I s → as.length + measure s' ≤ measure s := by
  induction hp with
  | nil => simp
  | cons ha hs _ ih =>
      intro hi
      have hrest := ih (hv.keeps hi ha hs)
      have hfall := hv.falls hi ha hs
      rw [List.length_cons]
      omega

end Variant

end Machine

end EmailPlatform
