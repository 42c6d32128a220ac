import EmailPlatform.Core.List
import Mathlib.Tactic.Common

/-!
# EmailPlatform.Core.Machine

**Machines with observable output.** A machine is a start state and a partial
step function: an action is either not enabled (`none`) or leads to one new
state and emits a list of events. The events of a run, in order, are its
*history*, so a property "over any interleaving" is a property of every history
and state that some sequence of actions reaches.

The layer has three parts:

* `ReachesWhen C h s` — reachability by a run all of whose steps meet `C`, read
  in the state *before* the step together with the history so far. Ordinary
  reachability is the case `C = ⊤`. Restricting the steps rather than the
  machine keeps one machine for a law and for the condition under which it holds.
* the invariant rules (`ReachesWhen.invariant_of`, `ReachesWhen.since`), the
  only inductions over runs that the rest of the development performs;
* `Simulation` — stuttering simulations, along which whole runs are carried from
  one machine to another with their histories projected event by event.
-/

namespace EmailPlatform

/-- A deterministic machine over states `S`, actions `A` and events `E`. -/
structure Machine (S A E : Type*) where
  /-- The state before any action. -/
  init : S
  /-- `none` when the action is not enabled. -/
  step : S → A → Option (S × List E)

namespace Machine

variable {S A E T B F : Type*} {M : Machine S A E} {N : Machine T B F}

/-- A step behind a guard: the guard holds, and the step is the one it guards. -/
theorem of_guarded {p : Prop} [Decidable p] {s s' : S} {es es' : List E}
    (h : (if p then some (s, es) else none) = some (s', es')) : p ∧ s = s' ∧ es = es' := by
  obtain ⟨hp, heq⟩ := Option.ite_none_right_eq_some.mp h
  exact ⟨hp, Prod.mk.inj (Option.some.inj heq)⟩

/-! ### Reachability -/

/-- `M.ReachesWhen C h s`: a run with history `h` ends in `s`, and each of its
steps met `C` in the state before it. -/
inductive ReachesWhen (M : Machine S A E) (C : List E → S → A → Prop) : List E → S → Prop
  /-- Nothing has happened yet. -/
  | init : ReachesWhen M C [] M.init
  /-- One more enabled step that meets `C`. -/
  | step {h : List E} {s s' : S} {a : A} {es : List E} :
      ReachesWhen M C h s → C h s a → M.step s a = some (s', es) →
      ReachesWhen M C (h ++ es) s'

/-- Reachability by any run. -/
def Reaches (M : Machine S A E) : List E → S → Prop :=
  M.ReachesWhen fun _ _ _ => True

theorem ReachesWhen.mono {C C' : List E → S → A → Prop} {h : List E} {s : S}
    (hr : M.ReachesWhen C h s) (hC : ∀ h s a, C h s a → C' h s a) : M.ReachesWhen C' h s := by
  induction hr with
  | init => exact .init
  | step _ hc hs ih => exact .step ih (hC _ _ _ hc) hs

theorem ReachesWhen.reaches {C : List E → S → A → Prop} {h : List E} {s : S}
    (hr : M.ReachesWhen C h s) : M.Reaches h s :=
  hr.mono fun _ _ _ _ => trivial

theorem Reaches.init : M.Reaches [] M.init := ReachesWhen.init

theorem Reaches.step {h : List E} {s s' : S} {a : A} {es : List E}
    (hr : M.Reaches h s) (hs : M.step s a = some (s', es)) : M.Reaches (h ++ es) s' :=
  ReachesWhen.step hr trivial hs

/-! ### Invariants -/

/-- The invariant rule with access to the run: a step may use that its source
state is reachable under `C`, hence every invariant proved before. -/
theorem ReachesWhen.invariant_of {C : List E → S → A → Prop} {I : List E → S → Prop}
    (hinit : I [] M.init)
    (hstep : ∀ {h s a s' es}, M.ReachesWhen C h s → I h s → C h s a →
      M.step s a = some (s', es) → I (h ++ es) s')
    {h : List E} {s : S} (hr : M.ReachesWhen C h s) : I h s := by
  induction hr with
  | init => exact hinit
  | step hr hc hs ih => exact hstep hr ih hc hs

/-- The invariant rule over all runs. -/
theorem Reaches.invariant {I : List E → S → Prop} (hinit : I [] M.init)
    (hstep : ∀ {h s a s' es}, M.Reaches h s → I h s →
      M.step s a = some (s', es) → I (h ++ es) s')
    {h : List E} {s : S} (hr : M.Reaches h s) : I h s :=
  ReachesWhen.invariant_of hinit (fun hr hi _ hs => hstep hr hi hs) hr

/-- The rule for what holds since an event `m`: a property of the history before `m`,
the history since and the state. It is enough that `m` establishes it and that every
later step preserves it. -/
theorem ReachesWhen.since {C : List E → S → A → Prop} {m : E} {J : List E → List E → S → Prop}
    (hmark : ∀ {h s a s' l₁ l₂}, M.ReachesWhen C h s → C h s a →
      M.step s a = some (s', l₁ ++ m :: l₂) → J (h ++ l₁) l₂ s')
    (hstep : ∀ {h₁ h₂ s a s' es}, M.ReachesWhen C (h₁ ++ m :: h₂) s → J h₁ h₂ s →
      C (h₁ ++ m :: h₂) s a → M.step s a = some (s', es) → J h₁ (h₂ ++ es) s')
    {h₁ h₂ : List E} {s : S} (hr : M.ReachesWhen C (h₁ ++ m :: h₂) s) : J h₁ h₂ s := by
  generalize hh : h₁ ++ m :: h₂ = h at hr
  induction hr generalizing h₁ h₂ with
  | init => simp at hh
  | @step h s s' a es hr hc hs ih =>
      rcases List.append_eq_append_iff.mp hh with ⟨l, rfl, hl⟩ | ⟨l, rfl, rfl⟩
      · cases l with
        | nil =>
            -- `m` is the first event of this step
            rw [List.append_nil] at hr hc
            have hmk : J (h₁ ++ []) h₂ s' := hmark hr hc (hs.trans (by rw [hl]; rfl))
            rwa [List.append_nil] at hmk
        | cons b l =>
            -- `m` was emitted before this step
            obtain ⟨rfl, rfl⟩ := List.cons.inj hl
            exact hstep hr (ih rfl) hc hs
      · exact hmark hr hc hs

/-- Events after a marker: when the marker is emitted alone and every step after it
emits only events with `P`, all that follows it in a history has `P`. -/
theorem ReachesWhen.after {C : List E → S → A → Prop} {m : E} {P : E → Prop}
    (hmark : ∀ {s a s' es}, M.step s a = some (s', es) → m ∈ es → es = [m])
    (hafter : ∀ {h s a s' es}, M.ReachesWhen C h s → m ∈ h → C h s a →
      M.step s a = some (s', es) → ∀ e ∈ es, P e)
    {h₁ h₂ : List E} {s : S} (hr : M.ReachesWhen C (h₁ ++ m :: h₂) s) : ∀ e ∈ h₂, P e := by
  refine hr.since (J := fun _ l _ => ∀ e ∈ l, P e) ?_ ?_
  · intro h s a s' l₁ l₂ _ _ hs
    have hlen := congrArg List.length (hmark hs (by simp))
    simp only [List.length_append, List.length_cons, List.length_nil] at hlen
    rw [List.eq_nil_of_length_eq_zero (l := l₂) (by omega)]
    simp
  · intro h₁ h₂ s a s' es hr ih hc hs e he
    rcases List.mem_append.mp he with he | he
    · exact ih e he
    · exact hafter hr (by simp) hc hs e he

/-- A property of every prefix of a history: it is enough to look at the prefixes
that one more step adds. -/
theorem ReachesWhen.forall_prefix {C : List E → S → A → Prop} {P : List E → Prop} (hnil : P [])
    (hstep : ∀ {h s a s' es}, M.ReachesWhen C h s → C h s a → M.step s a = some (s', es) →
      ∀ es', es' <+: es → P (h ++ es'))
    {h : List E} {s : S} (hr : M.ReachesWhen C h s) : ∀ p, p <+: h → P p := by
  induction hr with
  | init =>
      intro p hp
      rw [List.prefix_nil.mp hp]
      exact hnil
  | @step h s s' a es hr hc hs ih =>
      intro p hp
      rcases List.prefix_or_prefix_of_prefix hp (List.prefix_append h es) with hph | ⟨t, rfl⟩
      · exact ih p hph
      · exact hstep hr hc hs t ((List.prefix_append_right_inj h).mp hp)

/-! ### Executable runs -/

/-- Perform a list of actions, checking `C` at each step. -/
def runWhen (M : Machine S A E) (C : List E → S → A → Prop)
    [∀ h s a, Decidable (C h s a)] : List E → S → List A → Option (List E × S)
  | h, s, [] => some (h, s)
  | h, s, a :: as =>
    if C h s a then
      match M.step s a with
      | some (s', es) => M.runWhen C (h ++ es) s' as
      | none => none
    else none

/-- Perform a list of actions from the start. -/
def execWhen (M : Machine S A E) (C : List E → S → A → Prop)
    [∀ h s a, Decidable (C h s a)] (as : List A) : Option (List E × S) :=
  M.runWhen C [] M.init as

theorem ReachesWhen.runWhen {C : List E → S → A → Prop} [∀ h s a, Decidable (C h s a)] :
    ∀ {as : List A} {h h' : List E} {s s' : S}, M.ReachesWhen C h s →
      M.runWhen C h s as = some (h', s') → M.ReachesWhen C h' s' := by
  intro as
  induction as with
  | nil =>
      intro h h' s s' hr hrun
      obtain ⟨rfl, rfl⟩ : h = h' ∧ s = s' := by simpa [Machine.runWhen] using hrun
      exact hr
  | cons a as ih =>
      intro h h' s s' hr hrun
      rw [Machine.runWhen] at hrun
      split at hrun
      · next hc =>
        cases hs : M.step s a with
        | none => simp [hs] at hrun
        | some p =>
            obtain ⟨s₁, es⟩ := p
            simp only [hs] at hrun
            exact ih (.step hr hc hs) hrun
      · simp at hrun

/-- A successful execution from the start witnesses a run under `C`. -/
theorem reachesWhen_get {C : List E → S → A → Prop} [∀ h s a, Decidable (C h s a)]
    {as : List A} (hsome : (M.execWhen C as).isSome) :
    M.ReachesWhen C ((M.execWhen C as).get hsome).1 ((M.execWhen C as).get hsome).2 :=
  ReachesWhen.init.runWhen (Option.some_get hsome).symm

/-- The same for a run whose end is only known to have some decidable property. -/
theorem exists_reachesWhen_and {C : List E → S → A → Prop} [∀ h s a, Decidable (C h s a)]
    (as : List A) {P : List E → S → Prop} [∀ h s, Decidable (P h s)]
    (hexec : (M.execWhen C as).any (fun p => decide (P p.1 p.2)) = true) :
    ∃ h s, M.ReachesWhen C h s ∧ P h s := by
  obtain ⟨⟨h, s⟩, hrun, hP⟩ := (Option.any_eq_true _ _).mp hexec
  exact ⟨h, s, ReachesWhen.init.runWhen hrun, of_decide_eq_true hP⟩

/-- The same when only the history of the run matters. -/
theorem exists_reachesWhen {C : List E → S → A → Prop} [∀ h s a, Decidable (C h s a)]
    (as : List A) {h : List E} (hexec : (M.execWhen C as).map Prod.fst = some h) :
    ∃ s, M.ReachesWhen C h s := by
  obtain ⟨⟨h', s⟩, hrun, rfl⟩ := Option.map_eq_some_iff.mp hexec
  exact ⟨s, ReachesWhen.init.runWhen hrun⟩

/-! ### Stuttering simulations -/

/-- A functional simulation of the `C`-runs of `M` by `D`-runs of `N`: every step
of `M` is either invisible to `N` or one step of `N` with the projected events. -/
structure Simulation (M : Machine S A E) (C : List E → S → A → Prop)
    (N : Machine T B F) (D : List F → T → B → Prop) where
  /-- The `N`-state that an `M`-state stands for. -/
  abs : S → T
  /-- The `N`-event that an `M`-event stands for, if any. -/
  out : E → Option F
  abs_init : abs M.init = N.init
  abs_step : ∀ {h s a s' es}, M.ReachesWhen C h s → C h s a → M.step s a = some (s', es) →
    (abs s' = abs s ∧ es.filterMap out = []) ∨
      ∃ b, D (h.filterMap out) (abs s) b ∧ N.step (abs s) b = some (abs s', es.filterMap out)

/-- Runs are carried along a simulation, with their histories projected. -/
theorem Simulation.reachesWhen {C : List E → S → A → Prop} {D : List F → T → B → Prop}
    (R : Simulation M C N D) {h : List E} {s : S} (hr : M.ReachesWhen C h s) :
    N.ReachesWhen D (h.filterMap R.out) (R.abs s) := by
  refine ReachesWhen.invariant_of
    (I := fun h s => N.ReachesWhen D (h.filterMap R.out) (R.abs s))
    (by simpa [R.abs_init] using ReachesWhen.init) (fun hr hi hc hs => ?_) hr
  rw [List.filterMap_append]
  rcases R.abs_step hr hc hs with ⟨habs, hout⟩ | ⟨b, hd, hb⟩
  · rw [hout, List.append_nil, habs]
    exact hi
  · exact hi.step hd hb

end Machine

end EmailPlatform
