import EmailPlatform.Core.AtomicObject

/-!
# EmailPlatform.Core.Linearization

**The order in which calls took effect.** A history of an atomic object is explained by a
sequential execution: its calls one after the other, each with its result, and the moves of the
environment in between (`Sequential`). The order is one that real time allows: a call that
returned before another began comes first (`IsLinearization`). `exists_linearization` gives one for
every run; what a reader can conclude from its results is then a matter of sequences.
-/

namespace EmailPlatform

variable {S O A I V : Type*}

/-- `a` and then `b` in a list with one element more. -/
theorem pair_sublist_concat_iff {α : Type*} {a b e : α} {l : List α} :
    List.Sublist [a, b] (l ++ [e]) ↔ List.Sublist [a, b] l ∨ (a ∈ l ∧ b = e) := by
  constructor
  · intro h
    obtain ⟨l₁, l₂, hsplit, h₁, h₂⟩ := List.sublist_append_iff.mp h
    cases l₂ with
    | nil =>
        rw [List.append_nil] at hsplit
        exact .inl (hsplit ▸ h₁)
    | cons c l₂ =>
        obtain ⟨rfl, rfl⟩ : l₂ = [] ∧ c = e := by
          have hlen := h₂.length_le
          have hmem := h₂.subset List.mem_cons_self
          exact ⟨List.length_eq_zero_iff.mp (by simpa using hlen), by simpa using hmem⟩
        obtain ⟨hinit, hlast⟩ := List.append_inj' (show [a] ++ [b] = l₁ ++ [c] from hsplit) rfl
        obtain rfl := (List.singleton_inj.mp hlast)
        exact .inr ⟨List.singleton_sublist.mp (hinit ▸ h₁), rfl⟩
  · rintro (h | ⟨ha, rfl⟩)
    · exact h.trans (List.sublist_append_left l [e])
    · exact (List.singleton_sublist.mpr ha).append (List.Sublist.refl [b])

/-! ### Real time -/

/-- Call `i` had returned before call `j` began. -/
def Precedes (h : List (CallEvent O A)) (i j : ℕ) : Prop :=
  ∃ a o, List.Sublist [.returned i a, .called j o] h

section RealTime

variable {h : List (CallEvent O A)} {i j k : ℕ} {o : O} {a : A}

theorem Precedes.exists_returned (hp : Precedes h i j) : ∃ a, .returned i a ∈ h := by
  obtain ⟨a, o, hsub⟩ := hp
  exact ⟨a, hsub.subset List.mem_cons_self⟩

theorem precedes_concat_called :
    Precedes (h ++ [.called k o]) i j ↔ Precedes h i j ∨ (j = k ∧ ∃ a, .returned i a ∈ h) := by
  constructor
  · rintro ⟨a, o', hsub⟩
    rcases pair_sublist_concat_iff.mp hsub with hsub | ⟨hmem, heq⟩
    · exact .inl ⟨a, o', hsub⟩
    · cases heq
      exact .inr ⟨rfl, a, hmem⟩
  · rintro (⟨a, o', hsub⟩ | ⟨rfl, a, hmem⟩)
    · exact ⟨a, o', pair_sublist_concat_iff.mpr (.inl hsub)⟩
    · exact ⟨a, o, pair_sublist_concat_iff.mpr (.inr ⟨hmem, rfl⟩)⟩

theorem precedes_concat_returned : Precedes (h ++ [.returned k a]) i j ↔ Precedes h i j := by
  constructor
  · rintro ⟨a', o, hsub⟩
    rcases pair_sublist_concat_iff.mp hsub with hsub | ⟨-, heq⟩
    · exact ⟨a', o, hsub⟩
    · cases heq
  · rintro ⟨a', o, hsub⟩
    exact ⟨a', o, pair_sublist_concat_iff.mpr (.inl hsub)⟩

end RealTime

/-! ### Sequential executions -/

/-- A call with its result, at the moment of its effect. -/
structure Effect (O A : Type*) where
  call : ℕ
  op : O
  result : A

section Sequential

variable (eff : I → O → S → A × S) (env : V → S → S)

/-- The effects `l` one after the other lead from a state to another, with moves of the
environment in between. -/
inductive Sequential : S → List (Effect O A) → S → Prop
  | nil (s : S) : Sequential s [] s
  | effect {s s' s'' : S} {l : List (Effect O A)} {x : I} {e : Effect O A} :
      Sequential s l s' → eff x e.op s' = (e.result, s'') → Sequential s (l ++ [e]) s''
  | env {s s' : S} {l : List (Effect O A)} (v : V) :
      Sequential s l s' → Sequential s l (env v s')

end Sequential

variable {eff : I → O → S → A × S} {env : V → S → S} {s₀ : S} {h : List (CallEvent O A)}
  {s s' : CallState S O A}

/-- Each effect is that of a state that the effects before it lead to. -/
theorem Sequential.split {s s' : S} {l l₁ l₂ : List (Effect O A)} {e : Effect O A}
    (hs : Sequential eff env s l s') (hl : l = l₁ ++ e :: l₂) :
    ∃ m m' x, Sequential eff env s l₁ m ∧ eff x e.op m = (e.result, m') := by
  induction hs generalizing l₂ with
  | nil => exact absurd hl (by simp)
  | @effect s' s'' l x d hs heff ih =>
      rcases List.eq_nil_or_concat l₂ with rfl | ⟨init, c, rfl⟩
      · obtain ⟨rfl, hd⟩ := List.append_inj' hl rfl
        obtain rfl := List.singleton_inj.mp hd
        exact ⟨s', s'', x, hs, heff⟩
      · rw [List.concat_eq_append, ← List.cons_append, ← List.append_assoc] at hl
        exact ih (List.append_inj' hl rfl).1
  | env v hs ih => exact ih hl

/-! ### Linearizations -/

/-- The effects, in an order that explains the history. -/
structure IsLinearization (h : List (CallEvent O A)) (l : List (Effect O A)) : Prop where
  /-- No call takes effect twice. -/
  nodup : (l.map Effect.call).Nodup
  called : ∀ e ∈ l, .called e.call e.op ∈ h
  /-- A call has taken effect when it returns, with the result that it returns. -/
  returned : ∀ {i a}, .returned i a ∈ h → ∃ o, ⟨i, o, a⟩ ∈ l
  realTime : l.Pairwise fun e e' => ¬ Precedes h e'.call e.call

/-- What is known of a call at its stage. -/
def StageLaw (h : List (CallEvent O A)) (l : List (Effect O A)) (i : ℕ) (o : O) :
    CallStage A → Prop
  | .called => (∀ e ∈ l, e.call ≠ i) ∧ ∀ a, .returned i a ∉ h
  | .effected a => ⟨i, o, a⟩ ∈ l ∧ ∀ a', .returned i a' ∉ h
  | .returned => ∃ a, ⟨i, o, a⟩ ∈ l ∧ .returned i a ∈ h

/-- What happens to other calls says nothing of this one. -/
theorem StageLaw.concat {l : List (Effect O A)} {i : ℕ} {o : O} {stage : CallStage A}
    (hlaw : StageLaw h l i o stage) {e : CallEvent O A} (he : ∀ a, e ≠ .returned i a) :
    StageLaw (h ++ [e]) l i o stage := by
  cases stage with
  | called => exact ⟨hlaw.1, fun a hmem => hlaw.2 a (mem_of_mem_concat hmem (he a))⟩
  | effected a => exact ⟨hlaw.1, fun a' hmem => hlaw.2 a' (mem_of_mem_concat hmem (he a'))⟩
  | returned =>
      obtain ⟨a, hmem, hreturned⟩ := hlaw
      exact ⟨a, hmem, List.mem_append_left _ hreturned⟩

/-- A call at another stage is the same call. -/
theorem exists_stage_set_iff {cs : List (O × CallStage A)} {i j : ℕ} {o o' : O}
    {stage : CallStage A} (hcall : cs[i]? = some (o, stage)) (stage' : CallStage A) :
    (∃ st, (cs.set i (o, stage'))[j]? = some (o', st)) ↔ ∃ st, cs[j]? = some (o', st) := by
  constructor
  · rintro ⟨st, hj⟩
    rcases getElem?_set_cases hj with ⟨rfl, heq⟩ | ⟨-, hj⟩
    · cases heq
      exact ⟨stage, hcall⟩
    · exact ⟨st, hj⟩
  · rintro ⟨st, hj⟩
    by_cases hij : i = j
    · subst hij
      obtain ⟨rfl, -⟩ := Prod.mk.inj (Option.some.inj (hcall.symm.trans hj))
      exact ⟨stage', List.getElem?_set_self (List.getElem?_eq_some_iff.mp hj).1⟩
    · exact ⟨st, (List.getElem?_set_ne hij).trans hj⟩

/-- The invariant of an atomic object, with the order so far. -/
structure Linearized (eff : I → O → S → A × S) (env : V → S → S) (s₀ : S)
    (h : List (CallEvent O A)) (s : CallState S O A) (l : List (Effect O A)) : Prop where
  sequential : Sequential eff env s₀ l s.store
  linearization : IsLinearization h l
  irrefl : ∀ i, ¬ Precedes h i i
  calls : ∀ {i o}, .called i o ∈ h ↔ ∃ stage, s.calls[i]? = some (o, stage)
  stages : ∀ {i o stage}, s.calls[i]? = some (o, stage) → StageLaw h l i o stage

section Steps

variable {l : List (Effect O A)} {i : ℕ} {o : O}

/-- Only calls that were made have returned or taken effect. -/
theorem Linearized.lt_of_mem (hl : Linearized eff env s₀ h s l) {e : Effect O A} (he : e ∈ l) :
    e.call < s.calls.length := by
  obtain ⟨stage, hcall⟩ := hl.calls.mp (hl.linearization.called e he)
  exact (List.getElem?_eq_some_iff.mp hcall).1

theorem Linearized.returned_notMem (hl : Linearized eff env s₀ h s l)
    (hi : s.calls.length ≤ i) (a : A) : .returned i a ∉ h := by
  intro hmem
  obtain ⟨o, he⟩ := hl.linearization.returned hmem
  exact absurd (hl.lt_of_mem he) (Nat.not_lt.mpr hi)

/-- A call has one operation. -/
theorem Linearized.op_eq (hl : Linearized eff env s₀ h s l) {o' : O} (ho : .called i o ∈ h)
    (ho' : .called i o' ∈ h) : o = o' := by
  obtain ⟨stage, hcall⟩ := hl.calls.mp ho
  obtain ⟨stage', hcall'⟩ := hl.calls.mp ho'
  exact (Prod.mk.inj (Option.some.inj (hcall.symm.trans hcall'))).1

/-- A call that has returned has taken effect as the operation that was called. -/
theorem Linearized.effect_of_returned (hl : Linearized eff env s₀ h s l) {a : A}
    (ho : .called i o ∈ h) (ha : .returned i a ∈ h) : ⟨i, o, a⟩ ∈ l := by
  obtain ⟨o', he⟩ := hl.linearization.returned ha
  rwa [hl.op_eq ho (hl.linearization.called _ he)]

/-- A call is made. -/
theorem Linearized.call (hl : Linearized eff env s₀ h s l) (o : O) :
    Linearized eff env s₀ (h ++ [.called s.calls.length o])
      { s with calls := s.calls ++ [(o, .called)] } l where
  sequential := hl.sequential
  linearization := by
    obtain ⟨hnodup, hcalled, hreturned, hreal⟩ := hl.linearization
    refine ⟨hnodup, fun e he => List.mem_append_left _ (hcalled e he), fun hmem => ?_, ?_⟩
    · exact hreturned (mem_of_mem_concat hmem (by simp))
    · refine hreal.imp_of_mem fun {e e'} he _ hno hp => ?_
      rcases precedes_concat_called.mp hp with hp | ⟨heq, -⟩
      · exact hno hp
      · exact absurd heq (Nat.ne_of_lt (hl.lt_of_mem he))
  irrefl i hp := by
    rcases precedes_concat_called.mp hp with hp | ⟨rfl, a, hmem⟩
    · exact hl.irrefl i hp
    · exact hl.returned_notMem (Nat.le_refl _) a hmem
  calls {i o'} := by
    constructor
    · intro hmem
      rcases List.mem_append.mp hmem with hmem | hmem
      · obtain ⟨stage, hcall⟩ := hl.calls.mp hmem
        exact ⟨stage, List.getElem?_append_left (List.getElem?_eq_some_iff.mp hcall).1 ▸ hcall⟩
      · cases List.mem_singleton.mp hmem
        exact ⟨.called, List.getElem?_concat_length⟩
    · rintro ⟨stage, hcall⟩
      rcases getElem?_concat_cases hcall with ⟨rfl, heq⟩ | hcall
      · cases heq
        simp
      · exact List.mem_append_left _ (hl.calls.mpr ⟨stage, hcall⟩)
  stages {i o' stage} hcall := by
    rcases getElem?_concat_cases hcall with ⟨rfl, heq⟩ | hcall
    · cases heq
      refine ⟨fun e he => Nat.ne_of_lt (hl.lt_of_mem he), fun a hmem => ?_⟩
      exact hl.returned_notMem (Nat.le_refl _) a (mem_of_mem_concat hmem (by simp))
    · exact (hl.stages hcall).concat (by simp)

/-- A call takes effect. -/
theorem Linearized.effect (hl : Linearized eff env s₀ h s l)
    (hcall : s.calls[i]? = some (o, .called)) (x : I) :
    Linearized eff env s₀ h
      ⟨(eff x o s.store).2, s.calls.set i (o, .effected (eff x o s.store).1)⟩
      (l ++ [⟨i, o, (eff x o s.store).1⟩]) where
  sequential := hl.sequential.effect rfl
  linearization := by
    obtain ⟨hnodup, hcalled, hreturned, hreal⟩ := hl.linearization
    obtain ⟨hfresh, hopen⟩ := hl.stages hcall
    refine ⟨?_, ?_, fun hmem => ?_, ?_⟩
    · rw [List.map_append, List.nodup_append]
      refine ⟨hnodup, by simp, fun j hj k hk => ?_⟩
      obtain ⟨e, he, rfl⟩ := List.mem_map.mp hj
      obtain rfl := List.mem_singleton.mp hk
      exact hfresh e he
    · intro e he
      rcases List.mem_append.mp he with he | he
      · exact hcalled e he
      · obtain rfl := List.mem_singleton.mp he
        exact hl.calls.mpr ⟨_, hcall⟩
    · obtain ⟨o', he⟩ := hreturned hmem
      exact ⟨o', List.mem_append_left _ he⟩
    · refine List.pairwise_append.mpr ⟨hreal, List.pairwise_singleton _ _, fun e _ e' he' hp => ?_⟩
      obtain rfl := List.mem_singleton.mp he'
      obtain ⟨a, hmem⟩ := hp.exists_returned
      exact hopen a hmem
  irrefl := hl.irrefl
  calls := hl.calls.trans (exists_stage_set_iff hcall _).symm
  stages {j o' stage} hj := by
    rcases getElem?_set_cases hj with ⟨rfl, heq⟩ | ⟨hji, hj⟩
    · cases heq
      exact ⟨by simp, (hl.stages hcall).2⟩
    · have hlaw := hl.stages hj
      cases stage with
      | called =>
          refine ⟨fun e he => ?_, hlaw.2⟩
          rcases List.mem_append.mp he with he | he
          · exact hlaw.1 e he
          · obtain rfl := List.mem_singleton.mp he
            exact Ne.symm hji
      | effected a => exact ⟨List.mem_append_left _ hlaw.1, hlaw.2⟩
      | returned =>
          obtain ⟨a, he, hmem⟩ := hlaw
          exact ⟨a, List.mem_append_left _ he, hmem⟩

/-- A call returns. -/
theorem Linearized.ret (hl : Linearized eff env s₀ h s l) {a : A}
    (hcall : s.calls[i]? = some (o, .effected a)) :
    Linearized eff env s₀ (h ++ [.returned i a])
      { s with calls := s.calls.set i (o, .returned) } l where
  sequential := hl.sequential
  linearization := by
    obtain ⟨hnodup, hcalled, hreturned, hreal⟩ := hl.linearization
    refine ⟨hnodup, fun e he => List.mem_append_left _ (hcalled e he), fun hmem => ?_, ?_⟩
    · rcases List.mem_append.mp hmem with hmem | hmem
      · exact hreturned hmem
      · cases List.mem_singleton.mp hmem
        exact ⟨o, (hl.stages hcall).1⟩
    · exact hreal.imp fun hno hp => hno (precedes_concat_returned.mp hp)
  irrefl i hp := hl.irrefl i (precedes_concat_returned.mp hp)
  calls {j o'} := by
    have hmem : .called j o' ∈ h ++ [.returned i a] ↔ CallEvent.called j o' ∈ h := by simp
    rw [hmem, hl.calls]
    exact (exists_stage_set_iff hcall _).symm
  stages {j o' stage} hj := by
    rcases getElem?_set_cases hj with ⟨rfl, heq⟩ | ⟨hji, hj⟩
    · cases heq
      exact ⟨a, (hl.stages hcall).1, by simp⟩
    · refine (hl.stages hj).concat fun a' heq => ?_
      cases heq
      exact hji rfl

end Steps

/-- **Every history of an atomic object has a linearization.** -/
theorem exists_linearization (hr : (atomicObject eff env s₀).Reaches h s) :
    ∃ l, Linearized eff env s₀ h s l := by
  refine hr.invariant (I := fun h s => ∃ l, Linearized eff env s₀ h s l) ?_ ?_
  · refine ⟨[], .nil _, ⟨List.nodup_nil, by simp, by simp, List.Pairwise.nil⟩, fun i hp => ?_,
      by simp [atomicObject], by simp [atomicObject]⟩
    obtain ⟨a, hmem⟩ := hp.exists_returned
    exact List.not_mem_nil hmem
  · intro h s a s' es _ hi hs
    obtain ⟨l, hl⟩ := hi
    cases a with
    | call o =>
        obtain ⟨rfl, rfl⟩ := Prod.mk.inj (Option.some.inj hs)
        exact ⟨l, hl.call o⟩
    | effect i x =>
        simp only [atomicObject] at hs
        split at hs
        · next o hcall =>
          obtain ⟨rfl, rfl⟩ := Prod.mk.inj (Option.some.inj hs)
          rw [List.append_nil]
          exact ⟨_, hl.effect hcall x⟩
        · cases hs
    | ret i =>
        simp only [atomicObject] at hs
        split at hs
        · next o b hcall =>
          obtain ⟨rfl, rfl⟩ := Prod.mk.inj (Option.some.inj hs)
          exact ⟨l, hl.ret hcall⟩
        · cases hs
    | env v =>
        obtain ⟨rfl, rfl⟩ := Prod.mk.inj (Option.some.inj hs)
        rw [List.append_nil]
        exact ⟨l, hl.sequential.env v, hl.linearization, hl.irrefl, hl.calls, hl.stages⟩

end EmailPlatform
