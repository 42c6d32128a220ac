import EmailPlatform.Core.Program
import EmailPlatform.Core.Refinement

/-!
# EmailPlatform.Core.AtomicObject

**Linearizability.** An atomic object is called by any number of clients; each call takes effect
in one step, at some moment between the call and its return, and the environment may change the
state in between. A pool of programs is *linearizable* when whatever its clients see, their
calls and their returns in order, is what the clients of an atomic object could have seen.

`Program.linearizable` is the rule for programs whose first command decides: after it the result
is fixed whatever the replies (`Decided`), and the commands that are still to come do to the
state what the environment may do anyway.
-/

namespace EmailPlatform

variable {S S' C R L A O I I' V V' : Type*}

/-! ### Atomic objects -/

/-- How far a call has come. -/
inductive CallStage (A : Type*)
  | called
  /-- It has taken effect, and has a result. -/
  | effected (a : A)
  | returned

/-- What the clients see. -/
inductive CallEvent (O A : Type*)
  | called (i : ℕ) (o : O)
  | returned (i : ℕ) (a : A)
  deriving DecidableEq

/-- What can happen next. -/
inductive CallAction (O I V : Type*)
  | call (o : O)
  /-- Call `i` takes effect, with environment input `x`. -/
  | effect (i : ℕ) (x : I)
  | ret (i : ℕ)
  | env (v : V)

/-- A state and the calls so far, each with its operation. -/
structure CallState (S O A : Type*) where
  store : S
  calls : List (O × CallStage A)

/-- The object whose operations have the effects `eff`, in an environment `env`. -/
def atomicObject (eff : I → O → S → A × S) (env : V → S → S) (s₀ : S) :
    Machine (CallState S O A) (CallAction O I V) (CallEvent O A) where
  init := ⟨s₀, []⟩
  step s
    | .call o => some ({ s with calls := s.calls ++ [(o, .called)] }, [.called s.calls.length o])
    | .effect i x =>
      match s.calls[i]? with
      | some (o, .called) =>
        some (⟨(eff x o s.store).2, s.calls.set i (o, .effected (eff x o s.store).1)⟩, [])
      | _ => none
    | .ret i =>
      match s.calls[i]? with
      | some (o, .effected a) =>
        some ({ s with calls := s.calls.set i (o, .returned) }, [.returned i a])
      | _ => none
    | .env v => some ({ s with store := env v s.store }, [])

namespace Program

/-! ### Programs whose result is fixed -/

/-- Whatever the replies, the program returns `a`, and all its commands are of the kind `Q`. -/
inductive Decided (Q : C → Prop) (a : A) : Program C R L A → Prop
  | done : Decided Q a (done a)
  | log {l : L} {p : Program C R L A} : Decided Q a p → Decided Q a (log l p)
  | call {c : C} {k : R → Program C R L A} :
      Q c → (∀ r, Decided Q a (k r)) → Decided Q a (call c k)

variable {Q : C → Prop} {a : A} {p : Program C R L A}

theorem Decided.rest (hd : Decided Q a p) : Decided Q a p.rest := by
  induction hd with
  | done => exact .done
  | log _ ih => exact ih
  | call hc hk => exact .call hc hk

/-- It has returned `a`, or stands at a command. -/
theorem Decided.cases_rest (hd : Decided Q a p) :
    p.rest = .done a ∨ ∃ c k, p.rest = .call c k ∧ Q c ∧ ∀ r, Decided Q a (k r) := by
  induction hd with
  | done => exact .inl rfl
  | log _ ih => exact ih
  | call hc hk => exact .inr ⟨_, _, rfl, hc, hk⟩

theorem rest_ne_log {p q : Program C R L A} {l : L} : p.rest ≠ .log l q := by
  induction p with
  | log l p ih => exact ih
  | done | call => simp [rest]

/-! ### Pools as atomic objects -/

/-- What the clients see of a pool. -/
def PoolEvent.call? : PoolEvent O C R L A V → Option (CallEvent O A)
  | .started i o => some (.called i o)
  | .finished i a => some (.returned i a)
  | .executed .. | .logged .. | .env _ => none

/-- What is seen of a program on its way to its next command. -/
theorem filterMap_report (i : ℕ) (p : Program C R L A) :
    (p.report i : List (PoolEvent O C R L A V)).filterMap PoolEvent.call? =
      match p.rest with
      | .done a => [.returned i a]
      | .log .. | .call .. => [] := by
  induction p with
  | log l p ih => exact ih
  | done | call => rfl

variable (prog : O → Program C R L A) (exec : I → C → S → R × S) (env : V → S → S)
  (abs : S → S') (eff : I' → O → S' → A × S') (env' : V' → S' → S') (Q : C → Prop)

/-- The first command of each program has the effect of its operation on the abstract state, and
decides the result; what is left does no more than the environment. -/
structure FirstDecides : Prop where
  /-- A program without a command has no effect. -/
  silent : ∀ {o a}, (prog o).rest = .done a → ∃ x, ∀ s, eff x o s = (a, s)
  first : ∀ {o c k x s r s'}, (prog o).rest = .call c k → exec x c s = (r, s') →
    ∃ x', Decided Q (eff x' o (abs s)).1 (k r) ∧ abs s' = (eff x' o (abs s)).2
  later : ∀ {c x s r s'}, Q c → exec x c s = (r, s') →
    abs s' = abs s ∨ ∃ v, abs s' = env' v (abs s)
  env : ∀ v s, abs (env v s) = abs s ∨ ∃ v', abs (env v s) = env' v' (abs s)

/-- The stage of a call whose program stands here. -/
inductive StageOf (prog : O → Program C R L A) (Q : C → Prop) (o : O) :
    Program C R L A → CallStage A → Prop
  | called {c : C} {k : R → Program C R L A} :
      (prog o).rest = .call c k → StageOf prog Q o (.call c k) .called
  | effected {c : C} {k : R → Program C R L A} {a : A} :
      Q c → (∀ r, Decided Q a (k r)) → StageOf prog Q o (.call c k) (.effected a)
  | returned {a : A} : StageOf prog Q o (.done a) .returned

/-- The object that a pool is. -/
structure ObjectOf (s : Pool S O C R L A) (t : CallState S' O A) : Prop where
  store : t.store = abs s.store
  length : t.calls.length = s.threads.length
  stage : ∀ {i : ℕ} {o o' : O} {p : Program C R L A} {stage : CallStage A},
    s.threads[i]? = some (o, p) → t.calls[i]? = some (o', stage) →
      o = o' ∧ StageOf prog Q o p stage

variable {prog exec env abs eff env' Q} {s₀ : S} {s : Pool S O C R L A} {t : CallState S' O A}

/-- A thread has its call. -/
theorem ObjectOf.exists_stage (ho : ObjectOf prog abs Q s t) {i : ℕ} {o : O}
    {p : Program C R L A} (ht : s.threads[i]? = some (o, p)) :
    ∃ stage, t.calls[i]? = some (o, stage) ∧ StageOf prog Q o p stage := by
  have hlt : i < t.calls.length := ho.length ▸ (List.getElem?_eq_some_iff.mp ht).1
  have hc := List.getElem?_eq_getElem hlt
  generalize t.calls[i] = call at hc
  obtain ⟨o', stage⟩ := call
  obtain ⟨rfl, hstage⟩ := ho.stage ht hc
  exact ⟨stage, hc, hstage⟩

/-- A new thread and its call. -/
theorem ObjectOf.start (ho : ObjectOf prog abs Q s t) {o : O} {p : Program C R L A}
    {stage : CallStage A} (hnew : StageOf prog Q o p stage) :
    ObjectOf prog abs Q ⟨s.store, s.threads ++ [(o, p)]⟩
      { t with calls := t.calls ++ [(o, stage)] } where
  store := ho.store
  length := by rw [List.length_append, List.length_append, ho.length]; rfl
  stage ht hc := by
    rcases getElem?_concat_cases ht with ⟨rfl, heq⟩ | ht
    · obtain ⟨rfl, rfl⟩ := Prod.mk.inj heq
      rw [← ho.length] at hc
      obtain ⟨rfl, rfl⟩ := Prod.mk.inj (Option.some.inj (List.getElem?_concat_length.symm.trans hc))
      exact ⟨rfl, hnew⟩
    · have hlt := (List.getElem?_eq_some_iff.mp ht).1
      rw [List.getElem?_append_left (ho.length ▸ hlt)] at hc
      exact ho.stage ht hc

/-- A thread has moved on, and its call with it. -/
theorem ObjectOf.set (ho : ObjectOf prog abs Q s t) {i : ℕ} {o : O} {p : Program C R L A}
    {stage : CallStage A} {store : S} {store' : S'} (hstore : store' = abs store)
    (hnew : StageOf prog Q o p stage) :
    ObjectOf prog abs Q ⟨store, s.threads.set i (o, p)⟩ ⟨store', t.calls.set i (o, stage)⟩ where
  store := hstore
  length := by rw [List.length_set, List.length_set, ho.length]
  stage ht hc := by
    rcases getElem?_set_cases ht with ⟨rfl, heq⟩ | ⟨hne, ht⟩
    · obtain ⟨rfl, rfl⟩ := Prod.mk.inj heq
      rcases getElem?_set_cases hc with ⟨-, heq⟩ | ⟨hne, -⟩
      · obtain ⟨rfl, rfl⟩ := Prod.mk.inj heq
        exact ⟨rfl, hnew⟩
      · exact absurd rfl hne
    · rcases getElem?_set_cases hc with ⟨rfl, -⟩ | ⟨-, hc⟩
      · exact absurd rfl hne
      · exact ho.stage ht hc

/-- The object can show `seen`, and is then what the pool `s'` is. -/
def Answers (prog : O → Program C R L A) (abs : S → S') (Q : C → Prop)
    (N : Machine (CallState S' O A) (CallAction O I' V') (CallEvent O A)) (t : CallState S' O A)
    (seen : List (CallEvent O A)) (s' : Pool S O C R L A) : Prop :=
  ∃ as t', N.Performs (fun _ _ => True) t as seen t' ∧ ObjectOf prog abs Q s' t'

/-- Where a call has taken effect, the object returns as soon as the program does. -/
theorem answers_of_decided {s₀' : S'} {i : ℕ} {o : O} {a : A} {p : Program C R L A} {store : S}
    (ho : ObjectOf prog abs Q s t) (hlt : i < t.calls.length) (hd : Decided Q a p) :
    Answers prog abs Q (atomicObject eff env' s₀') ⟨abs store, t.calls.set i (o, .effected a)⟩
      ((p.report i : List (PoolEvent O C R L A V)).filterMap PoolEvent.call?)
      ⟨store, s.threads.set i (o, p.rest)⟩ := by
  rw [filterMap_report]
  rcases hd.cases_rest with hrest | ⟨c, k, hrest, hc, hk⟩
  · rw [hrest]
    refine ⟨[.ret i], ⟨abs store, t.calls.set i (o, .returned)⟩, .one trivial ?_,
      ho.set rfl .returned⟩
    simp only [atomicObject, List.getElem?_set_self hlt, List.set_set]
  · rw [hrest]
    exact ⟨[], _, .nil _, ho.set rfl (.effected hc hk)⟩

/-- A program is started; one without a command returns at once. -/
theorem answers_start {s₀' : S'} (hf : FirstDecides prog exec env abs eff env' Q)
    (ho : ObjectOf prog abs Q s t) (o : O) :
    Answers prog abs Q (atomicObject eff env' s₀') t
      ((.started s.threads.length o :: (prog o).report s.threads.length :
        List (PoolEvent O C R L A V)).filterMap PoolEvent.call?)
      ⟨s.store, s.threads ++ [(o, (prog o).rest)]⟩ := by
  rw [List.filterMap_cons_some (f := PoolEvent.call?) rfl, filterMap_report, ← ho.length]
  cases hrest : (prog o).rest with
  | log l p => exact absurd hrest rest_ne_log
  | call c k => exact ⟨[.call o], _, .one trivial rfl, ho.start (.called hrest)⟩
  | done a =>
      obtain ⟨x, hx⟩ := hf.silent hrest
      have hend : ∀ stage : CallStage A, (t.calls ++ [(o, stage)])[t.calls.length]? =
          some (o, stage) := fun stage => List.getElem?_concat_length
      have hset : ∀ stage stage' : CallStage A, (t.calls ++ [(o, stage)]).set t.calls.length
          (o, stage') = t.calls ++ [(o, stage')] := fun stage stage' => by simp
      have hcalled : (atomicObject eff env' s₀').step t (.call o) =
          some ({ t with calls := t.calls ++ [(o, .called)] }, [.called t.calls.length o]) := rfl
      have heffect : (atomicObject eff env' s₀').step { t with calls := t.calls ++ [(o, .called)] }
          (.effect t.calls.length x) =
            some ({ t with calls := t.calls ++ [(o, .effected a)] }, []) := by
        simp only [atomicObject, hend, hx, hset]
      have hret : (atomicObject eff env' s₀').step
          { t with calls := t.calls ++ [(o, .effected a)] } (.ret t.calls.length) =
            some ({ t with calls := t.calls ++ [(o, .returned)] },
              [.returned t.calls.length a]) := by
        simp only [atomicObject, hend, hset]
      exact ⟨_, _, .cons trivial hcalled (.cons trivial heffect (.one trivial hret)),
        ho.start .returned⟩

/-- A command is executed: the first of a program, or one behind it. -/
theorem answers_exec {s₀' : S'} (hf : FirstDecides prog exec env abs eff env' Q)
    (ho : ObjectOf prog abs Q s t) {i : ℕ} {x : I} {o : O} {c : C} {k : R → Program C R L A}
    {r : R} {store : S} (ht : s.threads[i]? = some (o, .call c k))
    (hx : exec x c s.store = (r, store)) :
    Answers prog abs Q (atomicObject eff env' s₀') t
      (((k r).report i : List (PoolEvent O C R L A V)).filterMap PoolEvent.call?)
      ⟨store, s.threads.set i (o, (k r).rest)⟩ := by
  obtain ⟨stage, hcall, hstage⟩ := ho.exists_stage ht
  cases hstage with
  | called hrest =>
      -- the call takes effect here
      obtain ⟨x', hd, hstore⟩ := hf.first hrest hx
      rw [← ho.store] at hd hstore
      have hdecided : Answers prog abs Q (atomicObject eff env' s₀')
          ⟨abs store, t.calls.set i (o, .effected (eff x' o t.store).1)⟩ _ _ :=
        answers_of_decided (V := V) ho (List.getElem?_eq_some_iff.mp hcall).1 hd
      obtain ⟨as, t', hp, ho'⟩ := hdecided
      rw [hstore] at hp
      refine ⟨.effect i x' :: as, t', .cons_silent trivial ?_ hp, ho'⟩
      simp only [atomicObject, hcall]
  | @effected _ _ a hc hk =>
      -- it has taken effect before, and the command is none to the clients
      obtain ⟨hlt, heq⟩ := List.getElem?_eq_some_iff.mp hcall
      have hset : t.calls.set i (o, .effected a) = t.calls := by
        rw [← heq, List.set_getElem_self]
      have hdecided : Answers prog abs Q (atomicObject eff env' s₀')
          ⟨abs store, t.calls.set i (o, .effected a)⟩ _ _ :=
        answers_of_decided (V := V) ho hlt (hk r)
      obtain ⟨as, t', hp, ho'⟩ := hdecided
      rw [hset] at hp
      rcases hf.later hc hx with hsame | ⟨v, henv⟩
      · rw [hsame, ← ho.store] at hp
        exact ⟨as, t', hp, ho'⟩
      · rw [henv, ← ho.store] at hp
        exact ⟨.env v :: as, t', .cons_silent trivial rfl hp, ho'⟩

/-- A pool whose programs are decided by their first commands implements its object. -/
def FirstDecides.refinement (hf : FirstDecides prog exec env abs eff env' Q) (s₀ : S) :
    Machine.Refinement (pool prog exec env s₀) (atomicObject eff env' (abs s₀))
      PoolEvent.call? some where
  rel := ObjectOf prog abs Q
  init := ⟨rfl, rfl, by simp [pool]⟩
  step {h s a s' es t} _ ho hs := by
    have hanswers : Answers prog abs Q (atomicObject eff env' (abs s₀)) t
        (es.filterMap PoolEvent.call?) s' := by
      cases poolTrans_of_step hs with
      | start o => exact answers_start hf ho o
      | exec ht hx => exact answers_exec hf ho ht hx
      | env v =>
          rcases hf.env v s.store with hsame | ⟨v', henv⟩
          · exact ⟨[], t, .nil t, ho.store.trans hsame.symm, ho.length, ho.stage⟩
          · refine ⟨[.env v'], _, .one trivial rfl, ?_, ho.length, ho.stage⟩
            rw [henv, ho.store]
    obtain ⟨as, t', hp, ho'⟩ := hanswers
    exact ⟨as, _, t', hp, ho', by rw [List.filterMap_some]⟩

/-- **The rule.** A pool whose programs are decided by their first commands is linearizable. -/
theorem FirstDecides.linearizable (hf : FirstDecides prog exec env abs eff env' Q) {s₀ : S}
    {h : List (PoolEvent O C R L A V)} (hr : (pool prog exec env s₀).Reaches h s) :
    ∃ t, (atomicObject eff env' (abs s₀)).Reaches (h.filterMap PoolEvent.call?) t ∧
      t.store = abs s.store := by
  obtain ⟨g, t, hg, ho, hview⟩ := (hf.refinement s₀).reaches hr
  rw [List.filterMap_some] at hview
  exact ⟨t, hview ▸ hg, ho.store⟩

end Program

end EmailPlatform
