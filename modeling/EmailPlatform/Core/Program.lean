import EmailPlatform.Core.Machine

/-!
# EmailPlatform.Core.Program

**Programs of atomic commands.** An asynchronous function that talks to one store
is a tree: it logs, it issues a command and continues with the reply, or it is done.
Everything between two commands is atomic, which is the granularity at which such
functions interleave.

A program is run in two ways. `Program.run` executes it alone, from its first command
to its result. `Program.pool` is the machine of any number of programs over one
store: each step starts a program, executes the next command of one of them, or lets
the environment change the store.

The one fact about pools that is needed of every program is `path_of_reaches`: the
commands a thread has executed, with the replies it got, are a path of its program that
ends where the thread now is. What a thread can have done is then read off its
program and not proved by another induction over runs.
-/

namespace EmailPlatform

/-- Programs that issue commands `C`, receive replies `R`, log lines `L` and return
an `A`. -/
inductive Program (C R L A : Type*)
  | done (a : A)
  | log (l : L) (p : Program C R L A)
  | call (c : C) (k : R → Program C R L A)

namespace Program

variable {C R L A B S O I V : Type*}

/-- Continue a program with another that depends on its result. -/
def bind : Program C R L A → (A → Program C R L B) → Program C R L B
  | done a, f => f a
  | log l p, f => log l (p.bind f)
  | call c k, f => call c fun r => (k r).bind f

/-- Map the result. -/
def map (f : A → B) (p : Program C R L A) : Program C R L B := p.bind fun a => done (f a)

/-- Execute a whole program alone. -/
def run (exec : C → S → R × S) : Program C R L A → S → A × S
  | done a, s => (a, s)
  | log _ p, s => p.run exec s
  | call c k, s => (k (exec c s).1).run exec (exec c s).2

@[simp] theorem run_done (exec : C → S → R × S) (a : A) (s : S) :
    (done a : Program C R L A).run exec s = (a, s) := rfl

@[simp] theorem run_log (exec : C → S → R × S) (l : L) (p : Program C R L A) (s : S) :
    (log l p).run exec s = p.run exec s := rfl

@[simp] theorem run_call (exec : C → S → R × S) (c : C) (k : R → Program C R L A) (s : S) :
    (call c k).run exec s = (k (exec c s).1).run exec (exec c s).2 := rfl

/-- Running a continued program is running the two in turn. -/
theorem run_bind (exec : C → S → R × S) (p : Program C R L A) (f : A → Program C R L B) (s : S) :
    (p.bind f).run exec s = (f (p.run exec s).1).run exec (p.run exec s).2 := by
  induction p generalizing s with
  | done a => rfl
  | log l p ih => exact ih s
  | call c k ih => exact ih (exec c s).1 (exec c s).2

@[simp] theorem run_map (exec : C → S → R × S) (f : A → B) (p : Program C R L A) (s : S) :
    (p.map f).run exec s = (f (p.run exec s).1, (p.run exec s).2) := run_bind exec p _ s

/-- A program up to its next command: the log lines before it are gone. -/
def rest : Program C R L A → Program C R L A
  | log _ p => p.rest
  | done a => done a
  | call c k => call c k

/-! ### Pools -/

/-- A store and the programs running on it; each is labelled with the operation it
stands for. -/
structure Pool (S O C R L A : Type*) where
  store : S
  threads : List (O × Program C R L A)

/-- What can happen next: `start o` begins an operation, `exec i x` executes the next
command of thread `i` with environment input `x`, `env v` changes the store. -/
inductive PoolAction (O I V : Type*)
  | start (o : O)
  | exec (i : Nat) (x : I)
  | env (v : V)

/-- What can be observed of a pool. -/
inductive PoolEvent (O C R L A V : Type*)
  | started (i : Nat) (o : O)
  | executed (i : Nat) (c : C) (r : R)
  | logged (i : Nat) (l : L)
  | finished (i : Nat) (a : A)
  | env (v : V)

/-- What thread `i` reports on its way to its next command. -/
def report (i : Nat) : Program C R L A → List (PoolEvent O C R L A V)
  | log l p => .logged i l :: p.report i
  | done a => [.finished i a]
  | call _ _ => []

/-- The machine of the programs `prog` over a store. -/
def pool (prog : O → Program C R L A) (exec : I → C → S → R × S) (env : V → S → S) (s₀ : S) :
    Machine (Pool S O C R L A) (PoolAction O I V) (PoolEvent O C R L A V) where
  init := ⟨s₀, []⟩
  step s
    | .start o =>
      some (⟨s.store, s.threads ++ [(o, (prog o).rest)]⟩,
        .started s.threads.length o :: (prog o).report s.threads.length)
    | .exec i x =>
      match s.threads[i]? with
      | some (o, .call c k) =>
        let (r, store) := exec x c s.store
        some (⟨store, s.threads.set i (o, (k r).rest)⟩, .executed i c r :: (k r).report i)
      -- the thread is finished, or there is none
      | _ => none
    | .env v => some (⟨env v s.store, s.threads⟩, [.env v])

variable {prog : O → Program C R L A} {exec : I → C → S → R × S} {env : V → S → S} {s₀ : S}

/-- The steps of a pool. -/
inductive PoolTrans (prog : O → Program C R L A) (exec : I → C → S → R × S) (env : V → S → S)
    (s : Pool S O C R L A) : Pool S O C R L A → List (PoolEvent O C R L A V) → Prop
  | start (o : O) :
      PoolTrans prog exec env s ⟨s.store, s.threads ++ [(o, (prog o).rest)]⟩
        (.started s.threads.length o :: (prog o).report s.threads.length)
  | exec {i : Nat} {x : I} {o : O} {c : C} {k : R → Program C R L A} {r : R} {store : S} :
      s.threads[i]? = some (o, .call c k) →
      exec x c s.store = (r, store) →
      PoolTrans prog exec env s ⟨store, s.threads.set i (o, (k r).rest)⟩
        (.executed i c r :: (k r).report i)
  | env (v : V) : PoolTrans prog exec env s ⟨env v s.store, s.threads⟩ [.env v]

theorem poolTrans_of_step {s s' : Pool S O C R L A} {a : PoolAction O I V}
    {es : List (PoolEvent O C R L A V)} (h : (pool prog exec env s₀).step s a = some (s', es)) :
    PoolTrans prog exec env s s' es := by
  cases a with
  | start o =>
      cases h
      exact .start o
  | exec i x =>
      simp only [pool] at h
      split at h
      · next o c k hi =>
        cases h
        exact .exec hi rfl
      · cases h
  | env v =>
      cases h
      exact .env v

/-! ### Paths -/

/-- `Path p l q`: `p` executes the commands of `l` with the replies in `l` and is then
at `q`. -/
inductive Path : Program C R L A → List (C × R) → Program C R L A → Prop
  | nil (p : Program C R L A) : Path p [] p.rest
  | cons {p q : Program C R L A} {c : C} {k : R → Program C R L A} {r : R} {l : List (C × R)} :
      p.rest = .call c k → Path (k r) l q → Path p ((c, r) :: l) q

theorem Path.snoc {p : Program C R L A} {l : List (C × R)} {c : C} {k : R → Program C R L A}
    (h : Path p l (.call c k)) (r : R) : Path p (l ++ [(c, r)]) (k r).rest := by
  generalize hq : Program.call c k = q at h
  induction h with
  | nil p => exact .cons hq.symm (.nil _)
  | cons hp _ ih => exact .cons hp (ih hq)

@[simp] theorem path_nil_iff {p q : Program C R L A} : Path p [] q ↔ q = p.rest := by
  constructor
  · intro heq
    cases heq
    rfl
  · intro heq
    subst heq
    exact .nil p

@[simp] theorem path_cons_iff {p q : Program C R L A} {c : C} {r : R} {l : List (C × R)} :
    Path p ((c, r) :: l) q ↔ ∃ k, p.rest = .call c k ∧ Path (k r) l q := by
  constructor
  · intro h
    rcases h with _ | ⟨hp, hl⟩
    exact ⟨_, hp, hl⟩
  · intro ⟨k, hp, hl⟩
    exact .cons hp hl

/-- Before a command of a path the program stands at it. -/
theorem Path.before {p q : Program C R L A} {l₁ l₂ : List (C × R)} {c : C} {r : R}
    (h : Path p (l₁ ++ (c, r) :: l₂) q) : ∃ k, Path p l₁ (.call c k) := by
  induction l₁ generalizing p with
  | nil =>
      obtain ⟨k, hk, -⟩ := path_cons_iff.mp h
      exact ⟨k, path_nil_iff.mpr hk.symm⟩
  | cons d l₁ ih =>
      obtain ⟨k, hk, hl⟩ := path_cons_iff.mp h
      obtain ⟨k', hk'⟩ := ih hl
      exact ⟨k', .cons hk hk'⟩

/-- A finished program stands at no command. -/
theorem not_path_of_done {p : Program C R L A} {l : List (C × R)} {a : A} {c : C}
    {k : R → Program C R L A} (hp : p.rest = .done a) : ¬ Path p l (.call c k) := by
  generalize hq : Program.call c k = q
  intro h
  cases h with
  | nil => cases hp.symm.trans hq.symm
  | cons hc _ => cases hp.symm.trans hc

/-- A program with one command left stands at it or at none. -/
theorem Path.of_last {p : Program C R L A} {l : List (C × R)} {c d : C}
    {k m : R → Program C R L A} (h : Path p l (.call c k)) (hp : p.rest = .call d m)
    (hlast : ∀ r, ∃ a, (m r).rest = .done a) : l = [] ∧ c = d := by
  cases l with
  | nil =>
      cases (path_nil_iff.mp h).trans hp
      exact ⟨rfl, rfl⟩
  | cons e l =>
      obtain ⟨n, hn, hl⟩ := path_cons_iff.mp h
      cases hp.symm.trans hn
      obtain ⟨a, ha⟩ := hlast e.2
      exact absurd hl (not_path_of_done ha)

/-- The command and reply an event reports of thread `i`. -/
def PoolEvent.executed? (i : Nat) : PoolEvent O C R L A V → Option (C × R)
  | .executed j c r => if j = i then some (c, r) else none
  | _ => none

/-- What thread `i` has executed, in order. -/
def executedBy (i : Nat) (h : List (PoolEvent O C R L A V)) : List (C × R) :=
  h.filterMap (PoolEvent.executed? i)

@[simp] theorem executedBy_append (i : Nat) (h es : List (PoolEvent O C R L A V)) :
    executedBy i (h ++ es) = executedBy i h ++ executedBy i es := List.filterMap_append

@[simp] theorem executedBy_started (i j : Nat) (o : O) (es : List (PoolEvent O C R L A V)) :
    executedBy i (.started j o :: es) = executedBy i es := rfl

@[simp] theorem executedBy_env (i : Nat) (v : V) :
    executedBy i [(.env v : PoolEvent O C R L A V)] = [] := rfl

theorem executedBy_executed_self (i : Nat) (c : C) (r : R) (es : List (PoolEvent O C R L A V)) :
    executedBy i (.executed i c r :: es) = (c, r) :: executedBy i es :=
  List.filterMap_cons_some (if_pos rfl)

theorem executedBy_executed_of_ne {i j : Nat} (hij : j ≠ i) (c : C) (r : R)
    (es : List (PoolEvent O C R L A V)) :
    executedBy i (.executed j c r :: es) = executedBy i es :=
  List.filterMap_cons_none (if_neg hij)

@[simp] theorem executedBy_report (i j : Nat) (p : Program C R L A) :
    executedBy i (p.report j : List (PoolEvent O C R L A V)) = [] := by
  induction p with
  | log l p ih => exact ih
  | done | call => rfl

theorem mem_executedBy {i : Nat} {h : List (PoolEvent O C R L A V)} {c : C} {r : R} :
    (c, r) ∈ executedBy i h ↔ .executed i c r ∈ h := by
  rw [executedBy, List.mem_filterMap]
  constructor
  · intro ⟨e, he, hc⟩
    cases e with
    | executed j c' r' =>
        by_cases hj : j = i
        · simp only [PoolEvent.executed?, hj, if_true, Option.some.injEq, Prod.mk.injEq] at hc
          rw [← hc.1, ← hc.2, ← hj]
          exact he
        · simp [PoolEvent.executed?, hj] at hc
    | _ => simp [PoolEvent.executed?] at hc
  · exact fun he => ⟨_, he, by simp [PoolEvent.executed?]⟩

@[simp] theorem started_notMem_report {i j : Nat} {o : O} {p : Program C R L A} :
    PoolEvent.started i o ∉ (p.report j : List (PoolEvent O C R L A V)) := by
  induction p with
  | log l p ih => simpa [report] using ih
  | done | call => simp [report]

@[simp] theorem executed_notMem_report {i j : Nat} {c : C} {r : R} {p : Program C R L A} :
    PoolEvent.executed i c r ∉ (p.report j : List (PoolEvent O C R L A V)) := by
  induction p with
  | log l p ih => simpa [report] using ih
  | done | call => simp [report]

/-- A step that executes a command executes only that one, first of all. -/
theorem PoolTrans.of_executed {s s' : Pool S O C R L A} {i : Nat} {c : C} {r : R}
    {l₁ l₂ : List (PoolEvent O C R L A V)}
    (h : PoolTrans prog exec env s s' (l₁ ++ .executed i c r :: l₂)) :
    l₁ = [] ∧ (∃ o k, s.threads[i]? = some (o, .call c k)) ∧
      (∃ x, exec x c s.store = (r, s'.store)) ∧ ∀ j d q, .executed j d q ∉ l₂ := by
  generalize hes : l₁ ++ .executed i c r :: l₂ = es at h
  have hm : .executed i c r ∈ es := by simp [← hes]
  cases h with
  | start o => simp at hm
  | env v => simp at hm
  | @exec j x o d k q store hi hx =>
      cases l₁ with
      | nil =>
          obtain ⟨heq, rfl⟩ := List.cons.inj hes
          cases heq
          exact ⟨rfl, ⟨o, k, hi⟩, ⟨x, hx⟩, fun _ _ _ => executed_notMem_report⟩
      | cons e l₁ =>
          have hl := (List.cons.inj hes).2
          have hin : PoolEvent.executed i c r ∈ ((k q).report j : List (PoolEvent O C R L A V)) :=
            hl ▸ by simp
          exact absurd hin executed_notMem_report

/-- A thread is known by the operation it was started with, and stands where its
commands so far have brought it. -/
structure ThreadInv (prog : O → Program C R L A) (h : List (PoolEvent O C R L A V))
    (s : Pool S O C R L A) : Prop where
  started : ∀ i o, .started i o ∈ h → ∃ p, s.threads[i]? = some (o, p)
  executed : ∀ i c r, .executed i c r ∈ h → i < s.threads.length
  path : ∀ i o p, s.threads[i]? = some (o, p) → .started i o ∈ h ∧ Path (prog o) (executedBy i h) p

/-- No thread, no commands. -/
theorem ThreadInv.executedBy_eq_nil {h : List (PoolEvent O C R L A V)} {s : Pool S O C R L A}
    (hi : ThreadInv prog h s) : executedBy s.threads.length h = [] := by
  rw [List.eq_nil_iff_forall_not_mem]
  intro ran hc
  obtain ⟨c, r⟩ := ran
  exact Nat.lt_irrefl _ (hi.executed _ c r (mem_executedBy.mp hc))

/-- A new thread stands at the beginning of its program. -/
theorem ThreadInv.afterStart {h : List (PoolEvent O C R L A V)} {s : Pool S O C R L A}
    (hi : ThreadInv prog h s) (o : O) :
    ThreadInv prog (h ++ .started s.threads.length o :: (prog o).report s.threads.length)
      ⟨s.store, s.threads ++ [(o, (prog o).rest)]⟩ where
  started := by
    intro i o' hm
    simp only [List.mem_append, List.mem_cons, PoolEvent.started.injEq, started_notMem_report,
      or_false] at hm
    rcases hm with hm | ⟨rfl, rfl⟩
    · obtain ⟨p, hp⟩ := hi.started i o' hm
      exact ⟨p, by rw [List.getElem?_append_left ((List.getElem?_eq_some_iff.mp hp).1)]; exact hp⟩
    · exact ⟨_, List.getElem?_concat_length⟩
  executed := by
    intro i c r hm
    have hlt := hi.executed i c r (by simpa using hm)
    simp only [List.length_append, List.length_cons, List.length_nil]
    omega
  path := by
    intro i o' p hp
    rcases getElem?_concat_cases hp with ⟨rfl, hnew⟩ | hp
    · cases hnew
      exact ⟨by simp, by simp [hi.executedBy_eq_nil]⟩
    · obtain ⟨hst, hpath⟩ := hi.path i o' p hp
      exact ⟨List.mem_append_left _ hst, by simpa using hpath⟩

/-- The next command of a thread keeps the invariant. -/
theorem ThreadInv.afterExec {h : List (PoolEvent O C R L A V)} {s : Pool S O C R L A} {i : Nat}
    {o : O} {c : C} {k : R → Program C R L A} (hi : ThreadInv prog h s)
    (ht : s.threads[i]? = some (o, .call c k)) (r : R) (store : S) :
    ThreadInv prog (h ++ .executed i c r :: (k r).report i)
      ⟨store, s.threads.set i (o, (k r).rest)⟩ where
  started := by
    intro j o' hm
    obtain ⟨p, hp⟩ := hi.started j o' (by simpa using hm)
    by_cases hij : i = j
    · subst hij
      obtain ⟨rfl, -⟩ : o = o' ∧ _ := by simpa [ht] using hp
      exact ⟨(k r).rest, List.getElem?_set_self (List.getElem?_eq_some_iff.mp ht).1⟩
    · exact ⟨p, by rw [List.getElem?_set_ne hij]; exact hp⟩
  executed := by
    intro j c' r' hm
    simp only [List.mem_append, List.mem_cons, PoolEvent.executed.injEq, executed_notMem_report,
      or_false] at hm
    rw [List.length_set]
    rcases hm with hm | ⟨rfl, -, -⟩
    · exact hi.executed j c' r' hm
    · exact (List.getElem?_eq_some_iff.mp ht).1
  path := by
    intro j o' p hp
    rcases getElem?_set_cases hp with ⟨rfl, hnew⟩ | ⟨hne, hp⟩
    · cases hnew
      obtain ⟨hst, hpath⟩ := hi.path j o _ ht
      refine ⟨List.mem_append_left _ hst, ?_⟩
      rw [executedBy_append, executedBy_executed_self, executedBy_report]
      exact hpath.snoc r
    · obtain ⟨hst, hpath⟩ := hi.path j o' p hp
      refine ⟨List.mem_append_left _ hst, ?_⟩
      rwa [executedBy_append, executedBy_executed_of_ne (Ne.symm hne), executedBy_report,
        List.append_nil]

/-- The commands a thread of a reachable pool has executed are a path of its program
to where it stands. -/
theorem path_of_reaches {h : List (PoolEvent O C R L A V)} {s : Pool S O C R L A}
    (hr : (pool prog exec env s₀).Reaches h s) : ThreadInv prog h s := by
  refine hr.invariant (I := ThreadInv prog) ⟨by simp, by simp, by simp [pool]⟩ ?_
  intro h s a s' es _ hi hs
  cases poolTrans_of_step hs with
  | start o => exact hi.afterStart o
  | exec ht _ => exact hi.afterExec ht _ _
  | env v =>
      exact ⟨fun i o hm => hi.started i o (by simpa using hm),
        fun i c r hm => hi.executed i c r (by simpa using hm),
        fun i o p hp => by simpa using hi.path i o p hp⟩

/-- A thread executes nothing before it is started. -/
theorem started_of_executed {h l : List (PoolEvent O C R L A V)} {s : Pool S O C R L A}
    (hr : (pool prog exec env s₀).Reaches h s) (hl : l <+: h) {i : Nat} {o : O} {c : C} {r : R}
    (hst : .started i o ∈ h) (hex : .executed i c r ∈ l) : .started i o ∈ l := by
  -- the start of a thread is in every prefix that has a command of it
  have hany : ∀ l, l <+: h → ∀ i c r, .executed i c r ∈ l → ∃ o, .started i o ∈ l := by
    refine hr.forall_prefix (by simp) fun hr _ hs es' hes => ?_
    intro i c r hex
    have hi := path_of_reaches hr
    rcases List.mem_append.mp hex with hex | hex
    · have ht := List.getElem?_eq_getElem (hi.executed i c r hex)
      exact ⟨_, List.mem_append_left _ (hi.path i _ _ ht).1⟩
    · obtain ⟨l₁, l₂, rfl⟩ := List.append_of_mem (hes.subset hex)
      obtain ⟨-, ⟨o, k, ht⟩, -⟩ := (poolTrans_of_step hs).of_executed
      exact ⟨o, List.mem_append_left _ (hi.path i o _ ht).1⟩
  -- and it is the only one
  obtain ⟨o', ho'⟩ := hany l hl i c r hex
  have hi := path_of_reaches hr
  obtain ⟨p, hp⟩ := hi.started i o hst
  obtain ⟨p', hp'⟩ := hi.started i o' (hl.subset ho')
  rw [hp] at hp'
  cases hp'
  exact ho'

end Program

end EmailPlatform
