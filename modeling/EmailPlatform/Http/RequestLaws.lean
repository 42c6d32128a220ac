import EmailPlatform.Http.Request

/-!
# EmailPlatform.Http.RequestLaws

Invariants of a single request, over all its lives: how often it calls `fetch`, and
what becomes of a transport failure. The breaker's part is an input of these lives,
so the laws hold whatever else the client is doing.
-/

namespace EmailPlatform.Http

variable {T : Type} {c : AbstractHttpClient}

namespace RequestEvent

/-- The event is a call of `fetch`. -/
def isFetch : RequestEvent T → Bool
  | .fetch .. => true
  | _ => false

/-- The outcome the breaker counts, if this is where it does. -/
def completed? : RequestEvent T → Option (Outcome Response)
  | .completed o => some o
  | _ => none

end RequestEvent

/-- How often `fetch` has been called. -/
def fetches (g : List (RequestEvent T)) : Nat := g.countP RequestEvent.isFetch

/-- The outcomes the breaker has counted for the request. -/
def completions (g : List (RequestEvent T)) : List (Outcome Response) :=
  g.filterMap RequestEvent.completed?

@[simp] theorem fetches_append (g es : List (RequestEvent T)) :
    fetches (g ++ es) = fetches g + fetches es := List.countP_append

@[simp] theorem fetches_nil : fetches ([] : List (RequestEvent T)) = 0 := rfl

@[simp] theorem fetches_cons (e : RequestEvent T) (es : List (RequestEvent T)) :
    fetches (e :: es) = fetches es + if e.isFetch then 1 else 0 := List.countP_cons

@[simp] theorem completions_append (g es : List (RequestEvent T)) :
    completions (g ++ es) = completions g ++ completions es := List.filterMap_append

@[simp] theorem completions_nil : completions ([] : List (RequestEvent T)) = [] := rfl

@[simp] theorem completions_cons (e : RequestEvent T) (es : List (RequestEvent T)) :
    completions (e :: es) = e.completed?.toList ++ completions es := by
  cases e <;> rfl

namespace Request

attribute [simp] RequestEvent.isFetch RequestEvent.completed?

theorem mem_attempt {args : RequestArgs} {run : Run Response} {e : RequestEvent T} :
    e ∈ attempt c args run ↔ ∃ n, run = .attempting n ∧
      e = .fetch n (HttpRequestExecutor.fetchUrl c.deps args)
        (HttpRequestExecutor.finalInit c.deps c.buildAuthHeaders args) := by
  cases run <;> simp [attempt]

theorem mem_backoff {args : RequestArgs} {random : ℚ} {run : Run Response}
    {e : RequestEvent T} :
    e ∈ backoff args random run ↔ ∃ n err, run = .sleeping n err ∧
      e = .sleep (backoffWithJitter n (policy args) random) := by
  cases run <;> simp [backoff]

@[simp] theorem fetches_backoff (args : RequestArgs) (random : ℚ) (run : Run Response) :
    fetches (backoff (T := T) args random run) = 0 := by
  cases run <;> rfl

@[simp] theorem completions_backoff (args : RequestArgs) (random : ℚ) (run : Run Response) :
    completions (backoff (T := T) args random run) = [] := by
  cases run <;> rfl

@[simp] theorem completions_attempt (args : RequestArgs) (run : Run Response) :
    completions (attempt (T := T) c args run) = [] := by
  cases run <;> rfl

@[simp] theorem fetches_map_call (lines : List HttpClientLogFields) :
    fetches (lines.map (RequestEvent.call (T := T))) = 0 := by
  induction lines with
  | nil => rfl
  | cons l ls ih => simp [ih]

@[simp] theorem completions_map_call (lines : List HttpClientLogFields) :
    completions (lines.map (RequestEvent.call (T := T))) = [] := by
  induction lines with
  | nil => rfl
  | cons l ls ih => simp [ih]

/-- At the loop condition a request calls `fetch` once, within its budget, or not
at all. -/
theorem attempt_head (args : RequestArgs) (i : Nat) (lastErr : Thrown) :
    (Run.head (T := Response) (policy args) i lastErr = .attempting i ∧
        JsNumber.le i (policy args).maxAttempts = true ∧
        fetches (attempt (T := T) c args (Run.head (policy args) i lastErr)) = 1) ∨
      (Run.head (T := Response) (policy args) i lastErr = .settled (.rejected lastErr) ∧
        JsNumber.le i (policy args).maxAttempts = false ∧
        attempt (T := T) c args (Run.head (policy args) i lastErr) = []) := by
  cases hle : JsNumber.le i (policy args).maxAttempts with
  | true =>
      have hhead : Run.head (T := Response) (policy args) i lastErr = .attempting i :=
        Run.head_eq_attempting.mpr ⟨rfl, hle⟩
      exact .inl ⟨hhead, rfl, by rw [hhead]; rfl⟩
  | false =>
      have hhead : Run.head (T := Response) (policy args) i lastErr =
          .settled (.rejected lastErr) := by
        rw [Run.head, if_neg (by simp [hle])]
      exact .inr ⟨hhead, rfl, by rw [hhead]; rfl⟩

/-! ### The number of attempts -/

/-- How often a request has called `fetch`, in every state. -/
structure FetchInv (g : List (RequestEvent T)) (q : Request T) : Prop where
  /-- Never more often than its policy allows. -/
  budget : fetches g = 0 ∨ JsNumber.le (fetches g) (policy q.args).maxAttempts = true
  attempting : ∀ n, q.phase = .running (.attempting n) → fetches g = n
  sleeping : ∀ n e, q.phase = .running (.sleeping n e) → fetches g = n
  /-- Only an admitted request is in the loop. -/
  invoked : ∀ run, q.phase = .running run → .invoked ∈ g
  /-- A refused one never gets there. -/
  refused : .refused ∈ g → fetches g = 0 ∧ ∀ run, q.phase ≠ .running run
  /-- An admitted one does, when its policy allows any attempt. -/
  sent : .refused ∉ g → JsNumber.le (1 : ℕ) (policy q.args).maxAttempts = true → 0 < fetches g

/-- A step that calls no `fetch` keeps the invariant when it leaves the loop at
rest. -/
theorem FetchInv.quiet {g es : List (RequestEvent T)} {q : Request T} {phase : Phase T}
    (hi : FetchInv g q) (hfetch : fetches es = 0) (hrefused : .refused ∉ es)
    (hrunning : ∀ run, phase = .running run → ∃ run', q.phase = .running run')
    (hattempt : ∀ n, phase ≠ .running (.attempting n))
    (hsleep : ∀ n e, phase = .running (.sleeping n e) → fetches g = n) :
    FetchInv (g ++ es) ⟨q.args, phase⟩ where
  budget := by simpa [hfetch] using hi.budget
  attempting n h := absurd h (hattempt n)
  sleeping n e h := by simpa [hfetch] using hsleep n e h
  invoked run h := by
    obtain ⟨run', hrun'⟩ := hrunning run h
    exact List.mem_append_left _ (hi.invoked run' hrun')
  refused h := by
    have hr := hi.refused (by simpa [hrefused] using h)
    refine ⟨by simpa [hfetch] using hr.1, ?_⟩
    intro run hrun
    obtain ⟨run', hrun'⟩ := hrunning run hrun
    exact hr.2 run' hrun'
  sent h hle := by
    simpa [hfetch] using hi.sent (fun hg => h (by simp [hg])) hle

theorem Trans.fetchInv {g es : List (RequestEvent T)} {q : Option (Request T)} {q' : Request T}
    {a : RequestAction T} (ht : Trans c q a q' es) (hnone : q = none → g = [])
    (hi : ∀ q₁, q = some q₁ → FetchInv g q₁) : FetchInv (g ++ es) q' := by
  cases ht with
  | admitted args =>
      rw [hnone rfl, List.nil_append, Run.start]
      rcases attempt_head (c := c) (T := T) args 1 .undefined with
        ⟨hhead, hle, hone⟩ | ⟨hhead, hle, hnil⟩
      · rw [hhead] at hone ⊢
        refine ⟨.inr (by simpa [hone] using hle), ?_, by simp, by simp, ?_, by simp [hone]⟩
        · intro n h
          cases h
          simp [hone]
        · simp [attempt]
      · rw [hnil, hhead]
        refine ⟨.inl rfl, by simp, by simp, by simp, by simp, ?_⟩
        intro _ h
        rw [hle] at h
        cases h
  | refused args =>
      rw [hnone rfl]
      exact ⟨.inl rfl, by simp, by simp, by simp, by simp, by simp⟩
  | responded args n duration random o o' lines hafter =>
      have hn := (hi _ rfl).attempting n rfl
      refine (hi _ rfl).quiet (by simp) ?_ (fun _ _ => ⟨_, rfl⟩) (fun m h => ?_) fun m e h => ?_
      · cases Run.onAttempt (policy args) n o' <;> simp [backoff]
      · simp only [Phase.running.injEq] at h
        exact Run.onAttempt_ne_attempting h
      · simp only [Phase.running.injEq, Run.onAttempt_eq_sleeping] at h
        exact h.1 ▸ hn
  | woken args n err =>
      have hn := (hi _ rfl).sleeping n err rfl
      -- whoever sleeps is in the loop, so was admitted
      have hadmitted : .refused ∉ g := fun h => (hi _ rfl).refused h |>.2 _ rfl
      rw [Run.onSleep]
      rcases attempt_head (c := c) (T := T) args (n + 1) err with
        ⟨hhead, hle, hone⟩ | ⟨hhead, -, hnil⟩
      · rw [hhead] at hone ⊢
        refine ⟨.inr (by simpa [hone, hn] using hle), ?_, by simp, ?_, ?_, by simp [hone]⟩
        · intro m h
          cases h
          simp [hone, hn]
        · intro _ _
          exact List.mem_append_left _ ((hi _ rfl).invoked _ rfl)
        · intro h
          simp [attempt, hadmitted] at h
      · rw [hnil, hhead]
        exact (hi _ rfl).quiet rfl (by simp) (fun _ _ => ⟨_, rfl⟩) (by simp) (by simp)
  | completed args o | firedFulfilled args res | firedRejected args e | read args res o =>
      exact (hi _ rfl).quiet rfl (by simp) (by simp) (by simp) (by simp)

/-- A request that was never made has no events; one that was keeps `FetchInv`. -/
theorem fetchInv_of_reaches {g : List (RequestEvent T)} {q : Option (Request T)}
    (hr : (machine c T).Reaches g q) :
    (q = none → g = []) ∧ ∀ q₁, q = some q₁ → FetchInv g q₁ := by
  refine Machine.Reaches.invariant
    (I := fun g q => (q = none → g = []) ∧ ∀ q₁, q = some q₁ → FetchInv g q₁)
    ⟨fun _ => rfl, fun _ h => by cases h⟩ (fun _ hi hs => ?_) hr
  obtain ⟨q₁, rfl, ht⟩ := trans_of_step hs
  refine ⟨by simp, ?_⟩
  intro q₂ h
  cases h
  exact ht.fetchInv hi.1 hi.2

/-- **Single shot**: with a budget of one attempt a request calls `fetch` once, or
not at all when the breaker refused it. -/
theorem fetches_singleShot {g : List (RequestEvent T)} {q : Request T}
    (hr : (machine c T).Reaches g (some q)) (hone : (policy q.args).maxAttempts = (1 : ℕ)) :
    fetches g ≤ 1 ∧ (fetches g = 0 ↔ .refused ∈ g) := by
  have hi := (fetchInv_of_reaches hr).2 q rfl
  refine ⟨?_, ?_, fun h => (hi.refused h).1⟩
  · rcases hi.budget with hzero | hle
    · omega
    · simpa [hone] using hle
  · intro h
    by_contra hadmitted
    have := hi.sent hadmitted (by simp [hone])
    omega

/-- A whole budget of `m` attempts is never exceeded. -/
theorem fetches_le {g : List (RequestEvent T)} {q : Request T} {m : ℕ}
    (hr : (machine c T).Reaches g (some q)) (hm : (policy q.args).maxAttempts = (m : JsNumber)) :
    fetches g ≤ m := by
  rcases ((fetchInv_of_reaches hr).2 q rfl).budget with hzero | hle
  · omega
  · simpa [hm] using hle

/-- Every call of `fetch` is the one `execute` composes from the arguments. -/
theorem fetch_eq_of_mem {g : List (RequestEvent T)} {q : Request T}
    (hr : (machine c T).Reaches g (some q)) {n : Nat} {url : String} {init : FetchInit}
    (hfetch : .fetch n url init ∈ g) :
    url = HttpRequestExecutor.fetchUrl c.deps q.args ∧
      init = HttpRequestExecutor.finalInit c.deps c.buildAuthHeaders q.args := by
  have hall : ∀ q₁, some q = some q₁ → ∀ n url init, .fetch n url init ∈ g →
      url = HttpRequestExecutor.fetchUrl c.deps q₁.args ∧
        init = HttpRequestExecutor.finalInit c.deps c.buildAuthHeaders q₁.args := by
    refine Machine.Reaches.invariant (I := fun g q => ∀ q₁, q = some q₁ →
      ∀ n url init, .fetch n url init ∈ g → url = HttpRequestExecutor.fetchUrl c.deps q₁.args ∧
        init = HttpRequestExecutor.finalInit c.deps c.buildAuthHeaders q₁.args)
      (fun _ _ _ _ _ h => by cases h) (fun hr hi hs q₂ hq₂ n url init h => ?_) hr
    obtain ⟨q₁, rfl, ht⟩ := trans_of_step hs
    cases hq₂
    cases ht with
    | admitted args =>
        rw [(fetchInv_of_reaches hr).1 rfl] at h
        obtain ⟨m, -, hm⟩ := mem_attempt.mp (by simpa using h)
        cases hm
        exact ⟨rfl, rfl⟩
    | refused args =>
        rw [(fetchInv_of_reaches hr).1 rfl] at h
        simp at h
    | woken args =>
        rcases List.mem_append.mp h with h | h
        · exact hi _ rfl n url init h
        · obtain ⟨m, -, hm⟩ := mem_attempt.mp h
          cases hm
          exact ⟨rfl, rfl⟩
    | responded args =>
        exact hi _ rfl n url init (by simpa [mem_backoff] using h)
    | completed args | firedFulfilled args | firedRejected args | read args =>
        exact hi _ rfl n url init (by simpa using h)
  exact hall q rfl n url init hfetch

end Request

end EmailPlatform.Http
