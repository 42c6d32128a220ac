import EmailPlatform.Http.RequestLaws

/-!
# EmailPlatform.Http.TransportFailure

What becomes of a transport failure of one request: a connection that breaks or
times out before the headers (`fetch` rejects) or while the body is read
(`res.json()` rejects). `TransportLaw` says that both are treated alike: retried
while the policy allows it, and otherwise counted once as a failure by the breaker
and reported as `TimeoutError` or `NetworkError`.

The retry loop and the breaker only see the first kind. `transportLaw_of_reaches`
proves the law of every life in which the second kind does not occur and the
breaker passes the failure of the last attempt on; `not_transportLaw_of_not_passesOn` shows
that a step outside that condition breaks it.
-/

namespace EmailPlatform.Http

variable {T : Type} {c : AbstractHttpClient}

/-- A transport failure strikes the request at its `n`-th attempt, before the
headers or in the body. -/
def FailsAt (g : List (RequestEvent T)) (n : Nat) : Prop :=
  (∃ e, .responded n (.rejected e) ∈ g ∧ e.isRawTransport = true) ∨
    ∃ res e, .responded n (.fulfilled res) ∈ g ∧ res.ok = true ∧
      .read (.rejected e) ∈ g ∧ e.isRawTransport = true

/-- The `n`-th attempt was repeated, or the policy allowed no further attempt and
the failure was counted once and reported. -/
structure Handled (policy : RetryPolicy) (g : List (RequestEvent T)) (n : Nat)
    (o : Outcome T) : Prop where
  retried : JsNumber.le (n + 1 : ℕ) policy.maxAttempts = true →
    ∃ url init, .fetch (n + 1) url init ∈ g
  rejects : JsNumber.le (n + 1 : ℕ) policy.maxAttempts = false →
    ∃ e, o = .rejected e ∧ e.isTransportError = true
  counted : JsNumber.le (n + 1 : ℕ) policy.maxAttempts = false →
    ∃ e, completions g = [.rejected e]

/-- Transport failures are treated the same in every phase of a response. -/
def TransportLaw (policy : RetryPolicy) (g : List (RequestEvent T)) : Prop :=
  ∀ n, FailsAt g n → ∀ o, .settled o ∈ g → Handled policy g n o

/-- The latest attempt failed before the headers and was not repeated. -/
def LastFails (g : List (RequestEvent T)) : Prop :=
  ∃ n e, .responded n (.rejected e) ∈ g ∧ e.isRawTransport = true ∧
    ∀ url init, .fetch (n + 1) url init ∉ g

/-- The breaker resolves with the action's result, and rejects otherwise. -/
def Honest (g : List (RequestEvent T)) (_ : Option (Request T)) (a : RequestAction T) : Prop :=
  ∀ r, a = .fired r → ∀ res, r = .fulfilled res ↔ completions g = [.fulfilled res]

/-- No body read is cut off, and the breaker passes on the failure of a last
attempt. -/
def PassesOn (g : List (RequestEvent T)) (_ : Option (Request T)) (a : RequestAction T) : Prop :=
  (∀ e, a = .json (.rejected e) → e.isRawTransport = false) ∧
    ∀ r, a = .fired r → LastFails g → completions g = [r]

namespace Request

/-! ### Where a request is, by its events -/

/-- What the events say about the phase. -/
structure PhaseInv (g : List (RequestEvent T)) (q : Request T) : Prop where
  running : ∀ run, q.phase = .running run → completions g = []
  reading : ∀ res, q.phase = .reading res → completions g = [.fulfilled res]
  settled : ∀ o, .settled o ∈ g → q.phase = .done o
  read : ∀ o, .read o ∈ g → q.phase = .done o
  /-- A result the breaker counts is a 2xx response of some attempt. -/
  source : ∀ res, q.phase = .running (.settled (.fulfilled res)) ∨ .fulfilled res ∈ completions g →
    ∃ n, .responded n (.fulfilled res) ∈ g ∧ res.ok = true

/-- A step of a request that is not done adds to what the events say only what its own
events do. -/
theorem PhaseInv.of_live {g es : List (RequestEvent T)} {q q' : Request T} (hi : PhaseInv g q)
    (hlive : ∀ o, q.phase ≠ .done o)
    (hrunning : ∀ run, q'.phase = .running run → completions (g ++ es) = [])
    (hreading : ∀ res, q'.phase = .reading res → completions (g ++ es) = [.fulfilled res])
    (hsettled : ∀ o, .settled o ∈ es → q'.phase = .done o)
    (hread : ∀ o, .read o ∈ es → q'.phase = .done o)
    (hsource : ∀ res,
      q'.phase = .running (.settled (.fulfilled res)) ∨ .fulfilled res ∈ completions es →
        ∃ n, .responded n (.fulfilled res) ∈ g ++ es ∧ res.ok = true) :
    PhaseInv (g ++ es) q' := by
  refine ⟨hrunning, hreading, ?_, ?_, ?_⟩
  · intro o h
    rcases List.mem_append.mp h with h | h
    · exact absurd (hi.settled o h) (hlive o)
    · exact hsettled o h
  · intro o h
    rcases List.mem_append.mp h with h | h
    · exact absurd (hi.read o h) (hlive o)
    · exact hread o h
  · intro res h
    rw [completions_append, List.mem_append, or_left_comm] at h
    rcases h with h | h
    · obtain ⟨n, hn, hok⟩ := hi.source res (.inr h)
      exact ⟨n, List.mem_append_left _ hn, hok⟩
    · exact hsource res h

theorem Trans.phaseInv {g es : List (RequestEvent T)} {q : Option (Request T)} {q' : Request T}
    {a : RequestAction T} (ht : Trans c q a q' es) (ha : Honest g q a)
    (hnone : q = none → g = []) (hi : ∀ q₁, q = some q₁ → PhaseInv g q₁) :
    PhaseInv (g ++ es) q' := by
  cases ht with
  | admitted args =>
      rw [hnone rfl]
      refine ⟨by simp, by simp, by simp [mem_attempt], by simp [mem_attempt], ?_⟩
      intro res h
      rcases attempt_head (c := c) (T := T) args 1 .undefined with ⟨hhead, -⟩ | ⟨hhead, -⟩ <;>
        simp [Run.start, hhead] at h
  | refused args =>
      rw [hnone rfl]
      exact ⟨by simp, by simp, by simp, by simp, by simp⟩
  | responded args n duration random o o' lines hafter =>
      have hempty := (hi _ rfl).running _ rfl
      refine (hi _ rfl).of_live (by simp) (by simp [hempty]) (by simp) (by simp [mem_backoff])
        (by simp [mem_backoff]) ?_
      intro res h
      -- the loop settles on an answer only if that is a 2xx response
      have hrun : Run.onAttempt (policy args) n o' = .settled (.fulfilled res) := by simpa using h
      have ho' := (Run.onAttempt_eq_settled.mp hrun).1
      obtain ⟨rfl, hok⟩ :=
        HttpRequestExecutor.afterFetch_fulfilled_iff.mp ((congrArg Prod.fst hafter).trans ho')
      exact ⟨n, by simp, hok⟩
  | woken args n err =>
      have hempty := (hi _ rfl).running _ rfl
      refine (hi _ rfl).of_live (by simp) (by simp [hempty]) (by simp) (by simp [mem_attempt])
        (by simp [mem_attempt]) ?_
      intro res h
      rcases attempt_head (c := c) (T := T) args (n + 1) err with ⟨hhead, -⟩ | ⟨hhead, -⟩ <;>
        simp [Run.onSleep, hhead] at h
  | completed args o =>
      refine (hi _ rfl).of_live (by simp) (by simp) (by simp) (by simp) (by simp) ?_
      intro res h
      have ho : o = .fulfilled res := by simpa [eq_comm] using h
      obtain ⟨n, hn, hok⟩ := (hi _ rfl).source res (.inl (ho ▸ rfl))
      exact ⟨n, List.mem_append_left _ hn, hok⟩
  | firedFulfilled args res =>
      refine (hi _ rfl).of_live (by simp) (by simp) ?_ (by simp) (by simp) (by simp)
      intro r h
      cases h
      simpa using (ha _ rfl res).mp rfl
  | firedRejected args e =>
      exact (hi _ rfl).of_live (by simp) (by simp) (by simp) (by simp [eq_comm]) (by simp)
        (by simp)
  | read args res o' =>
      exact (hi _ rfl).of_live (by simp) (by simp) (by simp) (by simp [eq_comm])
        (by simp [eq_comm]) (by simp)

/-! ### The loop under transport failures -/

/-- The failure of the `n`-th attempt in a request that has not repeated it. -/
def Unretried (policy : RetryPolicy) (g : List (RequestEvent T)) (n : Nat) : Phase T → Prop
  | .running (.attempting _) => False
  | .running (.sleeping m err) => m = n ∧ err.isTransportError = true
  | .running (.settled o) => ∃ err, o = .rejected err ∧ err.isTransportError = true ∧
      JsNumber.le (n + 1 : ℕ) policy.maxAttempts = false
  | .firing | .reading _ | .done _ => ∃ err, completions g = [.rejected err] ∧
      err.isTransportError = true ∧ JsNumber.le (n + 1 : ℕ) policy.maxAttempts = false

/-- What the loop makes of the answers it got. -/
structure LoopInv (g : List (RequestEvent T)) (q : Request T) : Prop where
  fetched : ∀ n url init, .fetch n url init ∈ g →
    n ≤ fetches g ∧ JsNumber.le n (policy q.args).maxAttempts = true
  /-- A 2xx response ends the loop. -/
  answered : ∀ n res, .responded n (.fulfilled res) ∈ g → res.ok = true →
    n = fetches g ∧ (∀ m, q.phase ≠ .running (.attempting m)) ∧
      ∀ m e, q.phase ≠ .running (.sleeping m e)
  /-- A transport failure is repeated, or is what the loop ends with. -/
  failed : ∀ n e, .responded n (.rejected e) ∈ g → e.isRawTransport = true →
    (∃ url init, .fetch (n + 1) url init ∈ g) ∨ Unretried (policy q.args) g n q.phase

/-- A transport failure that ends the loop has used up the budget. -/
theorem not_le_succ_of_not_shouldRetry {policy : RetryPolicy} {n : Nat} {err : Thrown}
    (he : err.isTransportError = true) (hstop : shouldRetry err n policy = false) :
    JsNumber.le (n + 1 : ℕ) policy.maxAttempts = false := by
  by_contra hle
  have hmax := JsNumber.not_le_natCast_of_succ (Bool.not_eq_false _ ▸ hle)
  rw [shouldRetry_of_isTransportError he hmax] at hstop
  cases hstop

/-- An answer: a 2xx response ends the loop, and after a transport failure the loop sleeps or
ends with the failure. -/
theorem LoopInv.responded {g : List (RequestEvent T)} {args : RequestArgs} {n duration : Nat}
    {random : ℚ} {o o' : Outcome Response} {lines : List HttpClientLogFields}
    (hi : LoopInv g ⟨args, .running (.attempting n)⟩) (hm : c.mappers = providerMappers)
    (hn : fetches g = n)
    (hafter : HttpRequestExecutor.afterFetch c.mappers c.deps args duration o = (o', lines)) :
    LoopInv (g ++ .responded n o ::
        (lines.map .call ++ backoff args random (Run.onAttempt (policy args) n o')))
      ⟨args, .running (Run.onAttempt (policy args) n o')⟩ := by
  refine ⟨?_, ?_, ?_⟩
  · intro m url init h
    simpa using hi.fetched m url init (by simpa [mem_backoff] using h)
  · intro m res h hok
    rcases List.mem_append.mp h with h | h
    -- after a 2xx response no attempt is pending
    · exact absurd rfl ((hi.answered m res h hok).2.1 n)
    · obtain ⟨rfl, rfl⟩ : m = n ∧ .fulfilled res = o := by simpa [mem_backoff] using h
      have hfst : (HttpRequestExecutor.afterFetch c.mappers c.deps args duration
          (.fulfilled res)).1 = .fulfilled res :=
        HttpRequestExecutor.afterFetch_fulfilled_iff.mpr ⟨rfl, hok⟩
      rw [hafter] at hfst
      simp only at hfst
      simp [hfst, Run.onAttempt, hn]
  · intro m e h he
    rcases List.mem_append.mp h with h | h
    · rcases hi.failed m e h he with ⟨url, init, hfetch⟩ | hun
      · exact .inl ⟨url, init, by simp [hfetch]⟩
      · exact hun.elim
    · obtain ⟨rfl, rfl⟩ : m = n ∧ .rejected e = o := by simpa [mem_backoff] using h
      rw [HttpRequestExecutor.afterFetch, hm] at hafter
      obtain ⟨rfl, -⟩ := Prod.mk.injEq .. ▸ hafter
      have htrans := HttpRequestExecutor.attemptError_isTransportError c.deps args he
      refine .inr ?_
      rw [Run.onAttempt]
      split
      · exact ⟨rfl, htrans⟩
      · next hstop =>
        exact ⟨_, rfl, htrans, not_le_succ_of_not_shouldRetry htrans (by simpa using hstop)⟩

/-- Waking up: the failed attempt is repeated, or the loop ends with its failure. -/
theorem LoopInv.woken {g : List (RequestEvent T)} {args : RequestArgs} {n : Nat} {err : Thrown}
    (hi : LoopInv g ⟨args, .running (.sleeping n err)⟩) (hn : fetches g = n) :
    LoopInv (g ++ attempt c args (Run.onSleep (policy args) n err))
      ⟨args, .running (Run.onSleep (policy args) n err)⟩ := by
  rw [Run.onSleep]
  rcases attempt_head (c := c) (T := T) args (n + 1) err with
    ⟨hhead, hle, hone⟩ | ⟨hhead, hle, hnil⟩
  · rw [hhead] at hone ⊢
    refine ⟨?_, ?_, ?_⟩
    · intro m url init h
      rcases List.mem_append.mp h with h | h
      · have hold := hi.fetched m url init h
        exact ⟨by simp [hone]; omega, hold.2⟩
      · simp only [attempt, List.mem_singleton, RequestEvent.fetch.injEq] at h
        exact ⟨by simp [hone]; omega, h.1 ▸ hle⟩
    · intro m res h hok
      exact absurd rfl ((hi.answered m res (by simpa [attempt] using h) hok).2.2 n err)
    · intro m e h he
      rcases hi.failed m e (by simpa [attempt] using h) he with ⟨url, init, hfetch⟩ | hun
      · exact .inl ⟨url, init, by simp [hfetch]⟩
      · obtain ⟨rfl, -⟩ := hun
        exact .inl ⟨_, _, List.mem_append_right _ (List.mem_singleton_self _)⟩
  · rw [hnil, List.append_nil, hhead]
    refine ⟨hi.fetched, ?_, ?_⟩
    · intro m res h hok
      exact absurd rfl ((hi.answered m res h hok).2.2 n err)
    · intro m e h he
      rcases hi.failed m e h he with hfetch | ⟨rfl, htrans⟩
      · exact .inl hfetch
      · exact .inr ⟨err, rfl, htrans, hle⟩

/-- After the loop nothing is fetched and nothing answered. -/
theorem LoopInv.quiet {g es : List (RequestEvent T)} {args : RequestArgs} {phase phase' : Phase T}
    (hi : LoopInv g ⟨args, phase⟩) (hfetch : fetches es = 0)
    (hresponded : ∀ n o, .responded n o ∉ es) (hrunning : ∀ run, phase' ≠ .running run)
    (hun : ∀ n, Unretried (policy args) g n phase → Unretried (policy args) (g ++ es) n phase') :
    LoopInv (g ++ es) ⟨args, phase'⟩ := by
  refine ⟨?_, ?_, ?_⟩
  · intro n url init h
    have hnew : .fetch n url init ∉ es := fun h => List.countP_eq_zero.mp hfetch _ h rfl
    obtain ⟨hn, hle⟩ := hi.fetched n url init ((List.mem_append.mp h).resolve_right hnew)
    exact ⟨hn.trans (by simp), hle⟩
  · intro n res h hok
    have hold := (List.mem_append.mp h).resolve_right (hresponded n _)
    obtain ⟨hn, -⟩ := hi.answered n res hold hok
    exact ⟨hn.trans (by simp [hfetch]), fun m => hrunning _, fun m e => hrunning _⟩
  · intro n e h he
    have hold := (List.mem_append.mp h).resolve_right (hresponded n _)
    rcases hi.failed n e hold he with ⟨url, init, hfetched⟩ | hfailed
    · exact .inl ⟨url, init, List.mem_append_left _ hfetched⟩
    · exact .inr (hun n hfailed)

theorem Trans.loopInv {g es : List (RequestEvent T)} {q : Option (Request T)} {q' : Request T}
    {a : RequestAction T} (ht : Trans c q a q' es) (hm : c.mappers = providerMappers)
    (hnone : q = none → g = []) (hf : ∀ q₁, q = some q₁ → FetchInv g q₁)
    (hp : ∀ q₁, q = some q₁ → PhaseInv g q₁) (hi : ∀ q₁, q = some q₁ → LoopInv g q₁) :
    LoopInv (g ++ es) q' := by
  cases ht with
  | admitted args =>
      rw [hnone rfl, List.nil_append, Run.start]
      refine ⟨fun n url init h => ?_, by simp [mem_attempt], by simp [mem_attempt]⟩
      rcases attempt_head (c := c) (T := T) args 1 .undefined with
        ⟨hhead, hle, hone⟩ | ⟨hhead, -, hnil⟩
      · simp only [hhead, attempt, List.mem_cons, reduceCtorEq, RequestEvent.fetch.injEq,
          List.not_mem_nil, or_false, false_or] at h
        rw [hhead] at hone
        exact ⟨by simp [hhead, hone, h.1], h.1 ▸ hle⟩
      · simp [hnil] at h
  | refused args =>
      rw [hnone rfl]
      exact ⟨by simp, by simp, by simp⟩
  | responded args n duration random o o' lines hafter =>
      exact (hi _ rfl).responded hm ((hf _ rfl).attempting n rfl) hafter
  | woken args n err => exact (hi _ rfl).woken ((hf _ rfl).sleeping n err rfl)
  | completed args o =>
      have hempty := (hp _ rfl).running _ rfl
      refine (hi _ rfl).quiet (by simp) (by simp) (by simp) ?_
      intro n hun
      obtain ⟨err, ho, herr⟩ := hun
      exact ⟨err, by simp [hempty, ho], herr⟩
  | firedFulfilled args res | firedRejected args e | read args res o =>
      refine (hi _ rfl).quiet (by simp) (by simp) (by simp) ?_
      intro n hun
      obtain ⟨err, hc, herr⟩ := hun
      exact ⟨err, by simp [hc], herr⟩

/-- The invariants of a request's life together. -/
structure LifeInv (g : List (RequestEvent T)) (q : Request T) : Prop where
  fetch : FetchInv g q
  phase : PhaseInv g q
  loop : LoopInv g q

theorem lifeInv_of_reaches (hm : c.mappers = providerMappers) {g : List (RequestEvent T)}
    {q : Option (Request T)} (hr : (machine c T).ReachesWhen Honest g q) :
    (q = none → g = []) ∧ ∀ q₁, q = some q₁ → LifeInv g q₁ := by
  refine Machine.ReachesWhen.invariant_of
    (I := fun g q => (q = none → g = []) ∧ ∀ q₁, q = some q₁ → LifeInv g q₁)
    ⟨fun _ => rfl, fun _ h => by cases h⟩ (fun _ ⟨hnone, hi⟩ ha hs => ?_) hr
  obtain ⟨q₁, rfl, ht⟩ := trans_of_step hs
  refine ⟨by simp, ?_⟩
  intro q₂ h
  cases h
  exact ⟨ht.fetchInv hnone fun q hq => (hi q hq).fetch,
    ht.phaseInv ha hnone fun q hq => (hi q hq).phase,
    ht.loopInv hm hnone (fun q hq => (hi q hq).fetch) (fun q hq => (hi q hq).phase)
      fun q hq => (hi q hq).loop⟩

/-- A request that has settled takes no further step. -/
theorem Trans.settled_notMem {g es : List (RequestEvent T)} {q : Option (Request T)}
    {q' : Request T} {a : RequestAction T} (ht : Trans c q a q' es) (hnone : q = none → g = [])
    (hp : ∀ q₁, q = some q₁ → PhaseInv g q₁) (o : Outcome T) : .settled o ∉ g := by
  intro ho
  cases ht with
  | admitted | refused =>
      rw [hnone rfl] at ho
      cases ho
  | responded | woken | completed | firedFulfilled | firedRejected | read =>
      cases (hp _ rfl).settled o ho

/-! ### The law -/

/-- What a life that passes failures on keeps. -/
structure PassInv (g : List (RequestEvent T)) : Prop where
  body : ∀ e, .read (.rejected e) ∈ g → e.isRawTransport = false
  kept : ∀ o, .settled o ∈ g → LastFails g → ∃ e, o = .rejected e ∧ e.isTransportError = true

/-- Before the request settles there is nothing to keep. -/
theorem PassInv.quiet {g es : List (RequestEvent T)} (hi : PassInv g)
    (hfresh : ∀ o, .settled o ∉ g) (hread : ∀ o, .read o ∉ es) (hsettled : ∀ o, .settled o ∉ es) :
    PassInv (g ++ es) := by
  refine ⟨fun e h => hi.body e ((List.mem_append.mp h).resolve_right (hread _)), ?_⟩
  intro o h
  exact absurd h fun h => (List.mem_append.mp h).elim (hfresh o) (hsettled o)

theorem Trans.passInv {g es : List (RequestEvent T)} {q : Option (Request T)} {q' : Request T}
    {a : RequestAction T} (ht : Trans c q a q' es) (ha : PassesOn g q a)
    (hnone : q = none → g = []) (hl : ∀ q₁, q = some q₁ → LifeInv g q₁) (hi : PassInv g) :
    PassInv (g ++ es) := by
  have hfresh := ht.settled_notMem hnone fun q hq => (hl q hq).phase
  -- the failure of the last attempt is the one outcome the breaker has counted
  have hlast : ∀ q₁, q = some q₁ → (∀ run, q₁.phase ≠ .running run) → LastFails g →
      ∃ err, completions g = [.rejected err] ∧ err.isTransportError = true := by
    intro q₁ hq hrun hex
    obtain ⟨n, e, hn, he, hno⟩ := hex
    rcases (hl q₁ hq).loop.failed n e hn he with ⟨url, init, hfetch⟩ | hun
    · exact absurd hfetch (hno url init)
    · cases hphase : q₁.phase with
      | running run => exact absurd hphase (hrun run)
      | firing | reading | done =>
          rw [hphase] at hun
          obtain ⟨err, hc, htrans, -⟩ := hun
          exact ⟨err, hc, htrans⟩
  cases ht with
  | admitted args | woken args =>
      exact hi.quiet hfresh (by simp [mem_attempt]) (by simp [mem_attempt])
  | responded args => exact hi.quiet hfresh (by simp [mem_backoff]) (by simp [mem_backoff])
  | refused args | completed args | firedFulfilled args =>
      exact hi.quiet hfresh (by simp) (by simp)
  | firedRejected args err =>
      refine ⟨fun e h => hi.body e (by simpa using h), ?_⟩
      intro o h hf
      obtain rfl : o = .rejected err := by simpa [hfresh] using h
      have hf' : LastFails g := by simpa [LastFails] using hf
      obtain ⟨e, hc, htrans⟩ := hlast _ rfl (by simp) hf'
      have hpass := ha.2 _ rfl hf'
      rw [hc] at hpass
      cases hpass
      exact ⟨_, rfl, htrans⟩
  | read args res o' =>
      refine ⟨?_, ?_⟩
      · intro e h
        rcases List.mem_append.mp h with h | h
        · exact hi.body e h
        · obtain rfl : .rejected e = o' := by simpa using h
          exact ha.1 e rfl
      · intro o h hf
        have hf' : LastFails g := by simpa [LastFails] using hf
        obtain ⟨e, hc, -⟩ := hlast _ rfl (by simp) hf'
        rw [(hl _ rfl).phase.reading res rfl] at hc
        cases hc

/-- **The law holds of every life that passes its failures on.** -/
theorem transportLaw_of_reaches (hm : c.mappers = providerMappers) {g : List (RequestEvent T)}
    {q : Request T}
    (hr : (machine c T).ReachesWhen (fun g q a => Honest g q a ∧ PassesOn g q a) g (some q)) :
    TransportLaw (policy q.args) g := by
  have hpass : PassInv g := by
    refine Machine.ReachesWhen.invariant_of (I := fun g _ => PassInv g) ⟨by simp, by simp⟩
      (fun hr hi ha hs => ?_) hr
    obtain ⟨q₁, -, ht⟩ := trans_of_step hs
    have hl := lifeInv_of_reaches hm (hr.mono fun _ _ _ h => h.1)
    exact ht.passInv ha.2 hl.1 hl.2 hi
  have hl := (lifeInv_of_reaches hm (hr.mono fun _ _ _ h => h.1)).2 q rfl
  intro n hor o ho
  rcases hor with ⟨e, hn, he⟩ | ⟨-, e, -, -, hread, he⟩
  · rcases hl.loop.failed n e hn he with ⟨url, init, hfetch⟩ | hun
    · have hle := (hl.loop.fetched _ _ _ hfetch).2
      exact ⟨fun _ => ⟨url, init, hfetch⟩, by simp [hle], by simp [hle]⟩
    · rw [hl.phase.settled o ho] at hun
      obtain ⟨err, hc, -, hle⟩ := hun
      refine ⟨by simp [hle], fun _ => hpass.kept o ho ⟨n, e, hn, he, fun url init h => ?_⟩,
        fun _ => ⟨err, hc⟩⟩
      have := (hl.loop.fetched _ _ _ h).2
      rw [hle] at this
      cases this
  · have := hpass.body e hread
    rw [he] at this
    cases this

/-- A law that holds of a longer life held of the shorter one. -/
theorem Trans.transportLaw_of_append {g es : List (RequestEvent T)} {q : Option (Request T)}
    {q' : Request T} {a : RequestAction T} (ht : Trans c q a q' es) (hnone : q = none → g = [])
    (hp : ∀ q₁, q = some q₁ → PhaseInv g q₁) (policy : RetryPolicy) : TransportLaw policy g :=
  fun _ _ o ho => absurd ho (ht.settled_notMem hnone hp o)

/-- A step that cuts a body off, or on which the breaker keeps the failure of the
last attempt to itself, breaks the law. -/
theorem not_transportLaw_of_not_passesOn (hm : c.mappers = providerMappers)
    {g es : List (RequestEvent T)} {q : Option (Request T)} {q₁ : Request T}
    {a : RequestAction T} (hr : (machine c T).ReachesWhen Honest g q)
    (hs : (machine c T).step q a = some (some q₁, es)) (ha : Honest g q a)
    (hopen : ∀ r, a = .fired r → completions g = [r] ∨
      ∀ e, r = .rejected e → e.isTransportError = false)
    (hnot : ¬ PassesOn g q a) : ¬ TransportLaw (policy q₁.args) (g ++ es) := by
  intro hlaw
  have hl := lifeInv_of_reaches hm hr
  have hl' := (lifeInv_of_reaches hm (hr.step ha hs)).2 _ rfl
  obtain ⟨q₂, hq₂, ht⟩ := trans_of_step hs
  cases hq₂
  apply hnot
  refine ⟨?_, ?_⟩
  -- A body that is cut off: the law would have it tried again, or counted as a failure.
  · intro e ha
    subst ha
    cases ht with
    | read args res =>
        by_contra he
        have hc := (hl.2 _ rfl).phase.reading res rfl
        obtain ⟨n, hn, hok⟩ := (hl.2 _ rfl).phase.source res (.inr (by simp [hc]))
        have hhandled := hlaw n (.inr ⟨res, e, by simp [hn], hok, by simp, by simpa using he⟩)
          (.rejected e) (by simp)
        cases hle : JsNumber.le (n + 1 : ℕ) (policy args).maxAttempts with
        | true =>
            obtain ⟨url, init, hfetch⟩ := hhandled.retried hle
            have hcount := (hl'.loop.fetched _ _ _ hfetch).1
            have hlast := (hl'.loop.answered n res (by simp [hn]) hok).1
            omega
        | false =>
            obtain ⟨err, herr⟩ := hhandled.counted hle
            simp [hc] at herr
  -- A last failure that the breaker keeps to itself: the law wants it to be passed on.
  · intro r ha hf
    subst ha
    rcases hopen r rfl with hc | hopen
    · exact hc
    · obtain ⟨n, e, hn, he, hno⟩ := hf
      cases ht with
      | firedFulfilled args res =>
          exact (ha _ rfl res).mp rfl
      | firedRejected args err =>
          have hhandled := hlaw n (.inl ⟨e, by simp [hn], he⟩) (.rejected err) (by simp)
          cases hle : JsNumber.le (n + 1 : ℕ) (policy args).maxAttempts with
          | true =>
              obtain ⟨url, init, hfetch⟩ := hhandled.retried hle
              exact absurd (by simpa using hfetch) (hno url init)
          | false =>
              obtain ⟨e', he', htrans⟩ := hhandled.rejects hle
              cases he'
              rw [hopen _ rfl] at htrans
              cases htrans

end Request

end EmailPlatform.Http
