import EmailPlatform.Http.ClientLaws

/-!
# EmailPlatform.Http.RequestLife

**The history of a request, written out.** A request is a conversation with its vendor: one
round an attempt, in which `fetch` is called, answers and is logged, with a pause behind every
round that is repeated. Then the breaker hears of the outcome once, and what is left are the
body and the promise. `Life` gives the whole history in this form, round by round, and
`life_of_reaches` says that every history of every request of a client has it, whatever its
other requests and the breaker are doing.

What is known of the rounds is read off it: their numbers, the log, the time spent waiting
(`EmailPlatform.Http.RequestAccounts`).
-/

namespace EmailPlatform.Http

variable {O : Opossum} {T : Type} {c : AbstractHttpClient}

/-- One attempt, as its `fetch` answers it. -/
structure Round where
  answer : Outcome Response
  duration : ℕ
  /-- The draw of the backoff. -/
  random : ℚ
  deriving DecidableEq

namespace Round

variable (c) (args : RequestArgs)

/-- The outcome of the attempt. -/
def result (r : Round) : Outcome Response :=
  (HttpRequestExecutor.afterFetch c.mappers c.deps args r.duration r.answer).1

/-- The lines that the attempt logs. -/
def lines (r : Round) : List HttpClientLogFields :=
  (HttpRequestExecutor.afterFetch c.mappers c.deps args r.duration r.answer).2

/-- The error that the loop keeps of the attempt. -/
def error (r : Round) : Thrown :=
  match r.result c args with
  | .rejected err => err
  | .fulfilled _ => .undefined

/-- What happens in the `n`-th round. -/
def events (n : ℕ) (r : Round) : List (RequestEvent T) :=
  Request.attempt c args (.attempting n) ++ .responded n r.answer :: (r.lines c args).map .call

/-- The pause behind the `n`-th round. -/
def pause (n : ℕ) (r : Round) : RequestEvent T :=
  .sleep (backoffWithJitter n (Request.policy args) r.random)

/-- The `n`-th round fails, and the policy has it repeated. -/
def Repeated (n : ℕ) (r : Round) : Prop :=
  ∃ err, r.result c args = .rejected err ∧ shouldRetry err n (Request.policy args) = true

end Round

/-- Rounds that were all repeated. -/
def repeats (c : AbstractHttpClient) (args : RequestArgs) (rs : List Round) :
    List (RequestEvent T) :=
  (rs.mapIdx fun k r => r.events c args (k + 1) ++ [r.pause args (k + 1)]).flatten

@[simp] theorem repeats_nil (args : RequestArgs) : repeats (T := T) c args [] = [] := rfl

@[simp] theorem repeats_concat (args : RequestArgs) (rs : List Round) (r : Round) :
    repeats (T := T) c args (rs ++ [r]) =
      repeats c args rs ++ (r.events c args (rs.length + 1) ++ [r.pause args (rs.length + 1)]) := by
  simp [repeats, List.mapIdx_concat]

/-- Each round is within the budget, answered as `A` allows, and repeated. -/
def AllRepeated (c : AbstractHttpClient) (A : Round → Prop) (args : RequestArgs)
    (rs : List Round) : Prop :=
  ∀ (k : ℕ) (r : Round), rs[k]? = some r →
    JsNumber.le (k + 1 : ℕ) (Request.policy args).maxAttempts = true ∧ A r ∧
      r.Repeated c args (k + 1)

theorem AllRepeated.nil {A : Round → Prop} {args : RequestArgs} : AllRepeated c A args [] := by
  simp [AllRepeated]

theorem AllRepeated.concat {A : Round → Prop} {args : RequestArgs} {rs : List Round} {r : Round}
    (hrs : AllRepeated c A args rs)
    (hle : JsNumber.le (rs.length + 1 : ℕ) (Request.policy args).maxAttempts = true) (hA : A r)
    (hr : r.Repeated c args (rs.length + 1)) : AllRepeated c A args (rs ++ [r]) := by
  intro k r' hk
  rcases getElem?_concat_cases hk with ⟨rfl, rfl⟩ | hk
  · exact ⟨hle, hA, hr⟩
  · exact hrs k r' hk

/-- The error of the last of the rounds. -/
def lastError (c : AbstractHttpClient) (args : RequestArgs) (rs : List Round) : Thrown :=
  (rs.getLast?.map (Round.error c args)).getD .undefined

/-- The retry loop has run, with this outcome and this history. -/
inductive Loop (c : AbstractHttpClient) (A : Round → Prop) (args : RequestArgs) :
    Outcome Response → List (RequestEvent T) → Prop
  /-- The last round is not repeated, and decides. -/
  | decided {rs : List Round} {r : Round} :
      AllRepeated c A args rs →
      JsNumber.le (rs.length + 1 : ℕ) (Request.policy args).maxAttempts = true → A r →
      ¬ r.Repeated c args (rs.length + 1) →
      Loop c A args (r.result c args)
        (.invoked :: (repeats c args rs ++ r.events c args (rs.length + 1)))
  /-- The budget ends between two rounds, or before the first. -/
  | exhausted {rs : List Round} :
      AllRepeated c A args rs →
      JsNumber.le (rs.length + 1 : ℕ) (Request.policy args).maxAttempts = false →
      Loop c A args (.rejected (lastError c args rs)) (.invoked :: repeats c args rs)

/-- The history of a request, by its phase. -/
inductive Life (c : AbstractHttpClient) (A : Round → Prop) (args : RequestArgs) :
    Phase T → List (RequestEvent T) → Prop
  | attempting {rs : List Round} :
      AllRepeated c A args rs →
      JsNumber.le (rs.length + 1 : ℕ) (Request.policy args).maxAttempts = true →
      Life c A args (.running (.attempting (rs.length + 1)))
        (.invoked :: (repeats c args rs ++ Request.attempt c args (.attempting (rs.length + 1))))
  | sleeping {rs : List Round} {r : Round} :
      AllRepeated c A args (rs ++ [r]) →
      Life c A args (.running (.sleeping (rs.length + 1) (r.error c args)))
        (.invoked :: repeats c args (rs ++ [r]))
  | looped {o : Outcome Response} {g : List (RequestEvent T)} :
      Loop c A args o g → Life c A args (.running (.settled o)) g
  /-- opossum did not run the action. -/
  | refused : Life c A args .firing [.refused]
  | counted {o : Outcome Response} {g : List (RequestEvent T)} :
      Loop c A args o g → Life c A args .firing (g ++ [.completed o])
  | reading {res : Response} {g : List (RequestEvent T)} :
      Loop c A args (.fulfilled res) g →
      Life c A args (.reading res) (g ++ [.completed (.fulfilled res), .fired (.fulfilled res)])
  | turnedAway {e : Thrown} :
      Life c A args (.done (.rejected e)) [.refused, .fired (.rejected e), .settled (.rejected e)]
  /-- The failure reaches the caller as it is, or as `CircuitOpenError`. -/
  | failed {err e : Thrown} {g : List (RequestEvent T)} :
      Loop c A args (.rejected err) g → e = err ∨ e = .newCircuitOpenError c.deps.cb.api →
      Life c A args (.done (.rejected e))
        (g ++ [.completed (.rejected err), .fired (.rejected e), .settled (.rejected e)])
  | read {res : Response} {o : Outcome T} {g : List (RequestEvent T)} :
      Loop c A args (.fulfilled res) g →
      Life c A args (.done o)
        (g ++ [.completed (.fulfilled res), .fired (.fulfilled res), .read o, .settled o])

namespace Request

variable {A : Round → Prop}

/-- A loop has not told the breaker anything. -/
theorem completions_repeats (args : RequestArgs) (rs : List Round) :
    completions (repeats (T := T) c args rs) = [] := by
  induction rs using List.reverseRecOn with
  | nil => rfl
  | append_singleton rs r ih => simp [ih, Round.events, Round.pause]

theorem completions_loop {args : RequestArgs} {o : Outcome Response} {g : List (RequestEvent T)}
    (hl : Loop c A args o g) : completions g = [] := by
  cases hl <;> simp [completions_repeats, Round.events]

/-- At its head the loop makes the next attempt, or its budget has ended. -/
theorem life_head {args : RequestArgs} {rs : List Round} (hrs : AllRepeated c A args rs) :
    Life c A args
      (.running (Run.head (policy args) (rs.length + 1) (lastError c args rs)))
      (.invoked :: (repeats (T := T) c args rs ++
        attempt c args (Run.head (policy args) (rs.length + 1) (lastError c args rs)))) := by
  cases hle : JsNumber.le (rs.length + 1 : ℕ) (policy args).maxAttempts with
  | true =>
      rw [Run.head_eq_attempting.mpr ⟨rfl, hle⟩]
      exact .attempting hrs hle
  | false =>
      rw [Run.head, if_neg (by simp [hle]), attempt, List.append_nil]
      exact .looped (.exhausted hrs hle)

/-- A round that `fetch` has answered is repeated after a pause, or decides. -/
theorem life_answered {args : RequestArgs} {rs : List Round} (r : Round)
    (hrs : AllRepeated c A args rs)
    (hle : JsNumber.le (rs.length + 1 : ℕ) (policy args).maxAttempts = true) (hA : A r) :
    Life c A args (.running (Run.onAttempt (policy args) (rs.length + 1) (r.result c args)))
      (.invoked :: (repeats (T := T) c args rs ++ (r.events c args (rs.length + 1) ++
        backoff args r.random
          (Run.onAttempt (policy args) (rs.length + 1) (r.result c args))))) := by
  cases hrun : Run.onAttempt (policy args) (rs.length + 1) (r.result c args) with
  | attempting m => exact absurd hrun Run.onAttempt_ne_attempting
  | sleeping m err =>
      obtain ⟨rfl, hresult, hretry⟩ := Run.onAttempt_eq_sleeping.mp hrun
      have herr : err = r.error c args := by simp [Round.error, hresult]
      have hlife := Life.sleeping (T := T) (hrs.concat hle hA ⟨err, hresult, hretry⟩)
      rw [repeats_concat] at hlife
      rw [herr]
      exact hlife
  | settled o =>
      obtain ⟨rfl, hstop⟩ := Run.onAttempt_eq_settled.mp hrun
      rw [backoff, List.append_nil]
      refine .looped (.decided hrs hle hA ?_)
      intro hagain
      obtain ⟨err, hresult, hretry⟩ := hagain
      rw [hstop err hresult] at hretry
      cases hretry

/-- The breaker refuses the request, or relays what it has counted for it; a failure it may
relay as `CircuitOpenError`. -/
def Relays (c : AbstractHttpClient) (g : List (RequestEvent T)) (a : RequestAction T) : Prop :=
  ∀ r, a = .fired r → (completions g = [] ∧ ∃ e, r = .rejected e) ∨
    ∃ o, completions g = [o] ∧
      (r = o ∨ ∃ err, o = .rejected err ∧ r = .rejected (.newCircuitOpenError c.deps.cb.api))

/-- The answers that a step brings are allowed. -/
def Answers (A : Round → Prop) (a : RequestAction T) : Prop :=
  ∀ d u o, a = .respond d u o → A ⟨o, d, u⟩

theorem Trans.life {g es : List (RequestEvent T)} {q : Option (Request T)} {q' : Request T}
    {a : RequestAction T} (ht : Trans c q a q' es) (ha : Relays c g a) (hA : Answers A a)
    (hnone : q = none → g = []) (hi : ∀ q₁, q = some q₁ → Life c A q₁.args q₁.phase g) :
    Life c A q'.args q'.phase (g ++ es) := by
  cases ht with
  | admitted args =>
      rw [hnone rfl]
      exact life_head .nil
  | refused args =>
      rw [hnone rfl]
      exact .refused
  -- An answer makes the next round, and the rounds before it are those of the loop.
  | responded args n duration random o o' lines hafter =>
      have hl : Life c A args (.running (.attempting n)) g := hi _ rfl
      cases hl with
      | @attempting rs hrs hle =>
          have hlife := life_answered (T := T) ⟨o, duration, random⟩ hrs hle (hA _ _ _ rfl)
          simp only [Round.result, Round.events, Round.lines, hafter] at hlife
          simpa using hlife
  | woken args n err =>
      have hl : Life c A args (.running (.sleeping n err)) g := hi _ rfl
      cases hl with
      | @sleeping rs r hrs =>
          have hlife := life_head (T := T) hrs
          simpa [Run.onSleep, lastError] using hlife
  | completed args o =>
      have hl : Life c A args (.running (.settled o)) g := hi _ rfl
      cases hl with
      | looped hloop => exact .counted hloop
  -- The breaker passes on what it was told, and it was told of one outcome.
  | firedFulfilled args res =>
      have hl : Life c A args .firing g := hi _ rfl
      cases hl with
      | refused =>
          have hrelay := ha _ rfl
          simp at hrelay
      | @counted o g hloop =>
          have hrelay := ha _ rfl
          simp only [completions_append, completions_loop hloop] at hrelay
          obtain rfl : .fulfilled res = o := by simpa using hrelay
          have hlife := Life.reading (T := T) hloop
          simpa using hlife
  -- A rejection is that outcome, or takes its place when the circuit is open.
  | firedRejected args e =>
      have hl : Life c A args .firing g := hi _ rfl
      cases hl with
      | refused => exact .turnedAway
      | @counted o g hloop =>
          have hrelay := ha _ rfl
          simp only [completions_append, completions_loop hloop] at hrelay
          obtain ⟨err, rfl, he⟩ : ∃ err, o = .rejected err ∧
              (e = err ∨ e = .newCircuitOpenError c.deps.cb.api) := by
            cases o with
            | fulfilled res => simp at hrelay
            | rejected err => simpa using hrelay
          have hlife := Life.failed (T := T) hloop he
          simpa using hlife
  | read args res o =>
      have hl : Life c A args (.reading res) g := hi _ rfl
      cases hl with
      | reading hloop =>
          have hlife := Life.read (T := T) (o := o) hloop
          simpa using hlife

end Request

namespace ClientSystem

variable {A : Round → Prop} {h : List (ClientEvent T)} {s : ClientSystem O T}

/-- Every answer of the vendor is one that `A` allows. -/
def VendorAnswers (A : Round → Prop) (_ : List (ClientEvent T)) (_ : ClientSystem O T)
    (a : ClientAction T) : Prop :=
  ∀ i d u o, a = .respond i d u o → A ⟨o, d, u⟩

instance [DecidablePred A] (h : List (ClientEvent T)) (s : ClientSystem O T) :
    ∀ a, Decidable (VendorAnswers A h s a)
  | .respond i d u o => decidable_of_iff (A ⟨o, d, u⟩)
      ⟨fun hA _ _ _ _ heq => by cases heq; exact hA, fun hA => hA i d u o rfl⟩
  | .request _ | .dispose | .wake _ | .complete _ | .emit _ | .settle _ | .json _ _ | .tick =>
    isTrue fun _ _ _ _ heq => by cases heq

/-- The adapter relays what it has counted. -/
theorem relays_of_settle (hr : (machine O T c).Reaches h s) {i : Nat} {ra : RequestAction T}
    {b : BreakerSystem O Response}
    (hfired : ∀ r, ra = .fired r →
      BreakerSystem.step c.deps.cb s.breaker (.settle i) = some (b, [.settled i r])) :
    Request.Relays c (requestHistory i h) ra := by
  intro r hra
  rw [completions_of_reaches hr]
  rcases settle_cases (hfired r hra) with ⟨e, hc, rfl⟩ | ⟨o, hc, rfl⟩
  · refine .inl ⟨by simp [hc, Call.outcome], ?_⟩
    rw [Adapter.fireCatch]
    split
    · exact ⟨_, rfl⟩
    · exact ⟨_, rfl⟩
  · refine .inr ⟨o, by simp [hc, Call.outcome], ?_⟩
    cases o with
    | fulfilled res => exact .inl rfl
    | rejected err =>
        rw [Adapter.fireCatch]
        split
        · exact .inr ⟨err, rfl, rfl⟩
        · exact .inl rfl

/-- A request that was not made yet has no history, and the history of one that was made is a
life. -/
theorem lives_of_reaches (hr : (machine O T c).ReachesWhen (VendorAnswers A) h s) (i : ℕ) :
    (s.requests[i]? = none → requestHistory i h = []) ∧
      ∀ q, s.requests[i]? = some q → Life c A q.args q.phase (requestHistory i h) := by
  refine Machine.ReachesWhen.invariant_of (I := fun h s => ∀ i,
    (s.requests[i]? = none → requestHistory i h = []) ∧
      ∀ q, s.requests[i]? = some q → Life c A q.args q.phase (requestHistory i h))
    (fun i => ⟨fun _ => rfl, by simp [machine]⟩) (fun hr hi ha hs i => ?_) hr i
  rw [requestHistory_append]
  rcases (trans_of_step hs).toRequest i with
    ⟨hsame, hquiet⟩ | ⟨ra, q', hq', ht, -, hfired, hrespond⟩
  · rw [hsame, hquiet, List.append_nil]
    exact hi i
  · rw [hq']
    refine ⟨by simp, fun q₁ hq₁ => ?_⟩
    obtain rfl := Option.some.inj hq₁
    exact ht.life (relays_of_settle hr.reaches fun r hra => (hfired r hra).2)
      (fun d u o hra => ha i d u o (hrespond d u o hra)) (hi i).1 (hi i).2

/-- **The history of every request of a client has the form of a life**, in every run whose
answers are as `A` allows. -/
theorem life_of_reaches (hr : (machine O T c).ReachesWhen (VendorAnswers A) h s) {i : ℕ}
    {q : Request T} (hq : s.requests[i]? = some q) :
    Life c A q.args q.phase (requestHistory i h) :=
  (lives_of_reaches hr i).2 q hq

/-! ### A request that is repeated -/

/-- A message is looked up. -/
def lookup : RequestArgs := AbstractHttpClient.get "/m" none

/-- The vendor is unavailable for a moment, and the second attempt is answered. -/
def unavailable : Round := ⟨.fulfilled ⟨503⟩, 12, 1 / 2⟩

@[inherit_doc unavailable]
def available : Round := ⟨.fulfilled ⟨200⟩, 8, 0⟩

@[inherit_doc unavailable]
def repeatedLookup : List (ClientAction Nat) :=
  [.request lookup, .respond 0 unavailable.duration unavailable.random unavailable.answer, .wake 0,
    .respond 0 available.duration available.random available.answer, .complete 0, .emit 0,
    .settle 0, .json 0 (.fulfilled 7)]

/-- The history of the request: two rounds with a pause between them, and a body. -/
def lookupHistory : List (RequestEvent Nat) :=
  .invoked :: repeats (vendorClient 5) lookup [unavailable] ++
    available.events (vendorClient 5) lookup 2 ++
    [.completed (.fulfilled ⟨200⟩), .fired (.fulfilled ⟨200⟩), .read (.fulfilled 7),
      .settled (.fulfilled 7)]

/-- The request reads what the second attempt was answered. -/
theorem repeatedLookup_runs (hA : ∀ r ∈ [unavailable, available], A r) :
    ∃ h s, (machine .v9 Nat (vendorClient 5)).ReachesWhen (VendorAnswers A) h s ∧
      s.requests[0]? = some ⟨lookup, .done (.fulfilled 7)⟩ ∧
      requestHistory 0 h = lookupHistory := by
  obtain ⟨h, s, hr, hdone⟩ := Machine.exists_reachesWhen_and
    (M := machine .v9 Nat (vendorClient 5)) (C := VendorAnswers (· ∈ [unavailable, available]))
    (P := fun h s => s.requests[0]? = some ⟨lookup, .done (.fulfilled 7)⟩ ∧
      requestHistory 0 h = lookupHistory)
    repeatedLookup (by decide +kernel)
  exact ⟨h, s, hr.mono fun _ _ _ ha i d u o heq => hA _ (ha i d u o heq), hdone⟩

theorem life_of_reaches_repeatedLookup :
    ∃ h : List (ClientEvent Nat), Life (vendorClient 5) (fun _ => True) lookup
      (.done (.fulfilled 7)) (requestHistory 0 h) := by
  obtain ⟨h, s, hr, hdone, -⟩ := repeatedLookup_runs (A := fun _ => True) (fun _ _ => trivial)
  exact ⟨h, life_of_reaches hr hdone⟩

end ClientSystem

end EmailPlatform.Http
