import EmailPlatform.Http.CircuitBreakerOutcome
import EmailPlatform.Http.ClientRuns

/-!
# EmailPlatform.Http.ClientLaws

Laws of a whole client, over every interleaving of its requests:

* `consecutiveFailures_law`: the counter of a closed breaker is the number of failing
  requests since its last reset, and the threshold is where it opens;
* `atMostOneSend`: a request that is not idempotent is sent once, or not at all when
  the breaker refused it;
* `admission_law`: while the circuit is open nothing is admitted, and what is still
  sent belongs to requests admitted before;
* `transportLaw_iff`: transport failures are treated the same in every phase of a
  response in exactly the runs in which none of them interrupts a body and the
  breaker passes the last one on.
-/

namespace EmailPlatform.Http

variable {O : Opossum} {R T : Type} {c : AbstractHttpClient}

open ClientSystem (breaker_reaches breaker_undisposed request_reaches request_honest
  completions_of_reaches)

/-! ### A client to run the laws on -/

/-- Options of a client at `v:` whose breaker opens at `threshold` failures. -/
def vendorOpts (threshold : Nat) : HttpClientProviderOpts where
  logContext := "V"
  baseUrlLiteral := some "v:"
  consecutiveThreshold := some threshold

/-- The client the provider builds for them. -/
def vendorClient (threshold : Nat) : AbstractHttpClient where
  deps := {
    baseUrl := "v:"
    defaultTimeoutMs := DEFAULT_TIMEOUT_MS
    logContext := "V"
    cb := {
      consecutiveThreshold := threshold
      halfOpenAfterMs := CB_HALF_OPEN_AFTER_MS
      api := "V" } }
  mappers := providerMappers
  buildAuthHeaders := []

theorem httpClientProvider_vendorOpts (threshold : Nat) :
    httpClientProvider (vendorOpts threshold) (fun _ => "") [] = .ok (vendorClient threshold) :=
  rfl

/-- A message of the Telegram adapter. -/
def message : RequestArgs := TelegramClient.sendMessage (B := Unit) (fun _ => some "{}") "t" ()

/-- A connection that breaks. -/
def connectionError : Thrown :=
  .error .typeError "TypeError" "fetch failed" true (.newError "ECONNRESET")

/-- The message is sent, the connection breaks, and the request ends. -/
def failedMessage : List (ClientAction Nat) :=
  [.request message, .respond 0 12 0 (.rejected connectionError), .complete 0, .emit 0, .settle 0]

/-! ### At most one send -/

/-- **A request that is not idempotent is sent at most once**, and not at all exactly
when the breaker refused it. -/
theorem atMostOneSend {h : List (ClientEvent T)} {s : ClientSystem O T}
    (hr : (ClientSystem.machine O T c).Reaches h s) :
    (∀ (i : Nat) (q : Request T), s.requests[i]? = some q →
      q.args.method ≠ .GET ∧ q.args.method ≠ .HEAD → q.args.opts.idempotent ≠ some true →
        fetches (requestHistory i h) ≤ 1 ∧
          (fetches (requestHistory i h) = 0 ↔ .request i .refused ∈ h)) ∧
      ∀ (B : Type) (stringify : B → Option String) (botToken : String) (req : B) (i : Nat)
        (q : Request T), s.requests[i]? = some q →
        q.args = TelegramClient.sendMessage stringify botToken req →
          fetches (requestHistory i h) ≤ 1 ∧
            ∀ n url init, .request i (.fetch n url init) ∈ h → init.method = .POST := by
  have hlaw : ∀ (i : Nat) (q : Request T), s.requests[i]? = some q →
      q.args.method ≠ .GET ∧ q.args.method ≠ .HEAD → q.args.opts.idempotent ≠ some true →
        fetches (requestHistory i h) ≤ 1 ∧
          (fetches (requestHistory i h) = 0 ↔ .request i .refused ∈ h) := by
    intro i q hq hmethod hidem
    have hlife := request_reaches hr i
    rw [hq] at hlife
    rw [← mem_requestHistory]
    exact Request.fetches_singleShot hlife (resolveRetryPolicy_singleShot hmethod hidem)
  refine ⟨hlaw, ?_⟩
  intro B stringify botToken req i q hq hargs
  refine ⟨(hlaw i q hq (by simp [hargs, TelegramClient.sendMessage, AbstractHttpClient.post])
    (by simp [hargs, TelegramClient.sendMessage, AbstractHttpClient.post])).1,
    fun n url init hfetch => ?_⟩
  have hlife := request_reaches hr i
  rw [hq] at hlife
  rw [(Request.fetch_eq_of_mem hlife (mem_requestHistory.mpr hfetch)).2, hargs]
  rfl

/-- That run is possible, and the connection did break. -/
theorem failedMessage_runs :
    ∃ h s, (ClientSystem.machine .v9 Nat (vendorClient 5)).ReachesWhen (fun _ _ _ => True) h s ∧
      s.requests[0]?.map Request.args = some message ∧
      .request 0 (.responded 1 (.rejected connectionError)) ∈ h :=
  Machine.exists_reachesWhen_and failedMessage (by decide +kernel)

theorem atMostOneSend_failedMessage :
    ∃ h : List (ClientEvent Nat), fetches (requestHistory 0 h) ≤ 1 ∧
      .request 0 (.responded 1 (.rejected connectionError)) ∈ h := by
  obtain ⟨h, s, hr, hargs, hbroken⟩ := failedMessage_runs
  obtain ⟨q, hq, hargs⟩ := Option.map_eq_some_iff.mp hargs
  exact ⟨h, ((atMostOneSend hr).2 _ _ _ _ 0 q hq hargs).1, hbroken⟩

/-! ### Consecutive failures -/

/-- What the breaker counts of one request: at most one completion, and exactly one
when it was admitted and `fire` has settled. -/
theorem completions_length {h : List (ClientEvent T)} {s : ClientSystem O T}
    (hr : (ClientSystem.machine O T c).Reaches h s) (i : Nat) :
    (completions (requestHistory i h)).length ≤ 1 ∧
      ∀ r, .request i .invoked ∈ h → .request i (.fired r) ∈ h →
        (completions (requestHistory i h)).length = 1 := by
  rw [completions_of_reaches hr]
  refine ⟨by cases s.breaker.calls[i]?.bind Call.outcome <;> simp, ?_⟩
  intro r hinvoked hfired
  have hbr := breaker_reaches hr
  obtain ⟨call, hc, hadmitted⟩ := (invoked_mem_iff_call hbr).mp
    (List.mem_filterMap.mpr ⟨_, hinvoked, rfl⟩)
  obtain ⟨inner, hc'⟩ := (settled_mem_iff_call hbr).mp
    (List.mem_filterMap.mpr ⟨_, hfired, rfl⟩)
  obtain rfl := Option.some.inj (hc.symm.trans hc')
  cases inner with
  | none => cases hadmitted
  | some o => simp [hc, Call.outcome]

/-- An attempt inside a request starts and ends without the breaker noticing. -/
theorem breaker_of_attempt {s s' : ClientSystem O T} {a : ClientAction T}
    {es : List (ClientEvent T)} (ha : (∃ i d u o, a = .respond i d u o) ∨ ∃ i, a = .wake i)
    (hs : (ClientSystem.machine O T c).step s a = some (s', es)) : s'.breaker = s.breaker := by
  cases ClientSystem.trans_of_step hs with
  | own => rfl
  | request | complete | settle | dispose =>
      rcases ha with ⟨_, _, _, _, ha⟩ | ⟨_, ha⟩ <;> cases ha
  | breaker hba =>
      rcases hba with ⟨_, rfl, -⟩ | ⟨rfl, -⟩ <;>
        rcases ha with ⟨_, _, _, _, ha⟩ | ⟨_, ha⟩ <;> cases ha

/-- **The consecutive-failure law**, of the adapter under any interleaving of calls,
and of a client, where a request counts as one completion however many attempts run
inside it. -/
theorem consecutiveFailures_law :
    (∀ (opts : CbOptions) (h : List (Event R)) (s : BreakerSystem O R),
      1 ≤ opts.consecutiveThreshold →
      (BreakerSystem.machine O R opts).ReachesWhen Undisposed h s →
        ConsecutiveFailureLaw opts h s) ∧
      ∀ (c : AbstractHttpClient) (h : List (ClientEvent T)) (s : ClientSystem O T),
        1 ≤ c.deps.cb.consecutiveThreshold →
        (ClientSystem.machine O T c).ReachesWhen ClientSystem.Undisposed h s →
          ConsecutiveFailureLaw c.deps.cb (breakerHistory h) s.breaker ∧
            (∀ i, (completions (requestHistory i h)).length ≤ 1 ∧
              ∀ r, .request i .invoked ∈ h → .request i (.fired r) ∈ h →
                (completions (requestHistory i h)).length = 1) ∧
            ∀ a s' es, (∃ i d u o, a = .respond i d u o) ∨ (∃ i, a = .wake i) →
              (ClientSystem.machine O T c).step s a = some (s', es) → s'.breaker = s.breaker :=
  ⟨fun _ _ _ hthr hr => consecutiveFailureLaw_of_reaches hthr hr,
    fun _ _ _ hthr hr =>
      ⟨consecutiveFailureLaw_of_reaches hthr (breaker_undisposed hr),
        completions_length hr.reaches, fun _ _ _ => breaker_of_attempt⟩⟩

/-- One failure below the threshold. -/
theorem oneFailure_runs :
    ∃ h s, (BreakerSystem.machine .v9 Nat twoStrikes).ReachesWhen Undisposed h s ∧
      s.cb = .closed ∧ failuresSince h = 1 :=
  Machine.exists_reachesWhen_and
    [.fire, .complete 0 (.rejected vendorError), .emit 0, .settle 0] (by decide +kernel)

theorem consecutiveFailures_law_oneFailure :
    ∃ (h : List (Event Nat)) (s : BreakerSystem .v9 Nat), failuresSince h = 1 ∧
      s.adapter.state.consecutiveFailures = 1 := by
  obtain ⟨h, s, hr, hcb, hone⟩ := oneFailure_runs
  have hlaw := (consecutiveFailures_law (T := Nat)).1 twoStrikes h s (by decide) hr
  exact ⟨h, s, hone, hone ▸ (hlaw.counter hcb).1⟩

/-! ### Admission -/

/-- A fetch that starts while the circuit is open belongs to a request admitted
before it opened. -/
theorem fetch_while_opened (hthr : 1 ≤ c.deps.cb.consecutiveThreshold)
    {h : List (ClientEvent T)} {s s' : ClientSystem O T} {a : ClientAction T}
    {es : List (ClientEvent T)} {i n : Nat} {url : String} {init : FetchInit}
    (hr : (ClientSystem.machine O T c).ReachesWhen ClientSystem.Undisposed h s)
    (hs : (ClientSystem.machine O T c).step s a = some (s', es))
    (hfetch : .request i (.fetch n url init) ∈ es) (hopen : s.breaker.cb = .opened) :
    ∃ h₁ h₂, breakerHistory h = h₁ ++ .transition .open :: h₂ ∧ (∀ t, .transition t ∉ h₂) ∧
      .invoked i ∈ h₁ := by
  have hi := inv_of_reaches hthr (breaker_undisposed hr)
  have hstate := cb_eq_opened_iff.mp hopen
  obtain ⟨hlast, hduring⟩ := hi.period.opened hstate
  have hinvoked : .invoked i ∈ breakerHistory h := by
    cases ClientSystem.trans_of_step hs with
    | request args admitted hb hq =>
        -- an open circuit refuses every new call
        cases hq with
        | admitted =>
            have hlive := (BreakerSystem.trans_of_step hb).live hi.live (by simp)
            cases hlive with
            | admitted hblocks => exact absurd (.inl hstate) hblocks
        | refused => simp at hfetch
    | own j hra hq hqt =>
        obtain ⟨e, he, heq⟩ := List.mem_map.mp hfetch
        cases heq
        cases hqt with
        | woken args m err =>
            -- a request that wakes was admitted
            have hlife := request_reaches hr.reaches i
            rw [hq] at hlife
            have hadmitted := ((Request.fetchInv_of_reaches hlife).2 _ rfl).invoked _ rfl
            exact List.mem_filterMap.mpr ⟨_, mem_requestHistory.mp hadmitted, rfl⟩
        | responded => simp [Request.mem_backoff] at he
        | completed | firedFulfilled | firedRejected | read => simp at he
    | settle j hq hb hqt =>
        cases hqt <;> simp at hfetch
    | complete | breaker | dispose => simp at hfetch
  obtain ⟨h₁, h₂, heq, hquiet, hbefore⟩ := exists_of_last hlast
  refine ⟨h₁, h₂, heq, hquiet, hbefore i ?_⟩
  simpa [hduring] using invoked_mem_iff.mp hinvoked

/-- **The admission law**: nothing is admitted between an opening and the next
half-open and at most one call in a half-open period; so what a client still sends
while its breaker is open belongs to requests admitted before, and no request sends
more often than its policy allows. -/
theorem admission_law :
    (∀ (opts : CbOptions) (h : List (Event R)) (s : BreakerSystem O R),
      1 ≤ opts.consecutiveThreshold →
      (BreakerSystem.machine O R opts).ReachesWhen Undisposed h s → AdmissionLaw h) ∧
      ∀ (c : AbstractHttpClient) (h : List (ClientEvent T)) (s : ClientSystem O T),
        1 ≤ c.deps.cb.consecutiveThreshold →
        (ClientSystem.machine O T c).ReachesWhen ClientSystem.Undisposed h s →
          AdmissionLaw (breakerHistory h) ∧
            (∀ a s' es i n url init, (ClientSystem.machine O T c).step s a = some (s', es) →
              .request i (.fetch n url init) ∈ es → s.breaker.cb = .opened →
                ∃ h₁ h₂, breakerHistory h = h₁ ++ .transition .open :: h₂ ∧
                  (∀ t, .transition t ∉ h₂) ∧ .invoked i ∈ h₁) ∧
            ∀ (i : Nat) (q : Request T) (m : ℕ), s.requests[i]? = some q → 1 ≤ m →
              (Request.policy q.args).maxAttempts = (m : JsNumber) →
                fetches (requestHistory i h) ≤ m := by
  refine ⟨fun _ _ _ hthr hr => admissionLaw_of_reaches hthr hr, fun c h s hthr hr =>
    ⟨admissionLaw_of_reaches hthr (breaker_undisposed hr),
      fun _ _ _ _ _ _ _ hs hfetch hopen => fetch_while_opened hthr hr hs hfetch hopen,
      fun i q m hq _ hm => ?_⟩⟩
  have hlife := request_reaches hr.reaches i
  rw [hq] at hlife
  exact Request.fetches_le hlife hm

/-- A lookup whose first attempt fails sleeps while a message trips the breaker, and
wakes with the circuit open. -/
def lateAttempt : List (ClientAction Nat) :=
  [.request (AbstractHttpClient.get "x" none), .respond 0 12 0 (.rejected connectionError),
    .request message, .respond 1 12 0 (.rejected connectionError), .complete 1, .emit 1, .settle 1]

/-- The second attempt of the lookup is the next step of that run. -/
theorem lateAttempt_runs :
    ∃ h s, (ClientSystem.machine .v9 Nat (vendorClient 1)).ReachesWhen ClientSystem.Undisposed h s ∧
      s.breaker.cb = .opened ∧
      ((ClientSystem.machine .v9 Nat (vendorClient 1)).step s (.wake 0)).any (fun p =>
        p.2.any fun e => match e with
          | .request 0 (.fetch 2 _ _) => true
          | _ => false) = true :=
  Machine.exists_reachesWhen_and lateAttempt (by decide +kernel)

theorem admission_law_lateAttempt :
    ∃ h : List (ClientEvent Nat), ∃ h₁ h₂,
      breakerHistory h = h₁ ++ .transition .open :: h₂ ∧ .invoked 0 ∈ h₁ := by
  obtain ⟨h, s, hr, hopen, hwake⟩ := lateAttempt_runs
  obtain ⟨⟨s', es⟩, hs, hes⟩ := (Option.any_eq_true _ _).mp hwake
  obtain ⟨e, he, hfetch⟩ := List.any_eq_true.mp hes
  split at hfetch
  · obtain ⟨h₁, h₂, heq, -, hinvoked⟩ := ((admission_law (R := Nat)).2 _ h s (by decide) hr).2.1
      _ _ _ _ _ _ _ hs he hopen
    exact ⟨h, h₁, h₂, heq, hinvoked⟩
  · cases hfetch

/-! ### Transport failures in every phase -/

/-- No transport failure interrupts a body read, and where the failure of a last
attempt reaches `fire` the circuit is not open and the error is not taken for
opossum's own by its message. -/
def TransportSafe (h : List (ClientEvent T)) (s : ClientSystem O T) (a : ClientAction T) : Prop :=
  (∀ i e, a = .json i (.rejected e) → e.isRawTransport = false) ∧
    ∀ i e, a = .settle i → s.breaker.calls[i]? = some (.answered (.rejected e)) →
      LastFails (requestHistory i h) →
        s.breaker.cb ≠ .opened ∧ includes e.message CB_BREAKER_OPEN_MESSAGE_SUBSTRING = false

/-- The error a last transport failure leaves in the breaker's record. -/
theorem answered_of_lastFails (hm : c.mappers = providerMappers) {h : List (ClientEvent T)}
    {s : ClientSystem O T} (hr : (ClientSystem.machine O T c).Reaches h s) {i : Nat}
    {q : Request T} (hq : s.requests[i]? = some q) (hphase : q.phase = .firing)
    (hf : LastFails (requestHistory i h)) :
    ∃ err, completions (requestHistory i h) = [.rejected err] ∧ err.isTransportError = true := by
  obtain ⟨n, e, hn, he, hno⟩ := hf
  have hl := (Request.lifeInv_of_reaches hm (request_honest hr i)).2 q hq
  rcases hl.loop.failed n e hn he with ⟨url, init, hfetch⟩ | hun
  · exact absurd hfetch (hno url init)
  · rw [hphase] at hun
    obtain ⟨err, hc, htrans, -⟩ := hun
    exact ⟨err, hc, htrans⟩

/-- In a safe step the breaker passes the failure of a last attempt on. -/
theorem passesOn_of_safe (hm : c.mappers = providerMappers) {h : List (ClientEvent T)}
    {s : ClientSystem O T} {a : ClientAction T} {i : Nat} {ra : RequestAction T} {q' : Request T}
    {es : List (RequestEvent T)} {b : BreakerSystem O Response}
    (hr : (ClientSystem.machine O T c).Reaches h s) (hsafe : TransportSafe h s a)
    (ht : Request.Trans c s.requests[i]? ra q' es) (hjson : ∀ o, ra = .json o → a = .json i o)
    (hfired : ∀ r, ra = .fired r → a = .settle i ∧
      BreakerSystem.step c.deps.cb s.breaker (.settle i) = some (b, [.settled i r])) :
    PassesOn (requestHistory i h) s.requests[i]? ra := by
  refine ⟨fun e he => hsafe.1 i e (hjson _ he), ?_⟩
  intro r hra hf
  obtain ⟨ha, hb⟩ := hfired r hra
  obtain ⟨q, hq, hphase⟩ : ∃ q, s.requests[i]? = some q ∧ q.phase = .firing := by
    subst hra
    generalize hq : s.requests[i]? = q at ht
    cases ht <;> exact ⟨_, rfl, rfl⟩
  obtain ⟨err, hc, htrans⟩ := answered_of_lastFails hm hr hq hphase hf
  rw [hc]
  rw [completions_of_reaches hr] at hc
  rcases ClientSystem.settle_cases hb with ⟨e, hcall, -⟩ | ⟨o, hcall, rfl⟩
  · simp [hcall, Call.outcome] at hc
  · obtain rfl : o = .rejected err := by simpa [hcall, Call.outcome] using hc
    obtain ⟨hcb, hmsg⟩ := hsafe.2 i err ha hcall hf
    rw [BreakerSystem.fireCatch_of_passes hcb hmsg]

/-- A step that is not safe makes the law fail for the request it concerns. -/
theorem not_transportLaw_of_not_safe (hm : c.mappers = providerMappers)
    {h es : List (ClientEvent T)} {s s' : ClientSystem O T} {a : ClientAction T}
    (hr : (ClientSystem.machine O T c).Reaches h s)
    (hs : (ClientSystem.machine O T c).step s a = some (s', es)) (hnot : ¬ TransportSafe h s a) :
    ∃ i q, s'.requests[i]? = some q ∧
      ¬ TransportLaw (Request.policy q.args) (requestHistory i (h ++ es)) := by
  have hat : ∀ {i : Nat} {q q' : Request T} {ra : RequestAction T} {res : List (RequestEvent T)},
      s.requests[i]? = some q → Request.Trans c (some q) ra q' res →
      Honest (requestHistory i h) (some q) ra →
      (∀ r, ra = .fired r → completions (requestHistory i h) = [r] ∨
        ∀ e, r = .rejected e → e.isTransportError = false) →
      ¬ PassesOn (requestHistory i h) (some q) ra →
      ∃ i' q₁, (s.requests.set i q')[i']? = some q₁ ∧
        ¬ TransportLaw (Request.policy q₁.args)
          (requestHistory i' (h ++ res.map (.request i))) := by
    intro i q q' ra res hq hqt hhonest hkept hnot
    have hlt : i < s.requests.length := (List.getElem?_eq_some_iff.mp hq).1
    refine ⟨i, q', List.getElem?_set_self hlt, ?_⟩
    rw [requestHistory_append, requestHistory_self]
    exact Request.not_transportLaw_of_not_passesOn hm (hq ▸ request_honest hr i) hqt.step hhonest
      hkept hnot
  simp only [TransportSafe, not_and_or, not_forall] at hnot
  rcases hnot with ⟨i, e, rfl, hraw⟩ | ⟨i, e, rfl, hcall, hf, hkeeps⟩
  · -- a body is cut off
    cases ClientSystem.trans_of_step hs with
    | own j hra hq hqt =>
        rcases hra with ⟨h, -⟩ | ⟨o, h, rfl⟩ | ⟨_, _, _, h, -⟩ <;> cases h
        exact hat hq hqt (by simp [Honest]) (by simp) fun hpass => hraw (hpass.1 e rfl)
    | breaker hba => rcases hba with ⟨_, h, -⟩ | ⟨h, -⟩ <;> cases h
  · -- the breaker keeps the last failure to itself
    cases ClientSystem.trans_of_step hs with
    | own j hra => rcases hra with ⟨h, -⟩ | ⟨_, h, -⟩ | ⟨_, _, _, h, -⟩ <;> cases h
    | breaker hba => rcases hba with ⟨_, h, -⟩ | ⟨h, -⟩ <;> cases h
    | @settle i r q q' b res hq hb hqt =>
        have hphase : q.phase = .firing := by cases hqt <;> rfl
        obtain ⟨err, hcount, htrans⟩ := answered_of_lastFails hm hr hq hphase hf
        have herr : err = e := by
          simpa [completions_of_reaches hr, hcall, Call.outcome, eq_comm] using hcount
        subst herr
        have hr' : r = .rejected (.newCircuitOpenError c.deps.cb.api) := by
          rcases ClientSystem.settle_cases hb with ⟨_, hcall', -⟩ | ⟨o, hcall', rfl⟩
          · simp [hcall] at hcall'
          · obtain rfl : .rejected err = o := by simpa [hcall] using hcall'
            rcases hkeeps with hcb | hmsg
            · exact BreakerSystem.fireCatch_of_opened (not_not.mp hcb)
            · exact BreakerSystem.fireCatch_of_message
                (Thrown.isError_of_isHttpClientError
                  (Thrown.isHttpClientError_of_isTransportError htrans)) (by simpa using hmsg)
        subst hr'
        refine hat hq hqt ?_ (fun r hr => .inr fun e he => ?_) ?_
        · refine ClientSystem.honest_of_settle hr (b := b) fun r hr => ?_
          cases hr
          exact hb
        · cases hr
          cases he
          rfl
        · intro hpass
          have hsame := hpass.2 _ rfl hf
          rw [hcount] at hsame
          cases hsame
          cases htrans

/-- **Transport failures are treated the same in every phase** of a response, in
exactly the runs all of whose steps are safe. -/
theorem transportLaw_iff {opts : HttpClientProviderOpts} {env : String → String} {auth : Record}
    (hc : httpClientProvider opts env auth = .ok c) {h : List (ClientEvent T)}
    {s : ClientSystem O T} (hr : (ClientSystem.machine O T c).Reaches h s) :
    (∀ (i : Nat) (q : Request T), s.requests[i]? = some q →
        TransportLaw (Request.policy q.args) (requestHistory i h)) ↔
      (ClientSystem.machine O T c).ReachesWhen TransportSafe h s := by
  have hm := httpClientProvider_mappers hc
  constructor
  · intro hlaw
    unfold Machine.Reaches at hr
    induction hr with
    | init => exact .init
    | @step h s s' a es hr _ hs ih =>
        refine .step (ih fun i q hq => ?_) ?_ hs
        · rcases (ClientSystem.trans_of_step hs).toRequest i with
            ⟨hsame, hnone⟩ | ⟨ra, q', -, ht, -⟩
          · have hlaw := hlaw i q (hsame ▸ hq)
            rwa [requestHistory_append, hnone, List.append_nil] at hlaw
          · have hl := Request.lifeInv_of_reaches hm (request_honest hr i)
            exact ht.transportLaw_of_append hl.1 (fun q hq => (hl.2 q hq).phase) _
        · by_contra hnot
          obtain ⟨i, q, hq, hfails⟩ := not_transportLaw_of_not_safe hm hr hs hnot
          exact hfails (hlaw i q hq)
  · intro hr' i q hq
    have hlife := (ClientSystem.toRequest i
      (D := fun g q a => Honest g q a ∧ PassesOn g q a) fun hr hsafe ht hjson hfired =>
        ⟨ClientSystem.honest_of_settle hr fun r hra => (hfired r hra).2,
          passesOn_of_safe hm hr hsafe ht hjson hfired⟩).reachesWhen hr'
    rw [show (ClientSystem.toRequest i _).abs s = some q from hq] at hlife
    exact Request.transportLaw_of_reaches hm hlife

/-- A check of one step that is enough for `TransportSafe`. -/
def keepsSafe (s : ClientSystem O T) : ClientAction T → Bool
  | .json _ (.rejected e) => !e.isRawTransport
  | .settle i =>
    match s.breaker.calls[i]? with
    | some (.answered (.rejected e)) =>
      decide (s.breaker.cb ≠ .opened) && !includes e.message CB_BREAKER_OPEN_MESSAGE_SUBSTRING
    | _ => true
  | _ => true

theorem transportSafe_of_keepsSafe (h : List (ClientEvent T)) {s : ClientSystem O T}
    {a : ClientAction T} (hsafe : keepsSafe s a = true) : TransportSafe h s a := by
  constructor
  · intro i e heq
    subst heq
    simpa [keepsSafe] using hsafe
  · intro i e heq hc _
    subst heq
    simpa [keepsSafe, hc] using hsafe

/-- `failedMessage` is safe: its one failure comes before the headers, and the circuit
stays closed. -/
theorem failedMessage_safe :
    ∃ h s, (ClientSystem.machine .v9 Nat (vendorClient 5)).ReachesWhen
        (fun _ s a => keepsSafe s a = true) h s ∧
      s.requests[0]?.map Request.args = some message ∧
      .request 0 (.responded 1 (.rejected connectionError)) ∈ h :=
  Machine.exists_reachesWhen_and failedMessage (by decide +kernel)

theorem transportLaw_iff_failedMessage :
    ∃ h : List (ClientEvent Nat), TransportLaw (Request.policy message) (requestHistory 0 h) ∧
      .request 0 (.responded 1 (.rejected connectionError)) ∈ h := by
  obtain ⟨h, s, hr, hargs, hbroken⟩ := failedMessage_safe
  obtain ⟨q, hq, hargs⟩ := Option.map_eq_some_iff.mp hargs
  have hlaw := (transportLaw_iff (httpClientProvider_vendorOpts 5) hr.reaches).mpr
    (hr.mono fun h _ _ hs => transportSafe_of_keepsSafe h hs) 0 q hq
  exact ⟨h, hargs ▸ hlaw, hbroken⟩

/-- The abort signal fires while the body is read. -/
def bodyTimeout : Thrown :=
  .error .error "TimeoutError" "The operation was aborted due to timeout" false .undefined

/-- A message that is answered with 200 and stalls in the body. -/
theorem stalledMessage_runs :
    ∃ h s, (ClientSystem.machine .v9 Nat (vendorClient 5)).ReachesWhen (fun _ _ _ => True) h s ∧
      s.requests[0]?.map Request.args = some message ∧
      .request 0 (.responded 1 (.fulfilled ⟨200⟩)) ∈ h ∧
      .request 0 (.read (.rejected bodyTimeout)) ∈ h ∧
      .request 0 (.settled (.rejected bodyTimeout)) ∈ h :=
  Machine.exists_reachesWhen_and
    [.request message, .respond 0 12 0 (.fulfilled ⟨200⟩), .complete 0, .emit 0, .settle 0,
      .json 0 (.rejected bodyTimeout)] (by decide +kernel)

/-- A vendor that stalls after the headers: `request` rejects with the raw
`DOMException`, so the law fails. -/
theorem stalledMessage_unlawful :
    ¬ ∀ (h : List (ClientEvent Nat)) (s : ClientSystem .v9 Nat),
      (ClientSystem.machine .v9 Nat (vendorClient 5)).Reaches h s →
      ∀ (i : Nat) (q : Request Nat), s.requests[i]? = some q →
        TransportLaw (Request.policy q.args) (requestHistory i h) := by
  intro hclaim
  obtain ⟨h, s, hr, hargs, hheaders, hread, hsettled⟩ := stalledMessage_runs
  obtain ⟨q, hq, hargs⟩ := Option.map_eq_some_iff.mp hargs
  have hhandled := hclaim h s hr 0 q hq 1
    (.inr ⟨⟨200⟩, bodyTimeout, mem_requestHistory.mpr hheaders, rfl, mem_requestHistory.mpr hread,
      by decide⟩) (.rejected bodyTimeout) (mem_requestHistory.mpr hsettled)
  obtain ⟨e, he, htransport⟩ := hhandled.rejects (by rw [hargs]; decide)
  cases he
  cases htransport

end EmailPlatform.Http
