import EmailPlatform.Http.Client
import EmailPlatform.Http.TransportFailure

/-!
# EmailPlatform.Http.ClientRuns

The client's runs seen by its parts. `toBreaker` projects a run of the client to a
run of its adapter, `toRequest` to the life of one request; the laws of both then
hold of the client, in whatever order its requests interleave.
-/

namespace EmailPlatform.Http

variable {O : Opossum} {T : Type} {c : AbstractHttpClient}

@[simp] theorem requestHistory_append (i : Nat) (h es : List (ClientEvent T)) :
    requestHistory i (h ++ es) = requestHistory i h ++ requestHistory i es :=
  List.filterMap_append

@[simp] theorem requestHistory_nil (i : Nat) :
    requestHistory i ([] : List (ClientEvent T)) = [] := rfl

@[simp] theorem breakerHistory_cons (e : ClientEvent T) (es : List (ClientEvent T)) :
    breakerHistory (e :: es) = e.breaker?.toList ++ breakerHistory es := by
  cases he : e.breaker? <;> simp [breakerHistory, he]

@[simp] theorem requestHistory_cons (i : Nat) (e : ClientEvent T) (es : List (ClientEvent T)) :
    requestHistory i (e :: es) = (e.request? i).toList ++ requestHistory i es := by
  cases he : e.request? i <;> simp [requestHistory, he]

@[simp] theorem breakerHistory_transitions (ts : List Transition) :
    breakerHistory (ts.map (ClientEvent.transition (T := T))) = ts.map .transition := by
  rw [breakerHistory, List.filterMap_map, ← List.filterMap_eq_map]
  rfl

@[simp] theorem requestHistory_transitions (i : Nat) (ts : List Transition) :
    requestHistory i (ts.map (ClientEvent.transition (T := T))) = [] := by
  simp [requestHistory, List.filterMap_eq_nil_iff, ClientEvent.request?]

@[simp] theorem requestHistory_self (i : Nat) (es : List (RequestEvent T)) :
    requestHistory i (es.map (.request i)) = es := by
  rw [requestHistory, List.filterMap_map]
  exact (List.filterMap_congr fun e _ => by simp [ClientEvent.request?]).trans List.filterMap_some

theorem requestHistory_ne {i j : Nat} (hij : j ≠ i) (es : List (RequestEvent T)) :
    requestHistory i (es.map (.request j)) = [] := by
  simp [requestHistory, List.filterMap_eq_nil_iff, ClientEvent.request?, hij]

/-- An event of request `i` has happened exactly when its own history has it. -/
theorem mem_requestHistory {i : Nat} {h : List (ClientEvent T)} {e : RequestEvent T} :
    e ∈ requestHistory i h ↔ .request i e ∈ h := by
  rw [requestHistory, List.mem_filterMap]
  constructor
  · intro ⟨x, hx, he⟩
    cases x with
    | request j e' =>
        by_cases hj : j = i
        · subst hj
          obtain rfl : e' = e := by simpa [ClientEvent.request?] using he
          exact hx
        · simp [ClientEvent.request?, hj] at he
    | transition | disposed => simp [ClientEvent.request?] at he
  · exact fun he => ⟨_, he, by simp [ClientEvent.request?]⟩

theorem breakerHistory_map_request (i : Nat) (es : List (RequestEvent T)) :
    breakerHistory (es.map (.request i)) = es.filterMap (RequestEvent.breaker? i) := by
  rw [breakerHistory, List.filterMap_map]
  rfl

namespace Request

@[simp] theorem breaker?_attempt (i : Nat) (args : RequestArgs) (run : Run Response) :
    (attempt (T := T) c args run).filterMap (RequestEvent.breaker? i) = [] := by
  cases run <;> rfl

@[simp] theorem breaker?_backoff (i : Nat) (args : RequestArgs) (random : ℚ)
    (run : Run Response) :
    (backoff (T := T) args random run).filterMap (RequestEvent.breaker? i) = [] := by
  cases run <;> rfl

@[simp] theorem breaker?_map_call (i : Nat) (lines : List HttpClientLogFields) :
    (lines.map (RequestEvent.call (T := T))).filterMap (RequestEvent.breaker? i) = [] := by
  simp [List.filterMap_eq_nil_iff, RequestEvent.breaker?]

/-- The events of a request's step that the adapter takes part in, by action. -/
theorem Trans.breaker? {q : Option (Request T)} {q' : Request T} {a : RequestAction T}
    {es : List (RequestEvent T)} (ht : Trans c q a q' es) (i : Nat) :
    es.filterMap (RequestEvent.breaker? i) =
      match a with
      | .fire _ sent => [if sent then .invoked i else .refused i]
      | .complete => (completions es).map (.completed i)
      | .fired r => [.settled i r]
      | .respond _ _ _ | .wake | .json _ => [] := by
  cases ht with
  | admitted args => simp [RequestEvent.breaker?]
  | responded =>
      rw [List.filterMap_cons_none rfl, List.filterMap_append, breaker?_map_call,
        breaker?_backoff, List.append_nil]
  | woken => simp
  | refused | completed | firedFulfilled | firedRejected | read => rfl

/-- The converse of the inversion. -/
theorem Trans.step {q : Option (Request T)} {q' : Request T} {a : RequestAction T}
    {es : List (RequestEvent T)} (ht : Trans c q a q' es) :
    Request.step c q a = some (some q', es) := by
  cases ht with
  | responded _ _ _ _ _ _ _ hafter => simp only [Request.step, hafter]
  | _ => rfl

end Request

namespace ClientSystem

/-- Every request is a call of the adapter. -/
theorem Trans.lengths {s s' : ClientSystem O T} {a : ClientAction T}
    {es : List (ClientEvent T)} (ht : Trans c s a s' es)
    (hlen : s.requests.length = s.breaker.calls.length) :
    s'.requests.length = s'.breaker.calls.length := by
  have hcalls : ∀ {ba : Action Response} {b : BreakerSystem O Response}
      {bs : List (Event Response)}, BreakerSystem.step c.deps.cb s.breaker ba = some (b, bs) →
      b.calls.length = s.breaker.calls.length + if ba = .fire then 1 else 0 := by
    intro ba b bs hb
    cases BreakerSystem.trans_of_step hb <;> simp
  cases ht with
  | request _ _ hb => simp [hcalls hb, hlen]
  | own => simpa using hlen
  | complete _ _ hb | settle _ _ hb => simp [hcalls hb, hlen]
  | breaker hba hb =>
      rcases hba with ⟨i, -, rfl⟩ | ⟨-, rfl⟩ <;> simp [hcalls hb, hlen]
  | dispose hb => simp [hcalls hb, hlen]

theorem requests_length_of_reaches {h : List (ClientEvent T)} {s : ClientSystem O T}
    (hr : (machine O T c).Reaches h s) : s.requests.length = s.breaker.calls.length :=
  Machine.Reaches.invariant (I := fun _ s => s.requests.length = s.breaker.calls.length) rfl
    (fun _ hi hs => (trans_of_step hs).lengths hi) hr

/-- A step of the client is a step of its adapter, or leaves it alone. -/
theorem Trans.toBreaker {s s' : ClientSystem O T} {a : ClientAction T}
    {es : List (ClientEvent T)} (ht : Trans c s a s' es)
    (hlen : s.requests.length = s.breaker.calls.length) :
    (s'.breaker = s.breaker ∧ breakerHistory es = []) ∨
      ∃ ba, (ba = .dispose → a = .dispose) ∧
        BreakerSystem.step c.deps.cb s.breaker ba = some (s'.breaker, breakerHistory es) := by
  cases ht with
  | request args admitted hb hq =>
      refine .inr ⟨.fire, by simp, ?_⟩
      rw [breakerHistory_map_request, hq.breaker?, hlen]
      exact hb
  | own i hra _ hq =>
      refine .inl ⟨rfl, ?_⟩
      rw [breakerHistory_map_request, hq.breaker?]
      rcases hra with ⟨-, rfl⟩ | ⟨_, -, rfl⟩ | ⟨_, _, _, -, rfl⟩ <;> rfl
  | @complete i args o b ts _ hb =>
      refine .inr ⟨.complete i o, by simp, ?_⟩
      simpa [ClientEvent.breaker?, RequestEvent.breaker?] using hb
  | settle i _ hb hq =>
      refine .inr ⟨.settle i, by simp, ?_⟩
      rw [breakerHistory_map_request, hq.breaker?]
      exact hb
  | breaker hba hb =>
      refine .inr ⟨_, fun hd => ?_, by rwa [breakerHistory_transitions]⟩
      rcases hba with ⟨i, -, rfl⟩ | ⟨-, rfl⟩ <;> cases hd
  | dispose hb => exact .inr ⟨.dispose, fun _ => rfl, hb⟩

/-- What a step of the client is for request `i`: nothing, or the step of its life
that the client's action and the adapter prescribe. -/
theorem Trans.toRequest {s s' : ClientSystem O T} {a : ClientAction T}
    {es : List (ClientEvent T)} (ht : Trans c s a s' es) (i : Nat) :
    (s'.requests[i]? = s.requests[i]? ∧ requestHistory i es = []) ∨
      ∃ ra q', s'.requests[i]? = some q' ∧
        Request.Trans c s.requests[i]? ra q' (requestHistory i es) ∧
        (∀ o, ra = .json o → a = .json i o) ∧
        (∀ r, ra = .fired r → a = .settle i ∧
          BreakerSystem.step c.deps.cb s.breaker (.settle i) =
            some (s'.breaker, [.settled i r])) ∧
        ∀ d u o, ra = .respond d u o → a = .respond i d u o := by
  -- a step of request `j` that leaves the others alone
  have hset : ∀ {j : Nat} {q q' : Request T} {b : BreakerSystem O Response}
      {ra : RequestAction T} {res : List (RequestEvent T)}, s.requests[j]? = some q →
      Request.Trans c (some q) ra q' res →
      ((s.requests.set j q')[i]? = s.requests[i]? ∧ requestHistory i (res.map (.request j)) = []) ∨
        j = i ∧ (s.requests.set j q')[i]? = some q' ∧
          Request.Trans c s.requests[i]? ra q' (requestHistory i (res.map (.request j))) := by
    intro j q q' b ra res hq hqt
    by_cases hji : j = i
    · subst hji
      have hlt : j < s.requests.length := (List.getElem?_eq_some_iff.mp hq).1
      exact .inr ⟨rfl, List.getElem?_set_self hlt, by rwa [requestHistory_self, hq]⟩
    · exact .inl ⟨List.getElem?_set_ne hji, requestHistory_ne hji res⟩
  cases ht with
  | request args admitted hb hq =>
      rcases Nat.lt_trichotomy i s.requests.length with hi | rfl | hi
      · exact .inl ⟨List.getElem?_append_left hi, requestHistory_ne (by omega) _⟩
      · refine .inr ⟨.fire args admitted, _, List.getElem?_concat_length, ?_, by simp, by simp,
          by simp⟩
        rwa [requestHistory_self, List.getElem?_eq_none le_rfl]
      · refine .inl ⟨?_, requestHistory_ne (by omega) _⟩
        rw [List.getElem?_eq_none (by simp; omega), List.getElem?_eq_none (by omega)]
  | own j hra hq hqt =>
      rcases hset (b := s.breaker) hq hqt with hno | ⟨rfl, hq', hqt'⟩
      · exact .inl hno
      · refine .inr ⟨_, _, hq', hqt', fun o ho => ?_, fun r hr => ?_, fun d u o ho => ?_⟩
        · subst ho
          rcases hra with ⟨-, h⟩ | ⟨_, rfl, h⟩ | ⟨_, _, _, -, h⟩ <;> cases h
          rfl
        · subst hr
          rcases hra with ⟨-, h⟩ | ⟨_, -, h⟩ | ⟨_, _, _, -, h⟩ <;> cases h
        · subst ho
          rcases hra with ⟨-, h⟩ | ⟨_, -, h⟩ | ⟨_, _, _, rfl, h⟩ <;> cases h
          rfl
  | @complete j args o b ts hq hb =>
      rcases hset (b := b) hq (.completed args o) with ⟨hq', hno⟩ | ⟨rfl, hq', hqt'⟩
      · refine .inl ⟨hq', ?_⟩
        simpa [ClientEvent.request?] using hno
      · refine .inr ⟨.complete, _, hq', ?_, by simp, by simp, by simp⟩
        simpa [ClientEvent.request?] using hqt'
  | @settle j r _ _ b _ hq hb hqt =>
      rcases hset (b := b) hq hqt with hno | ⟨rfl, hq', hqt'⟩
      · exact .inl hno
      · refine .inr ⟨.fired r, _, hq', hqt', by simp, ?_, by simp⟩
        intro r' hr'
        cases hr'
        exact ⟨rfl, hb⟩
  | breaker => exact .inl ⟨rfl, requestHistory_transitions _ _⟩
  | dispose => exact .inl ⟨rfl, rfl⟩

/-- Runs of the client are runs of its adapter. -/
def toBreaker {C : List (ClientEvent T) → ClientSystem O T → ClientAction T → Prop}
    {D : List (Event Response) → BreakerSystem O Response → Action Response → Prop}
    (hD : ∀ {h s a ba}, C h s a → (ba = .dispose → a = .dispose) →
      D (breakerHistory h) s.breaker ba) :
    Machine.Simulation (machine O T c) C (BreakerSystem.machine O Response c.deps.cb) D where
  abs := ClientSystem.breaker
  out := ClientEvent.breaker?
  abs_init := rfl
  abs_step hr hc hs := by
    rcases (trans_of_step hs).toBreaker (requests_length_of_reaches hr.reaches) with
      hno | ⟨ba, hba, hb⟩
    · exact .inl hno
    · exact .inr ⟨ba, hD hc hba, hb⟩

/-- Runs of the client are lives of each of its requests. -/
def toRequest (i : Nat) {C : List (ClientEvent T) → ClientSystem O T → ClientAction T → Prop}
    {D : List (RequestEvent T) → Option (Request T) → RequestAction T → Prop}
    (hD : ∀ {h s a ra q' es} {b : BreakerSystem O Response}, (machine O T c).Reaches h s →
      C h s a → Request.Trans c s.requests[i]? ra q' es →
      (∀ o, ra = .json o → a = .json i o) →
      (∀ r, ra = .fired r → a = .settle i ∧
        BreakerSystem.step c.deps.cb s.breaker (.settle i) = some (b, [.settled i r])) →
      D (requestHistory i h) s.requests[i]? ra) :
    Machine.Simulation (machine O T c) C (Request.machine c T) D where
  abs s := s.requests[i]?
  out := ClientEvent.request? i
  abs_init := rfl
  abs_step hr hc hs := by
    rcases (trans_of_step hs).toRequest i with hno | ⟨ra, q', hq', ht, hjson, hfired, -⟩
    · exact .inl hno
    · exact .inr ⟨ra, hD hr.reaches hc ht hjson hfired, hq' ▸ ht.step⟩

variable {h : List (ClientEvent T)} {s : ClientSystem O T}

theorem breaker_reaches (hr : (machine O T c).Reaches h s) :
    (BreakerSystem.machine O Response c.deps.cb).Reaches (breakerHistory h) s.breaker :=
  (toBreaker fun _ _ => trivial).reachesWhen hr

theorem request_reaches (hr : (machine O T c).Reaches h s) (i : Nat) :
    (Request.machine c T).Reaches (requestHistory i h) s.requests[i]? :=
  (toRequest i fun _ _ _ _ _ => trivial).reachesWhen hr

/-- Nobody disposes the breaker. -/
def Undisposed (_ : List (ClientEvent T)) (_ : ClientSystem O T) (a : ClientAction T) : Prop :=
  a ≠ .dispose

instance (h : List (ClientEvent T)) (s : ClientSystem O T) (a : ClientAction T) :
    Decidable (Undisposed h s a) :=
  match a with
  | .dispose => isFalse fun ha => ha rfl
  | .request _ | .respond _ _ _ _ | .wake _ | .complete _ | .emit _ | .settle _ | .json _ _
  | .tick =>
      isTrue fun ha => by cases ha

theorem breaker_undisposed (hr : (machine O T c).ReachesWhen Undisposed h s) :
    (BreakerSystem.machine O Response c.deps.cb).ReachesWhen EmailPlatform.Http.Undisposed
      (breakerHistory h) s.breaker :=
  (toBreaker fun ha hba hd => ha (hba hd)).reachesWhen hr

/-! ### The breaker's record of a request -/

/-- The outcome an event of the adapter counts. -/
def outcome? : Event Response → Option (Outcome Response)
  | .completed _ o => some o
  | _ => none

theorem completions_eq_filterMap (i : Nat) (h : List (ClientEvent T)) :
    completions (requestHistory i h) =
      ((breakerHistory h).filter (Event.about i)).filterMap outcome? := by
  induction h with
  | nil => rfl
  | cons e h ih =>
      cases e with
      | request j e =>
          by_cases hj : j = i <;> cases e <;>
            simp [ClientEvent.request?, ClientEvent.breaker?, RequestEvent.breaker?, Event.about,
              List.filterMap_cons, outcome?, hj, ih]
      | transition | disposed => simp [ClientEvent.request?, ClientEvent.breaker?, Event.about, ih]

/-- What the breaker has counted for a request is in its record of the call. -/
theorem completions_of_reaches (hr : (machine O T c).Reaches h s) (i : Nat) :
    completions (requestHistory i h) = (s.breaker.calls[i]?.bind Call.outcome).toList := by
  rw [completions_eq_filterMap, trace_of_reaches (breaker_reaches hr), traceAt]
  cases hc : s.breaker.calls[i]? with
  | none => rfl
  | some call => rcases call with _ | _ | _ | _ | ⟨_ | _, _⟩ <;> rfl

/-- How `fire` settles a call, by its record. -/
theorem settle_cases {opts : CbOptions} {b b' : BreakerSystem O Response} {i : Nat}
    {r : Outcome Response}
    (hs : BreakerSystem.step opts b (.settle i) = some (b', [.settled i r])) :
    (∃ e, b.calls[i]? = some (.refused e) ∧ r = b.adapter.fireCatch opts (.rejected e)) ∨
      ∃ o, b.calls[i]? = some (.answered o) ∧ r = b.adapter.fireCatch opts o := by
  generalize hes : [Event.settled i r] = es at hs
  cases BreakerSystem.trans_of_step hs with
  | settledRefused hc =>
      cases hes
      exact .inl ⟨_, hc, rfl⟩
  | settledAnswered hc =>
      cases hes
      exact .inr ⟨_, hc, rfl⟩

/-- The adapter resolves with the action's result and never otherwise. -/
theorem honest_of_settle (hr : (machine O T c).Reaches h s) {i : Nat} {ra : RequestAction T}
    {b : BreakerSystem O Response} {q : Option (Request T)}
    (hfired : ∀ r, ra = .fired r →
      BreakerSystem.step c.deps.cb s.breaker (.settle i) = some (b, [.settled i r])) :
    Honest (requestHistory i h) q ra := by
  intro r hra res
  rw [completions_of_reaches hr]
  rcases settle_cases (hfired r hra) with ⟨e, hc, rfl⟩ | ⟨o, hc, rfl⟩
  · simp [hc, Call.outcome, Adapter.fireCatch_eq_fulfilled]
  · simp [hc, Call.outcome, Adapter.fireCatch_eq_fulfilled]

/-- The lives in a client are honest. -/
theorem request_honest (hr : (machine O T c).Reaches h s) (i : Nat) :
    (Request.machine c T).ReachesWhen Honest (requestHistory i h) s.requests[i]? :=
  (toRequest i fun hr _ _ _ hfired =>
    honest_of_settle hr fun r hra => (hfired r hra).2).reachesWhen hr

end ClientSystem

end EmailPlatform.Http
