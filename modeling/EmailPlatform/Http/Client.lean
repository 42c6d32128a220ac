import EmailPlatform.Http.CircuitBreakerCalls
import EmailPlatform.Http.CircuitBreakerHistory
import EmailPlatform.Http.RequestLaws

/-!
# EmailPlatform.Http.Client

One client with all its overlapping requests: the adapter of
`EmailPlatform.Http.CircuitBreaker`, whose inner function is `(work) => work()`, and
for each `fire()` call the life of the request that made it. A step of the client
is a step of one request, of the adapter, or of both at once where `request()` and
the breaker meet: at the call of `fire`, when the wrapper continues, and when
`fire` settles.

The client's runs project to runs of both parts (`toBreaker`, `toRequest`), so what
holds of every run of the adapter and of every life of a request holds in the
client, whatever the interleaving.
-/

namespace EmailPlatform.Http

variable {O : Opossum} {T : Type} {c : AbstractHttpClient}

/-- A client: its breaker and its requests, request `i` being call `i` of the
breaker. -/
structure ClientSystem (O : Opossum) (T : Type) where
  breaker : BreakerSystem O Response
  requests : List (Request T)

/-- What can happen next. -/
inductive ClientAction (T : Type)
  /-- A caller calls `request(...args)`. -/
  | request (args : RequestArgs)
  | respond (i duration : Nat) (random : ℚ) (o : Outcome Response)
  | wake (i : Nat)
  | complete (i : Nat)
  | emit (i : Nat)
  | settle (i : Nat)
  | json (i : Nat) (o : Outcome T)
  | tick
  | dispose

/-- What can be observed. -/
inductive ClientEvent (T : Type)
  | request (i : Nat) (e : RequestEvent T)
  | transition (t : Transition)
  | disposed
  deriving DecidableEq, Repr

/-- An event of request `i` as the adapter sees it. -/
def RequestEvent.breaker? (i : Nat) : RequestEvent T → Option (Event Response)
  | .invoked => some (.invoked i)
  | .refused => some (.refused i)
  | .completed o => some (.completed i o)
  | .fired r => some (.settled i r)
  | .fetch .. | .responded .. | .call _ | .sleep _ | .read _ | .settled _ => none

namespace ClientEvent

/-- The event as the adapter sees it. -/
def breaker? : ClientEvent T → Option (Event Response)
  | .request i e => e.breaker? i
  | .transition t => some (.transition t)
  | .disposed => some .disposed

/-- What the client itself reports of the adapter's events; the others are the
requests' own. -/
def ofBreaker? : Event Response → Option (ClientEvent T)
  | .transition t => some (.transition t)
  | .disposed => some .disposed
  | .invoked _ | .refused _ | .completed _ _ | .settled _ _ => none

/-- The event as request `i` sees it. -/
def request? (i : Nat) : ClientEvent T → Option (RequestEvent T)
  | .request j e => if j = i then some e else none
  | .transition _ | .disposed => none

end ClientEvent

/-- The part of a history that the adapter sees. -/
def breakerHistory (h : List (ClientEvent T)) : List (Event Response) :=
  h.filterMap ClientEvent.breaker?

/-- The part of a history that concerns request `i`. -/
def requestHistory (i : Nat) (h : List (ClientEvent T)) : List (RequestEvent T) :=
  h.filterMap (ClientEvent.request? i)

namespace ClientSystem

/-- A step of request `i` alone. -/
def stepRequest (c : AbstractHttpClient) (s : ClientSystem O T) (i : Nat)
    (a : RequestAction T) : Option (ClientSystem O T × List (ClientEvent T)) :=
  match s.requests[i]? with
  | some q =>
    match Request.step c (some q) a with
    | some (some q', es) =>
      some ({ s with requests := s.requests.set i q' }, es.map (.request i))
    | _ => none
  | none => none

/-- A step of the adapter alone. -/
def stepBreaker (c : AbstractHttpClient) (s : ClientSystem O T) (a : Action Response) :
    Option (ClientSystem O T × List (ClientEvent T)) :=
  match BreakerSystem.step c.deps.cb s.breaker a with
  | some (b, es) => some ({ s with breaker := b }, es.filterMap ClientEvent.ofBreaker?)
  | none => none

/-- The loop of some request has ended and the breaker's wrapper is due. -/
def wrapperDue (q : Request T) : Bool :=
  match q.phase with
  | .running (.settled _) => true
  | _ => false

/-- One step of the client. -/
def step (c : AbstractHttpClient) (s : ClientSystem O T) :
    ClientAction T → Option (ClientSystem O T × List (ClientEvent T))
  | .request args =>
    let (b, _) := s.breaker.fire
    -- opossum runs the action, `() => retry.run(attempt, policy)`, or it does not
    let admitted := (b.calls[s.breaker.calls.length]?.map Call.invoked).getD false
    match Request.step c none (.fire args admitted) with
    | some (some q, es) =>
      some (⟨b, s.requests ++ [q]⟩, es.map (.request s.requests.length))
    | _ => none
  | .respond i duration random o => s.stepRequest c i (.respond duration random o)
  | .wake i => s.stepRequest c i .wake
  | .complete i =>
    match s.requests[i]? with
    | some ⟨_, .running (.settled o)⟩ =>
      match s.stepRequest c i .complete, BreakerSystem.step c.deps.cb s.breaker (.complete i o) with
      | some (s', es), some (b, bs) =>
        some ({ s' with breaker := b }, es ++ bs.filterMap ClientEvent.ofBreaker?)
      | _, _ => none
    | _ => none
  | .emit i => s.stepBreaker c (.emit i)
  | .settle i =>
    match BreakerSystem.step c.deps.cb s.breaker (.settle i) with
    | some (b, _) =>
      match b.calls[i]?.bind Call.result with
      | some r =>
        match s.stepRequest c i (.fired r) with
        | some (s', es) => some ({ s' with breaker := b }, es)
        | none => none
      | none => none
    | none => none
  | .json i o => s.stepRequest c i (.json o)
  | .tick => if s.requests.any wrapperDue then none else s.stepBreaker c .tick
  | .dispose => s.stepBreaker c .dispose

/-- The machine of one client: a fresh breaker, no requests yet. -/
def machine (O : Opossum) (T : Type) (c : AbstractHttpClient) :
    Machine (ClientSystem O T) (ClientAction T) (ClientEvent T) where
  init := ⟨(BreakerSystem.machine O Response c.deps.cb).init, []⟩
  step := step c

/-- The steps of the client, by the part that moves. -/
inductive Trans (c : AbstractHttpClient) (s : ClientSystem O T) :
    ClientAction T → ClientSystem O T → List (ClientEvent T) → Prop
  /-- A new request, admitted or refused by opossum. -/
  | request (args : RequestArgs) (admitted : Bool) {b : BreakerSystem O Response}
      {q : Request T} {es : List (RequestEvent T)} :
      BreakerSystem.step c.deps.cb s.breaker .fire =
        some (b, [if admitted then .invoked s.breaker.calls.length
          else .refused s.breaker.calls.length]) →
      Request.Trans c none (.fire args admitted) q es →
      Trans c s (.request args) ⟨b, s.requests ++ [q]⟩ (es.map (.request s.requests.length))
  /-- A step inside one request. -/
  | own (i : Nat) {a : ClientAction T} {ra : RequestAction T} {q q' : Request T}
      {es : List (RequestEvent T)} :
      (a = .wake i ∧ ra = .wake) ∨ (∃ o, a = .json i o ∧ ra = .json o) ∨
        (∃ d u o, a = .respond i d u o ∧ ra = .respond d u o) →
      s.requests[i]? = some q →
      Request.Trans c (some q) ra q' es →
      Trans c s a { s with requests := s.requests.set i q' } (es.map (.request i))
  /-- The wrapper continues with the outcome of the loop. -/
  | complete (i : Nat) {args : RequestArgs} {o : Outcome Response}
      {b : BreakerSystem O Response} {ts : List Transition} :
      s.requests[i]? = some ⟨args, .running (.settled o)⟩ →
      BreakerSystem.step c.deps.cb s.breaker (.complete i o) =
        some (b, .completed i o :: ts.map .transition) →
      Trans c s (.complete i) ⟨b, s.requests.set i ⟨args, .firing⟩⟩
        (.request i (.completed o) :: ts.map .transition)
  /-- `fire` settles. -/
  | settle (i : Nat) {r : Outcome Response} {q q' : Request T}
      {b : BreakerSystem O Response} {es : List (RequestEvent T)} :
      s.requests[i]? = some q →
      BreakerSystem.step c.deps.cb s.breaker (.settle i) = some (b, [.settled i r]) →
      Request.Trans c (some q) (.fired r) q' es →
      Trans c s (.settle i) ⟨b, s.requests.set i q'⟩ (es.map (.request i))
  /-- A step of the adapter that concerns no request. -/
  | breaker {a : ClientAction T} {ba : Action Response} {b : BreakerSystem O Response}
      {ts : List Transition} :
      (∃ i, a = .emit i ∧ ba = .emit i) ∨ (a = .tick ∧ ba = .tick) →
      BreakerSystem.step c.deps.cb s.breaker ba = some (b, ts.map .transition) →
      Trans c s a ⟨b, s.requests⟩ (ts.map .transition)
  | dispose {b : BreakerSystem O Response} :
      BreakerSystem.step c.deps.cb s.breaker .dispose = some (b, [.disposed]) →
      Trans c s .dispose ⟨b, s.requests⟩ [.disposed]

/-- The events of the adapter's steps, by action. -/
def breakerEvents (s : BreakerSystem O Response) :
    Action Response → List (Event Response) → Prop
  | .fire, es => es = [.invoked s.calls.length] ∨ es = [.refused s.calls.length]
  | .complete i o, es => ∃ ts : List Transition, es = .completed i o :: ts.map .transition
  | .emit _, es | .tick, es => ∃ ts : List Transition, es = ts.map .transition
  | .settle i, es => ∃ r, es = [.settled i r]
  | .dispose, es => es = [.disposed]

theorem breakerEvents_of_step {opts : CbOptions} {s s' : BreakerSystem O Response}
    {a : Action Response} {es : List (Event Response)}
    (hs : BreakerSystem.step opts s a = some (s', es)) : breakerEvents s a es := by
  cases BreakerSystem.trans_of_step hs with
  | admitted => exact .inl rfl
  | refused => exact .inr rfl
  | succeeded | counted => exact ⟨[], rfl⟩
  | tripped | emitted | ticked => exact ⟨_, rfl⟩
  | settledRefused | settledAnswered => exact ⟨_, rfl⟩
  | disposed => rfl

@[simp] theorem filterMap_ofBreaker?_transitions (ts : List Transition) :
    (ts.map Event.transition).filterMap ClientEvent.ofBreaker? =
      ts.map (ClientEvent.transition (T := T)) := by
  rw [List.filterMap_map, ← List.filterMap_eq_map]
  rfl

theorem trans_of_stepRequest {s s' : ClientSystem O T} {i : Nat} {ra : RequestAction T}
    {es : List (ClientEvent T)} (h : s.stepRequest c i ra = some (s', es)) :
    ∃ q q' res, s.requests[i]? = some q ∧ Request.Trans c (some q) ra q' res ∧
      s' = { s with requests := s.requests.set i q' } ∧ es = res.map (.request i) := by
  unfold stepRequest at h
  split at h
  · next q hq =>
    split at h
    · next q' res hstep =>
      obtain ⟨q₁, hq₁, ht⟩ := Request.trans_of_step hstep
      cases hq₁
      cases h
      exact ⟨q, q', res, hq, ht, rfl, rfl⟩
    · cases h
  · cases h

theorem step_of_stepBreaker {s s' : ClientSystem O T} {a : Action Response}
    {es : List (ClientEvent T)} (h : s.stepBreaker c a = some (s', es)) :
    ∃ b bs, BreakerSystem.step c.deps.cb s.breaker a = some (b, bs) ∧
      s' = ⟨b, s.requests⟩ ∧ es = bs.filterMap ClientEvent.ofBreaker? := by
  unfold stepBreaker at h
  split at h
  · next b bs hb =>
    cases h
    exact ⟨b, bs, hb, rfl, rfl⟩
  · cases h

/-- Whether opossum runs the action can be read off the record it makes. -/
theorem fire_events (s : BreakerSystem O Response) :
    s.fire.2 = [if (s.fire.1.calls[s.calls.length]?.map Call.invoked).getD false then
      .invoked s.calls.length else .refused s.calls.length] := by
  have ht : BreakerSystem.Trans ⟨1, 0, ""⟩ s .fire s.fire.1 s.fire.2 :=
    BreakerSystem.trans_of_fire s
  generalize s.fire = p at ht
  obtain ⟨b, es⟩ := p
  cases ht with
  | admitted => simp [Call.invoked]
  | refused => simp [Call.invoked]

/-- What `fire` settled with can be read off the record as well. -/
theorem result_of_settle {opts : CbOptions} {s b : BreakerSystem O Response} {i : Nat}
    {es : List (Event Response)} (hs : BreakerSystem.step opts s (.settle i) = some (b, es)) :
    ∃ r, es = [.settled i r] ∧ b.calls[i]?.bind Call.result = some r := by
  cases BreakerSystem.trans_of_step hs with
  | settledRefused hc | settledAnswered hc =>
      have hlt : i < s.calls.length := (List.getElem?_eq_some_iff.mp hc).1
      exact ⟨_, rfl, by simp [hlt, Call.result]⟩

/-- **Inversion.** Every step of the client is one of `Trans`. -/
theorem trans_of_step {s s' : ClientSystem O T} {a : ClientAction T}
    {es : List (ClientEvent T)} (h : (machine O T c).step s a = some (s', es)) :
    Trans c s a s' es := by
  replace h : step c s a = some (s', es) := h
  cases a with
  | request args =>
      simp only [step] at h
      split at h
      · next q res hstep =>
        obtain ⟨q₁, hq₁, ht⟩ := Request.trans_of_step hstep
        cases hq₁
        cases h
        -- `admitted` is read off the new record, as the event is
        refine .request args _ ?_ ht
        rw [← fire_events]
        rfl
      · cases h
  | respond i d u o =>
      obtain ⟨q, q', res, hq, ht, rfl, rfl⟩ := trans_of_stepRequest h
      exact .own i (.inr (.inr ⟨d, u, o, rfl, rfl⟩)) hq ht
  | wake i =>
      obtain ⟨q, q', res, hq, ht, rfl, rfl⟩ := trans_of_stepRequest h
      exact .own i (.inl ⟨rfl, rfl⟩) hq ht
  | json i o =>
      obtain ⟨q, q', res, hq, ht, rfl, rfl⟩ := trans_of_stepRequest h
      exact .own i (.inr (.inl ⟨o, rfl, rfl⟩)) hq ht
  | complete i =>
      simp only [step] at h
      split at h
      · next args o hq =>
        split at h
        · next s₁ es₁ b bs hreq hb =>
          obtain ⟨q, q', res, hq', ht, rfl, rfl⟩ := trans_of_stepRequest hreq
          obtain rfl := Option.some.inj (hq.symm.trans hq')
          obtain ⟨ts, rfl⟩ := breakerEvents_of_step hb
          cases h
          cases ht with
          | completed =>
              simp only [List.filterMap_cons, ClientEvent.ofBreaker?,
                filterMap_ofBreaker?_transitions]
              exact .complete i hq hb
        · cases h
      · cases h
  | emit i =>
      obtain ⟨b, bs, hb, rfl, rfl⟩ := step_of_stepBreaker h
      obtain ⟨ts, rfl⟩ := breakerEvents_of_step hb
      rw [filterMap_ofBreaker?_transitions]
      exact .breaker (.inl ⟨i, rfl, rfl⟩) hb
  | settle i =>
      simp only [step] at h
      split at h
      · next b bs hb =>
        split at h
        · next r hr =>
          split at h
          · next s₁ es₁ hreq =>
            obtain ⟨q, q', res, hq, ht, rfl, rfl⟩ := trans_of_stepRequest hreq
            cases h
            obtain ⟨r', rfl, hr'⟩ := result_of_settle hb
            obtain rfl := Option.some.inj (hr.symm.trans hr')
            exact .settle i hq hb ht
          · cases h
        · cases h
      · cases h
  | tick =>
      simp only [step] at h
      split at h
      · cases h
      · obtain ⟨b, bs, hb, rfl, rfl⟩ := step_of_stepBreaker h
        obtain ⟨ts, rfl⟩ := breakerEvents_of_step hb
        rw [filterMap_ofBreaker?_transitions]
        exact .breaker (.inr ⟨rfl, rfl⟩) hb
  | dispose =>
      replace h : s.stepBreaker c .dispose = some (s', es) := h
      obtain ⟨b, bs, hb, rfl, rfl⟩ := step_of_stepBreaker h
      obtain rfl := breakerEvents_of_step hb
      exact .dispose hb

end ClientSystem

end EmailPlatform.Http
