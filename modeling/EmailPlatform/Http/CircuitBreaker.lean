import EmailPlatform.Core.Machine
import EmailPlatform.Http.Opossum

/-!
# EmailPlatform.Http.CircuitBreaker

The circuit-breaker adapter (`circuit-breaker/opossum-circuit-breaker.adapter.ts`)
and the system of its overlapping `fire()` calls.

The first part is the class, method by method. The asynchronous methods are split
where they suspend: `wrap` is what the wrapped function does once
`await inner(...args)` has settled, `fireCatch` is what `fire` does once
`await this.breaker.fire(...args)` has settled. Between two suspension points
nothing else runs, so each piece is a function of the adapter's state.

The second part puts the pieces back together as a machine. One call goes through

    running ── complete ──▶ returned ── emit ──▶ answered ── settle ──▶ settled
    refused ─────────────────────────────────────────────── settle ──▶ settled

where `complete` is the wrapper's continuation, `emit` opossum's handler of the
action's promise (it emits `'success'`, then settles its own promise) and
`settle` the continuation of `fire`. Steps of different calls interleave freely,
new calls may start between any two of them, and an action may settle with any
outcome at any time. Only the reset timer waits: promise continuations run before
the next timer, so it ticks when no continuation is pending.
-/

namespace EmailPlatform.Http

/-- `CB_BREAKER_OPEN_MESSAGE_SUBSTRING`. -/
def CB_BREAKER_OPEN_MESSAGE_SUBSTRING : String := "Breaker is open"

/-- The fields of an `OpossumCircuitBreakerAdapter`. -/
structure Adapter (O : Opossum) where
  breaker : O.Breaker
  consecutiveFailures : Nat
  listeners : List Transition

namespace Adapter

variable {O : Opossum} {R : Type}

/-- `wireEvents`: one listener for each transition, remembered for `dispose`. -/
def wireEvents (a : Adapter O) : Adapter O :=
  { a with
    breaker := O.on (O.on (O.on a.breaker .open) .halfOpen) .close
    listeners := a.listeners ++ [.open, .halfOpen, .close] }

/-- The constructor. -/
def new (O : Opossum) : Adapter O :=
  wireEvents { breaker := O.create, consecutiveFailures := 0, listeners := [] }

/-- `wrap`, from the moment `await inner(...args)` settles with `o`; also the
transitions reported to `onTransition` meanwhile. -/
def wrap (opts : CbOptions) (a : Adapter O) : Outcome R → Adapter O × List Transition
  | .fulfilled _ => ({ a with consecutiveFailures := 0 }, [])
  | .rejected _ =>
    -- Pitfall 4: a failure during half-open reopens the circuit
    if O.halfOpen a.breaker then
      let (b, ts) := O.open a.breaker
      ({ a with consecutiveFailures := 0, breaker := b }, ts)
    else
      let n := a.consecutiveFailures + 1
      if n ≥ opts.consecutiveThreshold then
        let (b, ts) := O.open a.breaker
        ({ a with consecutiveFailures := 0, breaker := b }, ts)
      else
        ({ a with consecutiveFailures := n }, [])

/-- `fire`, from the moment `await this.breaker.fire(...args)` settles. -/
def fireCatch (opts : CbOptions) (a : Adapter O) : Outcome R → Outcome R
  | .fulfilled r => .fulfilled r
  | .rejected err =>
    if O.opened a.breaker ||
        (err.isError && includes err.message CB_BREAKER_OPEN_MESSAGE_SUBSTRING) then
      .rejected (.newCircuitOpenError opts.api)
    else .rejected err

/-- The `state` getter. -/
def state (a : Adapter O) : CircuitState where
  cb := if O.opened a.breaker then .opened else if O.halfOpen a.breaker then .halfOpen else .closed
  consecutiveFailures := a.consecutiveFailures

/-- `dispose`. -/
def dispose (a : Adapter O) : Adapter O :=
  { a with breaker := O.shutdown (a.listeners.foldl O.off a.breaker) }

end Adapter

/-! ### The system of calls -/

/-- How far one `fire()` call has come. -/
inductive Call (R : Type)
  /-- opossum rejected it without running the action. -/
  | refused (e : Thrown)
  /-- The inner function was invoked and has not settled. `tracked` calls are
  followed by opossum; the others return the wrapped promise itself. -/
  | running (tracked : Bool)
  /-- The wrapper is done; opossum has not seen the outcome yet. -/
  | returned (o : Outcome R)
  /-- opossum's promise has settled with the action's outcome. -/
  | answered (o : Outcome R)
  /-- `fire()` has settled with `result`; `inner` is the action's outcome. -/
  | settled (inner : Option (Outcome R)) (result : Outcome R)
  deriving DecidableEq, Repr

namespace Call

variable {R : Type}

/-- A promise continuation of this call is due. -/
def pending : Call R → Bool
  | refused _ | returned _ | answered _ => true
  | running _ | settled _ _ => false

/-- The inner function was invoked for this call. -/
def invoked : Call R → Bool
  | running _ | returned _ | answered _ | settled (some _) _ => true
  | refused _ | settled none _ => false

/-- The outcome of the inner function, once the wrapper has seen it. -/
def outcome : Call R → Option (Outcome R)
  | returned o | answered o => some o
  | settled inner _ => inner
  | refused _ | running _ => none

/-- What `fire()` settled with. -/
def result : Call R → Option (Outcome R)
  | settled _ r => some r
  | _ => none

end Call

/-- The adapter together with all its calls; a call is named by its position. -/
structure BreakerSystem (O : Opossum) (R : Type) where
  adapter : Adapter O
  calls : List (Call R)

namespace BreakerSystem

variable {O : Opossum} {R : Type}

/-- The documented state of the adapter's breaker. -/
def view (s : BreakerSystem O R) : BreakerView := O.view s.adapter.breaker

/-- `state.cb`. -/
def cb (s : BreakerSystem O R) : Cb := s.adapter.state.cb

end BreakerSystem

/-- What can happen next. -/
inductive Action (R : Type)
  /-- A caller calls `fire()`. -/
  | fire
  /-- The inner function of call `i` settles with `o` and the wrapper continues. -/
  | complete (i : Nat) (o : Outcome R)
  /-- opossum handles the settled action of call `i`. -/
  | emit (i : Nat)
  /-- `fire()` continues for call `i`. -/
  | settle (i : Nat)
  /-- The reset timer ticks. -/
  | tick
  /-- The owner calls `dispose()`. -/
  | dispose
  deriving DecidableEq, Repr

/-- What can be observed from outside. -/
inductive Event (R : Type)
  | invoked (i : Nat)
  | refused (i : Nat)
  | completed (i : Nat) (o : Outcome R)
  /-- `onTransition(t)` is called. -/
  | transition (t : Transition)
  | settled (i : Nat) (r : Outcome R)
  | disposed
  deriving DecidableEq, Repr

namespace BreakerSystem

variable {O : Opossum} {R : Type}

/-- The call record of a wrapped function that has finished. -/
def afterWrap (tracked : Bool) (o : Outcome R) : Call R :=
  if tracked then .returned o else .answered o

/-- Start a call: `this.breaker.fire(...args)`. -/
def fire (s : BreakerSystem O R) : BreakerSystem O R × List (Event R) :=
  let i := s.calls.length
  let (adm, b) := O.fire s.adapter.breaker
  let started (c : Call R) : BreakerSystem O R :=
    { adapter := { s.adapter with breaker := b }, calls := s.calls ++ [c] }
  match adm with
  | .run => (started (.running true), [.invoked i])
  | .direct => (started (.running false), [.invoked i])
  | .rejectOpen => (started (.refused Opossum.breakerOpenError), [.refused i])
  | .rejectShutdown => (started (.refused O.shutdownError), [.refused i])

/-- One step of the system. -/
def step (opts : CbOptions) (s : BreakerSystem O R) :
    Action R → Option (BreakerSystem O R × List (Event R))
  | .fire => some s.fire
  | .complete i o =>
    match s.calls[i]? with
    | some (.running tracked) =>
      let (a, ts) := s.adapter.wrap opts o
      some ({ adapter := a, calls := s.calls.set i (afterWrap tracked o) },
        .completed i o :: ts.map .transition)
    | _ => none
  | .emit i =>
    match s.calls[i]? with
    | some (.returned o) =>
      let (b, ts) := O.success s.adapter.breaker
      some ({ adapter := { s.adapter with breaker := b }, calls := s.calls.set i (.answered o) },
        ts.map .transition)
    | _ => none
  | .settle i =>
    match s.calls[i]? with
    | some (.refused e) =>
      let r := s.adapter.fireCatch opts (.rejected e)
      some ({ s with calls := s.calls.set i (.settled none r) }, [.settled i r])
    | some (.answered o) =>
      let r := s.adapter.fireCatch opts o
      some ({ s with calls := s.calls.set i (.settled (some o) r) }, [.settled i r])
    | _ => none
  | .tick =>
    if s.calls.any Call.pending then none
    else
      match O.resetTimeout s.adapter.breaker with
      | some (b, ts) => some ({ s with adapter := { s.adapter with breaker := b } },
          ts.map .transition)
      | none => none
  | .dispose => some ({ s with adapter := s.adapter.dispose }, [.disposed])

/-- The machine of one adapter: freshly constructed, no calls yet. -/
def machine (O : Opossum) (R : Type) (opts : CbOptions) :
    Machine (BreakerSystem O R) (Action R) (Event R) where
  init := { adapter := .new O, calls := [] }
  step := step opts

end BreakerSystem

end EmailPlatform.Http
