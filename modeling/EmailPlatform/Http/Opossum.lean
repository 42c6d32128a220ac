import EmailPlatform.Http.Errors

/-!
# EmailPlatform.Http.Opossum

The circuit-breaker library the adapter drives, as a **parameter**.

`opossum` is a third-party package, so nothing here is its code. `BreakerView`
is what v9 documents of one breaker created with `timeout: false` and
`errorFilter: () => true`: the circuit state, the probe slot of the half-open
period (`pendingClose`), the one reset timer, whether the breaker is enabled, its
own listeners and the caller's. The functions on it state the documented effect
of each operation. An `Opossum` is any implementation whose operations have
these effects on its view; the adapter's model and every result about it take
one as a parameter. `Opossum.v9`, the documented machine itself, shows that the
assumptions can be met.

Assumed, in words:

* `fire()` rejects first when the breaker is shut down; otherwise it runs the
  action directly when the breaker is disabled; otherwise it rejects, without
  running the action, when the circuit is open or half-open with the probe slot
  taken; otherwise it takes the slot and runs the action.
* An action's failure is filtered, so it emits `'success'` exactly like a
  result; `'success'` closes the circuit from half-open and does nothing else.
* `open()`/`close()` are no-ops in the state they lead to, change the state
  before emitting, clear the reset timer and the probe slot; `'open'` arms the
  timer; its tick enters half-open and frees the slot.
* `shutdown()` disables the breaker, removes all listeners and clears the timer.
-/

namespace EmailPlatform.Http

/-- `Transition`, the events the adapter listens to. -/
inductive Transition
  | «open» | halfOpen | close
  deriving DecidableEq, Repr

/-- The circuit states of opossum. -/
inductive BreakerState
  | closed | opened | halfOpen | shutdown
  deriving DecidableEq, Repr

/-- What `fire()` does with a call. -/
inductive Admission
  /-- Run the action and emit `'success'` once it has settled. -/
  | run
  /-- Run the action and return its promise untouched. -/
  | direct
  /-- Reject with `Error('Breaker is open')`. -/
  | rejectOpen
  /-- Reject because the breaker is shut down. -/
  | rejectShutdown
  deriving DecidableEq, Repr

/-- The documented state of one breaker. -/
structure BreakerView where
  state : BreakerState
  /-- Half-open only: the probe slot is free. -/
  pendingClose : Bool
  enabled : Bool
  /-- The reset timer is armed. -/
  resetTimer : Bool
  /-- opossum's own `'open'` and `'success'` listeners are attached. -/
  internal : Bool
  /-- The caller's listeners. -/
  listeners : List Transition
  deriving DecidableEq, Repr

namespace BreakerView

/-- A fresh breaker: closed, enabled, nothing listening but opossum itself. -/
def create : BreakerView where
  state := .closed
  pendingClose := false
  enabled := true
  resetTimer := false
  internal := true
  listeners := []

/-- The caller's listeners that an emitted event reaches. -/
def emit (v : BreakerView) (t : Transition) : List Transition :=
  v.listeners.filter (· = t)

/-- `on(event, listener)` -/
def on (v : BreakerView) (t : Transition) : BreakerView :=
  { v with listeners := v.listeners ++ [t] }

/-- `off(event, listener)` -/
def off (v : BreakerView) (t : Transition) : BreakerView :=
  { v with listeners := v.listeners.erase t }

/-- `open()`. An open circuit stays as it is, without an event. -/
def «open» (v : BreakerView) : BreakerView × List Transition :=
  if v.state = .opened then (v, [])
  else ({ v with state := .opened, pendingClose := false, resetTimer := v.internal }, v.emit .open)

/-- `close()` -/
def close (v : BreakerView) : BreakerView × List Transition :=
  if v.state = .closed then (v, [])
  else ({ v with state := .closed, pendingClose := false, resetTimer := false }, v.emit .close)

/-- The effect of the `'success'` event. -/
def success (v : BreakerView) : BreakerView × List Transition :=
  if v.internal = true ∧ v.state = .halfOpen then v.close else (v, [])

/-- The reset timer's callback, when the timer is armed. -/
def resetTimeout (v : BreakerView) : Option (BreakerView × List Transition) :=
  if v.resetTimer then
    some ({ v with state := .halfOpen, pendingClose := true, resetTimer := false },
      v.emit .halfOpen)
  else none

/-- `shutdown()`. No listener hears of anything any more. -/
def shutdown (v : BreakerView) : BreakerView :=
  { v with
    state := .shutdown, enabled := false, resetTimer := false, internal := false, listeners := [] }

/-- `fire()`, up to the call of the function. -/
def fire (v : BreakerView) : Admission × BreakerView :=
  if v.state = .shutdown then (.rejectShutdown, v)
  else if v.enabled = false then (.direct, v)
  else if v.state = .opened ∨ (v.state = .halfOpen ∧ v.pendingClose = false) then (.rejectOpen, v)
  else (.run, { v with pendingClose := false })

end BreakerView

/-- An implementation of opossum's documented behaviour. -/
structure Opossum where
  /-- A `CircuitBreaker` object. -/
  Breaker : Type
  view : Breaker → BreakerView
  create : Breaker
  on : Breaker → Transition → Breaker
  off : Breaker → Transition → Breaker
  fire : Breaker → Admission × Breaker
  «open» : Breaker → Breaker × List Transition
  success : Breaker → Breaker × List Transition
  resetTimeout : Breaker → Option (Breaker × List Transition)
  shutdown : Breaker → Breaker
  /-- What `fire()` rejects with on a breaker that was shut down. -/
  shutdownError : Thrown
  view_create : view create = .create
  view_on : ∀ b t, view (on b t) = (view b).on t
  view_off : ∀ b t, view (off b t) = (view b).off t
  view_fire : ∀ b, Prod.map id view (fire b) = (view b).fire
  view_open : ∀ b, Prod.map view id («open» b) = (view b).open
  view_success : ∀ b, Prod.map view id (success b) = (view b).success
  view_resetTimeout : ∀ b, (resetTimeout b).map (Prod.map view id) = (view b).resetTimeout
  view_shutdown : ∀ b, view (shutdown b) = (view b).shutdown

namespace Opossum

/-- The documented machine is an implementation of itself. -/
@[reducible] def v9 : Opossum where
  Breaker := BreakerView
  view := id
  create := .create
  on := BreakerView.on
  off := BreakerView.off
  fire := BreakerView.fire
  «open» := BreakerView.open
  success := BreakerView.success
  resetTimeout := BreakerView.resetTimeout
  shutdown := BreakerView.shutdown
  shutdownError := .newError "The circuit has been shutdown."
  view_create := rfl
  view_on _ _ := rfl
  view_off _ _ := rfl
  view_fire _ := rfl
  view_open _ := rfl
  view_success _ := rfl
  view_resetTimeout v := by cases h : v.resetTimeout <;> simp [h]
  view_shutdown _ := rfl

variable (O : Opossum) (b : O.Breaker)

/-- The error `fire()` rejects with while the circuit is open. -/
def breakerOpenError : Thrown := .newError "Breaker is open"

/-- The `opened` getter. -/
def opened : Bool := decide ((O.view b).state = .opened)

/-- The `halfOpen` getter. -/
def halfOpen : Bool := decide ((O.view b).state = .halfOpen)

@[simp] theorem opened_iff : O.opened b = true ↔ (O.view b).state = .opened := by
  simp [opened]

@[simp] theorem halfOpen_iff : O.halfOpen b = true ↔ (O.view b).state = .halfOpen := by
  simp [halfOpen]

/-! ### The operations on the view, one component at a time -/

@[simp] theorem fire_fst : (O.fire b).1 = (O.view b).fire.1 := congrArg Prod.fst (O.view_fire b)

@[simp] theorem view_fire_snd : O.view (O.fire b).2 = (O.view b).fire.2 :=
  congrArg Prod.snd (O.view_fire b)

@[simp] theorem view_open_fst : O.view (O.open b).1 = (O.view b).open.1 :=
  congrArg Prod.fst (O.view_open b)

@[simp] theorem open_snd : (O.open b).2 = (O.view b).open.2 := congrArg Prod.snd (O.view_open b)

@[simp] theorem view_success_fst : O.view (O.success b).1 = (O.view b).success.1 :=
  congrArg Prod.fst (O.view_success b)

@[simp] theorem success_snd : (O.success b).2 = (O.view b).success.2 :=
  congrArg Prod.snd (O.view_success b)

attribute [simp] view_create view_on view_off view_shutdown

/-- The timer's tick, seen on the view. -/
theorem resetTimeout_eq_some {b b' : O.Breaker} {ts : List Transition}
    (h : O.resetTimeout b = some (b', ts)) :
    (O.view b).resetTimeout = some (O.view b', ts) := by
  rw [← O.view_resetTimeout b, h]
  rfl

end Opossum

end EmailPlatform.Http
