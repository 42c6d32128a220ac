import EmailPlatform.Core.Machine
import EmailPlatform.Http.Retry
import EmailPlatform.Http.RequestExecutor

/-!
# EmailPlatform.Http.Request

`AbstractHttpClient` and the life of one `request()`
(`client/abstract-http.client.ts`), with the verb methods that build its
arguments, the provider that assembles a client and the Telegram adapter.

`request()` is one `async` function around three others, so its code is cut at
every point where one of them suspends:

    none ── fire ──▶ running ── respond, wake ──▶ running ── complete ──▶ firing
    none ── fire ────────────────────────────────────────────────────▶ firing
    firing ── fired ──▶ reading ── json ──▶ done
    firing ── fired ──▶ done

`Request.machine` is this life for a single request. What the breaker answers is
an input here (`fire admitted`, `fired r`); `EmailPlatform.Http.Client` connects it
to the adapter.
-/

namespace EmailPlatform.Http

/-- The state of an `AbstractHttpClient`: what its provider built. -/
structure AbstractHttpClient where
  deps : HttpClientDeps
  /-- The chain inside `deps.executor`. -/
  mappers : List ErrorMapper
  /-- The headers `buildAuthHeaders()` returns. -/
  buildAuthHeaders : Record

namespace AbstractHttpClient

/-- `HTTP_CLIENT_HEADERS`. -/
def CONTENT_TYPE : String := "Content-Type"

@[inherit_doc CONTENT_TYPE]
def APPLICATION_JSON : String := "application/json"

/-- `buildInit`. -/
def buildInit (opts : Option HttpCallOpts) : RequestInit where
  headers := opts.bind (·.headers)

/-- `buildJsonInit`; `body` is the text `JSON.stringify` gave. -/
def buildJsonInit (body : Option String) (opts : Option HttpCallOpts) : RequestInit where
  body := body
  headers := some (Record.spread [(CONTENT_TYPE, APPLICATION_JSON)]
    ((opts.bind (·.headers)).getD []))

variable {B : Type} (stringify : B → Option String)

/-- The request `get` makes. -/
def get (path : String) (opts : Option HttpCallOpts) : RequestArgs :=
  ⟨.GET, path, buildInit opts, opts.getD {}⟩

/-- The request `post` makes. -/
def post (path : String) (body : B) (opts : Option HttpCallOpts) : RequestArgs :=
  ⟨.POST, path, buildJsonInit (stringify body) opts, opts.getD {}⟩

/-- The request `put` makes. -/
def put (path : String) (body : B) (opts : Option HttpCallOpts) : RequestArgs :=
  ⟨.PUT, path, buildJsonInit (stringify body) opts, opts.getD {}⟩

/-- The request `patch` makes. -/
def patch (path : String) (body : B) (opts : Option HttpCallOpts) : RequestArgs :=
  ⟨.PATCH, path, buildJsonInit (stringify body) opts, opts.getD {}⟩

/-- The request `delete` makes. -/
def delete (path : String) (opts : Option HttpCallOpts) : RequestArgs :=
  ⟨.DELETE, path, buildInit opts, opts.getD {}⟩

end AbstractHttpClient

/-- `HttpClientProviderOpts`, as far as the client depends on it; `env` is the
lookup in the app's environment. -/
structure HttpClientProviderOpts where
  logContext : String
  baseUrlEnvKey : Option String := none
  baseUrlLiteral : Option String := none
  timeoutMs : Option Nat := none
  consecutiveThreshold : Option Nat := none
  halfOpenAfterMs : Option Nat := none

/-- `DEFAULT_TIMEOUT_MS`. -/
def DEFAULT_TIMEOUT_MS : Nat := 5000

/-- `CB_DEFAULTS.CB_CONSECUTIVE_THRESHOLD`. -/
def CB_CONSECUTIVE_THRESHOLD : Nat := 5

/-- `CB_DEFAULTS.CB_HALF_OPEN_AFTER_MS`. -/
def CB_HALF_OPEN_AFTER_MS : Nat := 30000

/-- `httpClientProvider`: the client its factory assembles. Empty strings count as
absent, as in the source's truthiness tests. -/
def httpClientProvider (opts : HttpClientProviderOpts) (env : String → String)
    (buildAuthHeaders : Record) : Except Thrown AbstractHttpClient :=
  let key := opts.baseUrlEnvKey.getD ""
  let literal := opts.baseUrlLiteral.getD ""
  if (key = "" ∧ literal = "") ∨ (key ≠ "" ∧ literal ≠ "") then
    .error (.newError
      "httpClientProvider: provide exactly one of baseUrlEnvKey or baseUrlLiteral")
  else
    .ok {
      deps := {
        baseUrl := if literal ≠ "" then literal else env key
        defaultTimeoutMs := opts.timeoutMs.getD DEFAULT_TIMEOUT_MS
        logContext := opts.logContext
        cb := {
          consecutiveThreshold := opts.consecutiveThreshold.getD CB_CONSECUTIVE_THRESHOLD
          halfOpenAfterMs := opts.halfOpenAfterMs.getD CB_HALF_OPEN_AFTER_MS
          api := opts.logContext } }
      mappers := providerMappers
      buildAuthHeaders := buildAuthHeaders }

/-- Every client of the provider has the full mapper chain. -/
theorem httpClientProvider_mappers {opts : HttpClientProviderOpts} {env : String → String}
    {auth : Record} {c : AbstractHttpClient} (h : httpClientProvider opts env auth = .ok c) :
    c.mappers = providerMappers := by
  rw [httpClientProvider] at h
  split at h
  · cases h
  · cases h
    rfl

namespace TelegramClient

/-- `TELEGRAM_PATH.SEND_MESSAGE`. -/
def SEND_MESSAGE : String := "/sendMessage"

/-- The request `sendMessage` makes. -/
def sendMessage {B : Type} (stringify : B → Option String) (botToken : String) (req : B) :
    RequestArgs :=
  AbstractHttpClient.post stringify ("/bot" ++ botToken ++ SEND_MESSAGE) req none

end TelegramClient

/-! ### The life of a request -/

/-- Where `request()` is suspended. -/
inductive Phase (T : Type)
  /-- The breaker is running the action, `retry.run(attempt, policy)`. -/
  | running (run : Run Response)
  /-- Only `await this.deps.breaker.fire(...)` is left. -/
  | firing
  /-- `await res.json()`. -/
  | reading (res : Response)
  /-- The promise of `request()` has settled. -/
  | done (o : Outcome T)
  deriving DecidableEq, Repr

/-- One request: its arguments and where it is. -/
structure Request (T : Type) where
  args : RequestArgs
  phase : Phase T
  deriving DecidableEq, Repr

/-- What can happen to a request. -/
inductive RequestAction (T : Type)
  /-- `request(...args)` is called and opossum runs the action, or refuses. -/
  | fire (args : RequestArgs) (admitted : Bool)
  /-- The pending `fetch` settles with `o`; `random` is the draw of the backoff. -/
  | respond (duration : Nat) (random : ℚ) (o : Outcome Response)
  /-- The backoff sleep ends. -/
  | wake
  /-- The breaker's wrapper continues with the outcome of `run`. -/
  | complete
  /-- `breaker.fire(...)` settles with `r`. -/
  | fired (r : Outcome Response)
  /-- `res.json()` settles with `o`. -/
  | json (o : Outcome T)

/-- What can be observed of a request. -/
inductive RequestEvent (T : Type)
  | invoked
  | refused
  /-- The `n`-th call of `fetch`. -/
  | fetch (n : Nat) (url : String) (init : FetchInit)
  | responded (n : Nat) (o : Outcome Response)
  /-- `logger.call(fields)`. -/
  | call (fields : HttpClientLogFields)
  | sleep (ms : ℚ)
  /-- The breaker sees the outcome of the action. -/
  | completed (o : Outcome Response)
  | fired (r : Outcome Response)
  | read (o : Outcome T)
  | settled (o : Outcome T)
  deriving DecidableEq, Repr

namespace Request

variable {T : Type}

/-- The policy `request` asks `deps.retry` for. -/
def policy (args : RequestArgs) : RetryPolicy := resolveRetryPolicy args.method args.opts

/-- The call of `fetch` on arriving at an attempt. -/
def attempt (c : AbstractHttpClient) (args : RequestArgs) :
    Run Response → List (RequestEvent T)
  | .attempting n => [.fetch n (HttpRequestExecutor.fetchUrl c.deps args)
      (HttpRequestExecutor.finalInit c.deps c.buildAuthHeaders args)]
  | .sleeping _ _ | .settled _ => []

/-- The call of `sleep` on arriving at a backoff. -/
def backoff (args : RequestArgs) (random : ℚ) : Run Response → List (RequestEvent T)
  | .sleeping n _ => [.sleep (backoffWithJitter n (policy args) random)]
  | .attempting _ | .settled _ => []

/-- One step in the life of a request; `none` before `request()` is called. -/
def step (c : AbstractHttpClient) :
    Option (Request T) → RequestAction T → Option (Option (Request T) × List (RequestEvent T))
  | none, .fire args true =>
    let run := Run.start (policy args)
    some (some ⟨args, .running run⟩, .invoked :: attempt c args run)
  | none, .fire args false => some (some ⟨args, .firing⟩, [.refused])
  | some ⟨args, .running (.attempting n)⟩, .respond duration random o =>
    let (o', lines) := HttpRequestExecutor.afterFetch c.mappers c.deps args duration o
    let run := Run.onAttempt (policy args) n o'
    some (some ⟨args, .running run⟩,
      .responded n o :: (lines.map .call ++ backoff args random run))
  | some ⟨args, .running (.sleeping n err)⟩, .wake =>
    let run := Run.onSleep (policy args) n err
    some (some ⟨args, .running run⟩, attempt c args run)
  | some ⟨args, .running (.settled o)⟩, .complete => some (some ⟨args, .firing⟩, [.completed o])
  | some ⟨args, .firing⟩, .fired (.fulfilled res) =>
    some (some ⟨args, .reading res⟩, [.fired (.fulfilled res)])
  | some ⟨args, .firing⟩, .fired (.rejected e) =>
    some (some ⟨args, .done (.rejected e)⟩, [.fired (.rejected e), .settled (.rejected e)])
  | some ⟨args, .reading _⟩, .json o => some (some ⟨args, .done o⟩, [.read o, .settled o])
  | _, _ => none

/-- The machine of a single request. -/
def machine (c : AbstractHttpClient) (T : Type) :
    Machine (Option (Request T)) (RequestAction T) (RequestEvent T) where
  init := none
  step := step c

/-- The steps of a request, with their guards and effects. -/
inductive Trans (c : AbstractHttpClient) : Option (Request T) → RequestAction T →
    Request T → List (RequestEvent T) → Prop
  | admitted (args : RequestArgs) :
      Trans c none (.fire args true) ⟨args, .running (Run.start (policy args))⟩
        (.invoked :: attempt c args (Run.start (policy args)))
  | refused (args : RequestArgs) :
      Trans c none (.fire args false) ⟨args, .firing⟩ [.refused]
  | responded (args : RequestArgs) (n duration : Nat) (random : ℚ) (o o' : Outcome Response)
      (lines : List HttpClientLogFields) :
      HttpRequestExecutor.afterFetch c.mappers c.deps args duration o = (o', lines) →
      Trans c (some ⟨args, .running (.attempting n)⟩) (.respond duration random o)
        ⟨args, .running (Run.onAttempt (policy args) n o')⟩
        (.responded n o ::
          (lines.map .call ++ backoff args random (Run.onAttempt (policy args) n o')))
  | woken (args : RequestArgs) (n : Nat) (err : Thrown) :
      Trans c (some ⟨args, .running (.sleeping n err)⟩) .wake
        ⟨args, .running (Run.onSleep (policy args) n err)⟩
        (attempt c args (Run.onSleep (policy args) n err))
  | completed (args : RequestArgs) (o : Outcome Response) :
      Trans c (some ⟨args, .running (.settled o)⟩) .complete ⟨args, .firing⟩ [.completed o]
  | firedFulfilled (args : RequestArgs) (res : Response) :
      Trans c (some ⟨args, .firing⟩) (.fired (.fulfilled res)) ⟨args, .reading res⟩
        [.fired (.fulfilled res)]
  | firedRejected (args : RequestArgs) (e : Thrown) :
      Trans c (some ⟨args, .firing⟩) (.fired (.rejected e)) ⟨args, .done (.rejected e)⟩
        [.fired (.rejected e), .settled (.rejected e)]
  | read (args : RequestArgs) (res : Response) (o : Outcome T) :
      Trans c (some ⟨args, .reading res⟩) (.json o) ⟨args, .done o⟩ [.read o, .settled o]

/-- **Inversion.** Every step of a request is one of `Trans`. -/
theorem trans_of_step {c : AbstractHttpClient} {q : Option (Request T)} {a : RequestAction T}
    {q' : Option (Request T)} {es : List (RequestEvent T)} (h : step c q a = some (q', es)) :
    ∃ q₁, q' = some q₁ ∧ Trans c q a q₁ es := by
  unfold step at h
  split at h <;> cases h
  · exact ⟨_, rfl, .admitted _⟩
  · exact ⟨_, rfl, .refused _⟩
  · exact ⟨_, rfl, .responded _ _ _ _ _ _ _ rfl⟩
  · exact ⟨_, rfl, .woken _ _ _⟩
  · exact ⟨_, rfl, .completed _ _⟩
  · exact ⟨_, rfl, .firedFulfilled _ _⟩
  · exact ⟨_, rfl, .firedRejected _ _⟩
  · exact ⟨_, rfl, .read _ _ _⟩

end Request

end EmailPlatform.Http
