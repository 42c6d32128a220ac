import EmailPlatform.Http.Errors

/-!
# EmailPlatform.Http.RequestExecutor

`HttpRequestExecutor.execute`, one attempt of one request
(`client/request-executor.ts`), and the values that go into it.

`execute` suspends once, at `fetch`. `fetchUrl` and `finalInit` are what it passes
there; `afterFetch` is everything it does once `fetch` has settled: the rejection
of a non-2xx answer, the normalisation of other failures, and the log lines.
-/

namespace EmailPlatform.Http

/-- The arguments of `AbstractHttpClient.request`. -/
structure RequestArgs where
  method : HttpMethod
  path : String
  init : RequestInit
  opts : HttpCallOpts
  deriving DecidableEq, Repr

/-- A fetch response, as far as the client reads it before the body. -/
structure Response where
  status : Nat
  deriving DecidableEq, Repr

/-- `res.ok`. -/
def Response.ok (res : Response) : Bool := decide (200 ≤ res.status ∧ res.status ≤ 299)

/-- What `fetch` is called with besides the URL; `signal` is the delay given to
`AbortSignal.timeout`. -/
structure FetchInit where
  method : HttpMethod
  signal : Nat
  headers : Record
  body : Option String
  deriving DecidableEq, Repr

/-- `HTTP_CLIENT_LOG.STATUS_OK` and `STATUS_ERROR`. -/
inductive LogStatus
  | OK | ERROR
  deriving DecidableEq, Repr

/-- `HttpClientLogFields`; the executor always leaves `correlationId` undefined. -/
structure HttpClientLogFields where
  api : String
  method : HttpMethod
  url : String
  duration_ms : Nat
  status_code : Option Nat
  status : LogStatus
  deriving DecidableEq, Repr

namespace HttpRequestExecutor

/-- `mergeHeaders`. -/
def mergeHeaders (authHeaders : Record) (init : RequestInit) (opts : HttpCallOpts) : Record :=
  ((Record.spread [] authHeaders).spread (init.headers.getD [])).spread (opts.headers.getD [])

/-- The `url` of `execute`. -/
def fetchUrl (deps : HttpClientDeps) (args : RequestArgs) : String := deps.baseUrl ++ args.path

/-- The `timeoutMs` of `execute`. -/
def timeoutMs (deps : HttpClientDeps) (args : RequestArgs) : Nat :=
  args.opts.timeoutMs.getD deps.defaultTimeoutMs

/-- The `finalInit` of `execute`. -/
def finalInit (deps : HttpClientDeps) (authHeaders : Record) (args : RequestArgs) : FetchInit where
  method := args.method
  signal := timeoutMs deps args
  headers := mergeHeaders authHeaders args.init args.opts
  body := args.init.body

/-- The log line of an attempt. -/
def logFields (deps : HttpClientDeps) (args : RequestArgs) (duration : Nat)
    (status_code : Option Nat) (status : LogStatus) : HttpClientLogFields where
  api := deps.logContext
  method := args.method
  url := fetchUrl deps args
  duration_ms := duration
  status_code := status_code
  status := status

/-- The `catch` of `execute`, without its log line. -/
def attemptError (mappers : List ErrorMapper) (deps : HttpClientDeps) (args : RequestArgs)
    (err : Thrown) : Thrown :=
  if err.isHttpClientError then err
  else normalize mappers err ⟨fetchUrl deps args, timeoutMs deps args⟩

/-- `execute` from the moment `fetch` settles, `duration` ms after the start: the
outcome of the attempt and the lines logged meanwhile. -/
def afterFetch (mappers : List ErrorMapper) (deps : HttpClientDeps) (args : RequestArgs)
    (duration : Nat) : Outcome Response → Outcome Response × List HttpClientLogFields
  | .fulfilled res =>
    let status := if res.ok then .OK else .ERROR
    let line := logFields deps args duration (some res.status) status
    if res.ok then (.fulfilled res, [line])
    else
      -- thrown inside the `try`, so the `catch` sees it and passes it through
      (.rejected (attemptError mappers deps args
        (.newHttpError res.status (fetchUrl deps args))), [line])
  | .rejected err =>
    (.rejected (attemptError mappers deps args err),
      if err.isHttpClientError then []
      else [logFields deps args duration none .ERROR])

variable {mappers : List ErrorMapper} {deps : HttpClientDeps} {args : RequestArgs}

/-- A transport failure of `fetch` leaves the attempt as `TimeoutError` or
`NetworkError`. -/
theorem attemptError_isTransportError (deps : HttpClientDeps) (args : RequestArgs)
    {err : Thrown} (h : err.isRawTransport = true) :
    (attemptError providerMappers deps args err).isTransportError = true := by
  have hraw : err.isHttpClientError = false := by
    simp only [Thrown.isRawTransport, Bool.and_eq_true, Bool.not_eq_true'] at h
    exact h.1
  rw [attemptError, hraw]
  exact normalize_isTransportError _ h

/-- The attempt resolves exactly for a 2xx response. -/
theorem afterFetch_fulfilled_iff {duration : Nat} {o : Outcome Response} {res : Response} :
    (afterFetch mappers deps args duration o).1 = .fulfilled res ↔
      o = .fulfilled res ∧ res.ok = true := by
  cases o with
  | rejected err => simp [afterFetch]
  | fulfilled r =>
      rw [afterFetch]
      by_cases hok : r.ok = true
      · simp only [hok, if_true, Outcome.fulfilled.injEq]
        exact ⟨fun h => ⟨h, h ▸ hok⟩, fun h => h.1⟩
      · simp only [hok, Bool.false_eq_true, if_false, reduceCtorEq, Outcome.fulfilled.injEq,
          false_iff, not_and]
        intro heq
        subst heq
        exact hok

end HttpRequestExecutor

end EmailPlatform.Http
