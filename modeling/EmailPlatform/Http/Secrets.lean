import EmailPlatform.Core.Observation
import EmailPlatform.Http.VendorRequests

/-!
# EmailPlatform.Http.Secrets

**Where an API key goes.** The key of a vendor is in the headers of `fetch` and nowhere else: an
observer who sees everything but these headers, the URLs, the log lines, the pauses, the breaker
and what the callers get, sees the same whatever the key is (`apiKey_confined`).
-/

namespace EmailPlatform.Http

variable {O : Opossum} {T : Type}

/-- The client with other auth headers. -/
def AbstractHttpClient.withAuth (c : AbstractHttpClient) (auth : Record) : AbstractHttpClient :=
  { c with buildAuthHeaders := auth }

@[simp] theorem AbstractHttpClient.withAuth_deps (c : AbstractHttpClient) (auth : Record) :
    (c.withAuth auth).deps = c.deps := rfl

/-- The event without the headers of `fetch`. -/
def RequestEvent.withoutHeaders : RequestEvent T → RequestEvent T
  | .fetch n url init => .fetch n url { init with headers := [] }
  | e => e

@[inherit_doc RequestEvent.withoutHeaders]
def ClientEvent.withoutHeaders : ClientEvent T → ClientEvent T
  | .request i e => .request i e.withoutHeaders
  | e => e

theorem map_withoutHeaders_request (i : Nat) (es : List (RequestEvent T)) :
    (es.map (ClientEvent.request i)).map ClientEvent.withoutHeaders =
      (es.map RequestEvent.withoutHeaders).map (.request i) := by
  simp [ClientEvent.withoutHeaders]

section

variable (c : AbstractHttpClient) (auth : Record)

namespace Request

/-- The attempts are the same but for the headers. -/
theorem withoutHeaders_attempt (args : RequestArgs) (run : Run Response) :
    (attempt (T := T) (c.withAuth auth) args run).map RequestEvent.withoutHeaders =
      (attempt c args run).map RequestEvent.withoutHeaders := by
  cases run <;> rfl

/-- So is a step of a request: no state and no other event depends on the auth headers. -/
theorem step_withAuth (q : Option (Request T)) (a : RequestAction T) :
    (step (c.withAuth auth) q a).map (fun p => (p.1, p.2.map RequestEvent.withoutHeaders)) =
      (step c q a).map fun p => (p.1, p.2.map RequestEvent.withoutHeaders) := by
  unfold step
  split
  · simp [withoutHeaders_attempt]
  · rfl
  · rfl
  · simp [withoutHeaders_attempt]
  all_goals rfl

end Request

namespace ClientSystem

/-- A step of the client, as it is seen without the headers. -/
def seen (r : Option (ClientSystem O T × List (ClientEvent T))) :
    Option (ClientSystem O T × List (ClientEvent T)) :=
  r.map fun p => (p.1, p.2.map ClientEvent.withoutHeaders)

theorem cases_of_seen_eq {r r' : Option (ClientSystem O T × List (ClientEvent T))}
    (h : seen r' = seen r) : r' = none ∧ r = none ∨
      ∃ s es' es, r' = some (s, es') ∧ r = some (s, es) ∧
        es'.map ClientEvent.withoutHeaders = es.map ClientEvent.withoutHeaders := by
  rcases r with _ | ⟨s, es⟩ <;> rcases r' with _ | ⟨s', es'⟩ <;>
    simp only [seen, Option.map_none, Option.map_some, reduceCtorEq, Option.some.injEq,
      Prod.mk.injEq] at h
  · exact .inl ⟨rfl, rfl⟩
  · obtain ⟨rfl, hes⟩ := h
    exact .inr ⟨s', es', es, rfl, rfl, hes⟩

/-- What a step of request `i` makes of the client. -/
def place (f : Request T → ClientSystem O T) (i : Nat) :
    Option (Option (Request T) × List (RequestEvent T)) →
      Option (ClientSystem O T × List (ClientEvent T))
  | some (some q, es) => some (f q, es.map (.request i))
  | _ => none

theorem seen_place {r r' : Option (Option (Request T) × List (RequestEvent T))}
    (h : r'.map (fun p => (p.1, p.2.map RequestEvent.withoutHeaders)) =
      r.map fun p => (p.1, p.2.map RequestEvent.withoutHeaders))
    (f : Request T → ClientSystem O T) (i : Nat) : seen (place f i r') = seen (place f i r) := by
  rcases r with _ | ⟨_ | q, es⟩ <;> rcases r' with _ | ⟨_ | q', es'⟩ <;>
    simp only [Option.map_none, Option.map_some, reduceCtorEq, Option.some.injEq, Prod.mk.injEq,
      false_and] at h
  · rfl
  · rfl
  · obtain ⟨rfl, hes⟩ := h
    simp only [place, seen, Option.map_some, map_withoutHeaders_request, hes]

theorem seen_stepRequest (s : ClientSystem O T) (i : Nat) (a : RequestAction T) :
    seen (s.stepRequest (c.withAuth auth) i a) = seen (s.stepRequest c i a) := by
  unfold stepRequest
  split
  · exact seen_place (Request.step_withAuth c auth _ a) _ i
  · rfl

/-- **A step of the client looks the same** whatever its auth headers are. -/
theorem seen_step (s : ClientSystem O T) (a : ClientAction T) :
    seen (step (c.withAuth auth) s a) = seen (step c s a) := by
  cases a with
  | request args =>
      exact seen_place (Request.step_withAuth c auth none _)
        (fun q => ⟨s.breaker.fire.1, s.requests ++ [q]⟩) _
  | respond i d u o => exact seen_stepRequest c auth s i _
  | wake i => exact seen_stepRequest c auth s i _
  | json i o => exact seen_stepRequest c auth s i _
  | complete i =>
      simp only [step, AbstractHttpClient.withAuth_deps]
      split
      · rcases cases_of_seen_eq (seen_stepRequest c auth s i .complete) with
          ⟨h', h⟩ | ⟨s₁, es', es, h', h, hes⟩ <;> rw [h', h]
        cases BreakerSystem.step c.deps.cb s.breaker (.complete i _) with
        | none => rfl
        | some p => simp only [seen, Option.map_some, List.map_append, hes]
      · rfl
  | emit i => rfl
  | settle i =>
      simp only [step, AbstractHttpClient.withAuth_deps]
      split
      · split
        · next r _ =>
          rcases cases_of_seen_eq (seen_stepRequest c auth s i (.fired r)) with
            ⟨h', h⟩ | ⟨s₁, es', es, h', h, hes⟩ <;> rw [h', h]
          simp only [seen, Option.map_some, hes]
        · rfl
      · rfl
  | tick => rfl
  | dispose => rfl

theorem observe_withAuth :
    (machine O T (c.withAuth auth)).observe ClientEvent.withoutHeaders =
      (machine O T c).observe ClientEvent.withoutHeaders := by
  have hstep : ((machine O T (c.withAuth auth)).observe ClientEvent.withoutHeaders).step =
      ((machine O T c).observe ClientEvent.withoutHeaders).step :=
    funext fun s => funext fun a => seen_step c auth s a
  exact congrArg (Machine.mk _) hstep

end ClientSystem

end

/-- The rest of the environment fixes the client but for its auth headers. -/
theorem httpClientProvider_withAuth {opts : HttpClientProviderOpts} {key : String}
    {env env' : String → String} {auth auth' : Record} {c c' : AbstractHttpClient}
    (hkey : opts.baseUrlEnvKey ≠ some key) (hsame : ∀ k, k ≠ key → env' k = env k)
    (hc : httpClientProvider opts env auth = .ok c)
    (hc' : httpClientProvider opts env' auth' = .ok c') : c' = c.withAuth auth' := by
  unfold httpClientProvider at hc hc'
  dsimp only at hc hc'
  split at hc
  · cases hc
  · next hsource =>
    rw [if_neg hsource] at hc'
    cases hc
    cases hc'
    have hbase : (if opts.baseUrlLiteral.getD "" ≠ "" then opts.baseUrlLiteral.getD ""
        else env' (opts.baseUrlEnvKey.getD "")) = if opts.baseUrlLiteral.getD "" ≠ "" then
          opts.baseUrlLiteral.getD "" else env (opts.baseUrlEnvKey.getD "") := by
      split
      · rfl
      · next hliteral =>
        refine hsame _ fun heq => ?_
        cases hopts : opts.baseUrlEnvKey with
        | none =>
            exact hsource (.inl ⟨by rw [hopts]; rfl, Classical.not_not.mp hliteral⟩)
        | some k => exact hkey (by rw [hopts, ← heq, hopts]; rfl)
    rw [hbase]
    rfl

/-- **An API key goes nowhere but into the headers of `fetch`.** Two deployments of a vendor's
client that have everything but the key in common have the same runs, the same state in the end and
the same history up to these headers: no URL, no log line, no error, no pause and no answer of one
tells it from the other. -/
theorem apiKey_confined {opts : HttpClientProviderOpts} {key : String} (auth : String → Record)
    {env env' : String → String} (hkey : opts.baseUrlEnvKey ≠ some key)
    (hsame : ∀ k, k ≠ key → env' k = env k) {c c' : AbstractHttpClient}
    (hc : httpClientProvider opts env (auth (env key)) = .ok c)
    (hc' : httpClientProvider opts env' (auth (env' key)) = .ok c')
    {h : List (ClientEvent T)} {s : ClientSystem O T}
    (hr : (ClientSystem.machine O T c).Reaches h s) :
    ∃ h', (ClientSystem.machine O T c').Reaches h' s ∧
      h'.map ClientEvent.withoutHeaders = h.map ClientEvent.withoutHeaders := by
  rw [httpClientProvider_withAuth hkey hsame hc hc']
  exact Machine.exists_reaches_of_observe_eq (ClientSystem.observe_withAuth c _).symm hr

section

open AppStoreSpyClient

/-- The environment after the key has been changed. -/
def rotatedEnv (key : String) : String := if key = API_KEY then "k2" else vendorEnv key

theorem apiKey_confined_rotatedKey :
    ∃ (c : AbstractHttpClient) (h h' : List (ClientEvent Nat)) (s : ClientSystem .v9 Nat),
      forRoot rotatedEnv = .ok c ∧ (ClientSystem.machine .v9 Nat c).Reaches h' s ∧
      (∃ e ∈ requestHistory 0 h, e.isFetch = true) ∧
      h'.map ClientEvent.withoutHeaders = h.map ClientEvent.withoutHeaders := by
  obtain ⟨h, s, hr, -, hfetch⟩ := oddRequest_runs
  have hsame : ∀ k, k ≠ API_KEY → rotatedEnv k = vendorEnv k := fun k hk => if_neg hk
  obtain ⟨c, hc⟩ : ∃ c, forRoot rotatedEnv = .ok c := ⟨_, rfl⟩
  obtain ⟨h', hr', heq⟩ := apiKey_confined buildAuthHeaders (by decide) hsame
    (show forRoot vendorEnv = .ok vendor from rfl) hc hr
  exact ⟨c, h, h', s, hc, hr', hfetch, heq⟩

end

end EmailPlatform.Http
