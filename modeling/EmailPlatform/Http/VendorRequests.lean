import EmailPlatform.Http.ClientRuns
import EmailPlatform.Js.Utf16
import EmailPlatform.Url.Query

/-!
# EmailPlatform.Http.VendorRequests

**What the vendors are asked.** The adapters of AppStoreSpy
(`http-clients/appstorespy/appstorespy.client.ts`) and of the cloud functions
(`http-clients/cloud-functions/cloudfn.client.ts`), and what a vendor reads off the URL that
arrives: the endpoint behind the configured base URL, and the parameters as they were given,
whatever characters are in them (`getAppMetadata_asks`).
-/

namespace EmailPlatform.Http

open JsString Url

namespace AppStoreSpyClient

def APPSTORESPY_LOG_CONTEXT : String := "AppStoreSpyClient"

def APPSTORESPY_AUTH_HEADER_NAME : String := "API-KEY"

/-- `APPSTORESPY_ENV.API_KEY` -/
def API_KEY : String := "APPSTORESPY_API_KEY"

/-- `APPSTORESPY_ENV.BASE_URL` -/
def BASE_URL : String := "APPSTORESPY_BASE_URL"

/-- `APPSTORESPY_PATH.LOOKUP_APP` -/
def LOOKUP_APP : String := "/app/lookup"

/-- `APPSTORESPY_QUERY.APP_ID` -/
def APP_ID : String := "appId"

/-- `APPSTORESPY_QUERY.COUNTRY` -/
def COUNTRY : String := "country"

structure LookupAppRequest where
  appId : JsString
  country : Option JsString
  deriving DecidableEq

/-- `buildAuthHeaders` of a client with this key. -/
def buildAuthHeaders (apiKey : String) : Record := [(APPSTORESPY_AUTH_HEADER_NAME, apiKey)]

/-- The client that `AppStoreSpyClientModule.forRoot` provides. -/
def forRoot (env : String → String) : Except Thrown AbstractHttpClient :=
  httpClientProvider { logContext := APPSTORESPY_LOG_CONTEXT, baseUrlEnvKey := some BASE_URL } env
    (buildAuthHeaders (env API_KEY))

/-- The `params` of `getAppMetadata`. -/
def params (req : LookupAppRequest) : List (String × JsString) :=
  (APP_ID, req.appId) :: (req.country.map fun country => (COUNTRY, country)).toList

/-- The parameters as text; `URLSearchParams` has U+FFFD for a lone surrogate. -/
def paramTexts (req : LookupAppRequest) : List (List Char × List Char) :=
  (params req).map fun p => (p.1.toList, chars p.2)

/-- `new URLSearchParams(params).toString()` -/
def query (req : LookupAppRequest) : String := String.ofList (formSerialize (paramTexts req))

/-- The request `getAppMetadata` makes. -/
def getAppMetadata (req : LookupAppRequest) : RequestArgs :=
  AbstractHttpClient.get (LOOKUP_APP ++ "?" ++ query req) none

end AppStoreSpyClient

namespace CloudFnClient

def CLOUDFN_LOG_CONTEXT : String := "CloudFnClient"

def CLOUDFN_AUTH_HEADER_NAME : String := "Authorization"

def CLOUDFN_AUTH_HEADER_VALUE_PREFIX : String := "Bearer "

/-- `CLOUDFN_ENV.API_KEY` -/
def API_KEY : String := "CLOUDFN_API_KEY"

/-- `CLOUDFN_ENV.BASE_URL` -/
def BASE_URL : String := "CLOUDFN_BASE_URL"

/-- `CLOUDFN_PATH.SEND_EMAIL` -/
def SEND_EMAIL : String := "/sendEmail"

/-- `buildAuthHeaders` of a client with this key. -/
def buildAuthHeaders (apiKey : String) : Record :=
  [(CLOUDFN_AUTH_HEADER_NAME, CLOUDFN_AUTH_HEADER_VALUE_PREFIX ++ apiKey)]

/-- The client that `CloudFnClientModule.forRoot` provides. -/
def forRoot (env : String → String) : Except Thrown AbstractHttpClient :=
  httpClientProvider { logContext := CLOUDFN_LOG_CONTEXT, baseUrlEnvKey := some BASE_URL } env
    (buildAuthHeaders (env API_KEY))

/-- The request `sendEmail` makes. -/
def sendEmail {B : Type} (stringify : B → Option String) (req : B) : RequestArgs :=
  AbstractHttpClient.post stringify SEND_EMAIL req none

end CloudFnClient

variable {A : Type} {parseAuthority : Bool → List Char → Option A}

/-- The slash at the end of a base URL, if it has one. -/
def trailingSlash (b : Base parseAuthority) : List Char :=
  if b.text.getLast? = some '/' then ['/'] else []

/-- A text behind the base is joined to it, with a slash of its own if the base has one, too. -/
theorem text_append_cons (b : Base parseAuthority) (cs : List Char) :
    b.text ++ '/' :: cs = b.join (trailingSlash b ++ cs) := by
  unfold trailingSlash Base.join
  split
  · next hlast =>
    obtain ⟨init, htext⟩ := List.getLast?_eq_some_iff.mp hlast
    rw [htext, dropSlash_concat]
    simp
  · next hlast =>
    rw [dropSlash_of_ne hlast]
    rfl

namespace AppStoreSpyClient

theorem toList_url (b : Base parseAuthority) {deps : HttpClientDeps}
    (hbase : deps.baseUrl = String.ofList b.text) (req : LookupAppRequest) :
    (HttpRequestExecutor.fetchUrl deps (getAppMetadata req)).toList =
      b.join ((trailingSlash b ++ "app/lookup".toList) ++ '?' ::
        formSerialize (paramTexts req)) := by
  have hpath : (getAppMetadata req).path = LOOKUP_APP ++ "?" ++ query req := rfl
  rw [HttpRequestExecutor.fetchUrl, hbase, hpath, List.append_assoc, ← text_append_cons]
  simp [LOOKUP_APP, query]

/-- The endpoint of a lookup behind the base. -/
theorem parse_lookup (b : Base parseAuthority) (req : LookupAppRequest) :
    ∃ u, parse parseAuthority (b.join ((trailingSlash b ++ "app/lookup".toList) ++ '?' ::
        formSerialize (paramTexts req))) = some u ∧
      u.scheme = b.record.scheme ∧ u.authority = b.record.authority ∧
      u.pathname = b.path ++ (trailingSlash b ++ LOOKUP_APP.toList) ∧
      u.query = some (formSerialize (paramTexts req)) ∧ u.fragment = none := by
  have hslash : trailingSlash b = [] ∨ trailingSlash b = ['/'] := by
    unfold trailingSlash
    split
    · exact .inr rfl
    · exact .inl rfl
  have hplain : ∀ c ∈ trailingSlash b ++ "app/lookup".toList, IsPlain c ∧ c ≠ '?' := by
    rcases hslash with h | h <;> rw [h] <;> exact List.all_iff_forall_prop.mp (by decide)
  obtain ⟨u, hparse, hscheme, hauthority, hpathname, hquery⟩ := b.parse_query hplain
    (fun c => isPlain_formSerialize) rfl (by
      rcases hslash with h | h <;> rw [h] <;> cases b.record.isSpecial <;> decide)
  refine ⟨u, hparse, hscheme, hauthority, hpathname.trans (congrArg (b.path ++ ·) ?_), hquery⟩
  rcases hslash with h | h <;> rw [h] <;> cases b.record.isSpecial <;> rfl

variable {O : Opossum} {T : Type} {c : AbstractHttpClient}

/-- What the module has read from the environment. -/
theorem forRoot_ok {env : String → String} (hc : forRoot env = .ok c) :
    c.deps.baseUrl = env BASE_URL ∧ c.deps.defaultTimeoutMs = DEFAULT_TIMEOUT_MS ∧
      c.buildAuthHeaders = buildAuthHeaders (env API_KEY) := by
  cases hc
  exact ⟨rfl, rfl, rfl⟩

/-- **A lookup asks what it was asked.** However the requests of its client interleave, it is sent
at most three times, with the key and without a body, to the endpoint behind the base URL; and
what the vendor reads in the query is the app id and the country, whatever stands in them. -/
theorem getAppMetadata_asks {env : String → String} (hc : forRoot env = .ok c)
    (b : Base parseAuthority) (hbase : env BASE_URL = String.ofList b.text)
    {h : List (ClientEvent T)} {s : ClientSystem O T}
    (hr : (ClientSystem.machine O T c).Reaches h s) {i : Nat} {q : Request T}
    (hq : s.requests[i]? = some q) {req : LookupAppRequest} (hargs : q.args = getAppMetadata req) :
    fetches (requestHistory i h) ≤ 3 ∧
      ∀ n url init, .request i (.fetch n url init) ∈ h →
        init = ⟨.GET, DEFAULT_TIMEOUT_MS, [(APPSTORESPY_AUTH_HEADER_NAME, env API_KEY)], none⟩ ∧
        ∃ u, parse parseAuthority url.toList = some u ∧
          u.scheme = b.record.scheme ∧ u.authority = b.record.authority ∧
          u.pathname = b.path ++ (trailingSlash b ++ LOOKUP_APP.toList) ∧
          u.query.bind formParse = some (paramTexts req) ∧ u.fragment = none := by
  obtain ⟨hdeps, htimeout, hauth⟩ := forRoot_ok hc
  have hlife := ClientSystem.request_reaches hr i
  rw [hq] at hlife
  refine ⟨Request.fetches_le hlife (by rw [hargs]; rfl), fun n url init hfetch => ?_⟩
  obtain ⟨rfl, rfl⟩ := Request.fetch_eq_of_mem hlife (mem_requestHistory.mpr hfetch)
  obtain ⟨u, hparse, hscheme, hauthority, hpathname, hquery, hfragment⟩ := parse_lookup b req
  refine ⟨?_, u, ?_, hscheme, hauthority, hpathname, ?_, hfragment⟩
  · rw [hargs, hauth, ← htimeout]
    rfl
  · rw [hargs, toList_url b (hdeps.trans hbase)]
    exact hparse
  · rw [hquery]
    exact formParse_formSerialize _

/-- A base URL with a path of its own; its authority is read as it stands. -/
def vendorBase : Base fun _ cs => some cs where
  text := "https://api.example/v1".toList
  plain := List.all_iff_forall_prop.mp (by decide)
  one_slash := by decide
  record := ⟨"https".toList, "api.example".toList, ["v1".toList], none, none⟩
  parses := rfl
  query := rfl
  fragment := rfl

def vendorEnv (key : String) : String := if key = BASE_URL then "https://api.example/v1" else "k"

/-- The client of that environment. -/
def vendor : AbstractHttpClient where
  deps := {
    baseUrl := "https://api.example/v1"
    defaultTimeoutMs := DEFAULT_TIMEOUT_MS
    logContext := APPSTORESPY_LOG_CONTEXT
    cb := {
      consecutiveThreshold := CB_CONSECUTIVE_THRESHOLD
      halfOpenAfterMs := CB_HALF_OPEN_AFTER_MS
      api := APPSTORESPY_LOG_CONTEXT } }
  mappers := providerMappers
  buildAuthHeaders := [("API-KEY", "k")]

/-- An id with marks of a query in it, and with a lone surrogate. -/
def oddRequest : LookupAppRequest := ⟨ofString "a&b=ü %41#" ++ [0xD800], some (ofString "DE")⟩

theorem oddRequest_runs :
    ∃ h s, (ClientSystem.machine .v9 Nat vendor).ReachesWhen (fun _ _ _ => True) h s ∧
      s.requests[0]?.map Request.args = some (getAppMetadata oddRequest) ∧
      ∃ e ∈ requestHistory 0 h, e.isFetch = true :=
  Machine.exists_reachesWhen_and [.request (getAppMetadata oddRequest)] (by decide +kernel)

theorem getAppMetadata_asks_oddRequest :
    ∃ (h : List (ClientEvent Nat)) (n : Nat) (url : String) (init : FetchInit),
      .request 0 (.fetch n url init) ∈ h ∧
      ∃ u, parse (fun _ cs => some cs) url.toList = some u ∧ u.pathname = "/v1/app/lookup".toList ∧
        u.query.bind formParse = some [("appId".toList, "a&b=ü %41#\uFFFD".toList),
          ("country".toList, "DE".toList)] := by
  obtain ⟨h, s, hr, hargs, e, he, hfetch⟩ := oddRequest_runs
  obtain ⟨q, hq, hargs⟩ := Option.map_eq_some_iff.mp hargs
  cases e with
  | fetch n url init =>
      have hmem := mem_requestHistory.mp he
      obtain ⟨-, u, hparse, -, -, hpathname, hquery, -⟩ :=
        (getAppMetadata_asks (show forRoot vendorEnv = .ok vendor from rfl) vendorBase rfl hr hq
          hargs).2 n url init hmem
      exact ⟨h, n, url, init, hmem, u, hparse, hpathname, hquery⟩
  | _ => cases hfetch

end AppStoreSpyClient

namespace CloudFnClient

variable {O : Opossum} {T : Type} {c : AbstractHttpClient}

/-- An email is handed over at most once, and as JSON with the key. -/
theorem sendEmail_sent {env : String → String} (hc : forRoot env = .ok c)
    {h : List (ClientEvent T)} {s : ClientSystem O T}
    (hr : (ClientSystem.machine O T c).Reaches h s) {i : Nat} {q : Request T}
    (hq : s.requests[i]? = some q) {B : Type} {stringify : B → Option String} {req : B}
    (hargs : q.args = sendEmail stringify req) :
    fetches (requestHistory i h) ≤ 1 ∧
      ∀ n url init, .request i (.fetch n url init) ∈ h → url = env BASE_URL ++ SEND_EMAIL ∧
        init = ⟨.POST, DEFAULT_TIMEOUT_MS,
          [(CLOUDFN_AUTH_HEADER_NAME, CLOUDFN_AUTH_HEADER_VALUE_PREFIX ++ env API_KEY),
            (AbstractHttpClient.CONTENT_TYPE, AbstractHttpClient.APPLICATION_JSON)],
          stringify req⟩ := by
  have hlife := ClientSystem.request_reaches hr i
  rw [hq] at hlife
  refine ⟨Request.fetches_le hlife (by rw [hargs]; rfl), fun n url init hfetch => ?_⟩
  obtain ⟨rfl, rfl⟩ := Request.fetch_eq_of_mem hlife (mem_requestHistory.mpr hfetch)
  rw [hargs]
  cases hc
  exact ⟨rfl, rfl⟩

end CloudFnClient

end EmailPlatform.Http
