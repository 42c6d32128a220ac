import EmailPlatform.Http.ClientLaws
import EmailPlatform.Js.JsonData

/-!
# EmailPlatform.Http.TelegramNotification

**What a notification sends** (`telegram/telegram-notification.adapter.ts`). The payload is read
as JSON, two members are taken out of it and written as JSON again, and a client sends the text.
Of whatever the payload was, Telegram reads the two members in the end, and nothing else
(`send_delivers`).
-/

namespace EmailPlatform.Http

open JSON (Value Data normalForm)

namespace TelegramNotificationAdapter

/-- `chat_id` -/
def CHAT_ID : JsString := .ofString "chat_id"

/-- `text` -/
def TEXT : JsString := .ofString "text"

/-- `v[key]`, for a value that is not `null` and a key that no prototype has. -/
def property (v : Value) (key : JsString) : Value :=
  match v with
  | .object members => ((members.find? (·.1 = key)).map Prod.snd).getD .undefined
  | _ => .undefined

/-- The `req` of `send`. -/
def request (envelope : Value) : Value :=
  .object [(CHAT_ID, property envelope CHAT_ID), (TEXT, property envelope TEXT)]

/-- The request that `send` makes, or what it throws before. -/
def send (format : NumberFormat) (botToken payload : String) : Except JSON.Error RequestArgs :=
  match JSON.parse payload.toList with
  | .error e => .error e
  -- there is no property of `null`
  | .ok .null => .error .typeError
  | .ok envelope => do
    let body ← JSON.stringify format (request envelope)
    .ok (TelegramClient.sendMessage (fun _ => body.map String.ofList) botToken (request envelope))

/-- What is left of a member in a text, if the envelope has it. -/
def delivered? (envelope : Value) (key : JsString) : Option (JsString × Value) :=
  match normalForm (property envelope key) false with
  | .ok (some form) => some (key, form)
  | _ => none

/-- What arrives of an envelope. -/
def delivered (envelope : Value) : List (JsString × Value) :=
  [CHAT_ID, TEXT].filterMap (delivered? envelope)

/-- A property of data is data, or there is none. -/
theorem property_cases {envelope : Value} (h : Data envelope) (key : JsString) :
    property envelope key = .undefined ∨ Data (property envelope key) := by
  cases h with
  | @object members _ hdata =>
      simp only [property]
      cases hfind : members.find? (·.1 = key) with
      | none => exact .inl rfl
      | some m => exact .inr (hdata m (List.mem_of_find?_eq_some hfind))
  | _ => exact .inl rfl

theorem normalForm_property {envelope : Value} (h : Data envelope) (key : JsString) :
    ∃ form, normalForm (property envelope key) false = .ok form ∧
      delivered? envelope key = form.map fun f => (key, f) := by
  rcases property_cases h key with hnone | hdata
  · exact ⟨none, by rw [hnone]; rfl, by simp [delivered?, hnone, normalForm]⟩
  · obtain ⟨form, hform⟩ := hdata.normalForm_eq
    exact ⟨some form, hform, by simp [delivered?, hform]⟩

theorem normalMembers_request {envelope : Value} (h : Data envelope) (keys : List JsString) :
    JSON.normalMembers (keys.map fun key => (key, property envelope key)) =
      .ok (keys.filterMap (delivered? envelope)) := by
  induction keys with
  | nil => rfl
  | cons key keys ih =>
      obtain ⟨form, hform, hkey⟩ := normalForm_property h key
      rw [List.map_cons, JSON.normalMembers, hform, ih, List.filterMap_cons, hkey]
      cases form <;> rfl

theorem keys_delivered_sublist (envelope : Value) (keys : List JsString) :
    ((keys.filterMap (delivered? envelope)).map Prod.fst).Sublist keys := by
  induction keys with
  | nil => exact .slnil
  | cons key keys ih =>
      unfold delivered? at ih ⊢
      rw [List.filterMap_cons]
      split
      · exact ih.cons key
      · next m hm =>
        split at hm <;> cases hm
        exact ih.cons_cons key

/-- What the body of a request stands for. -/
theorem normalForm_request {envelope : Value} (h : Data envelope) :
    normalForm (request envelope) false = .ok (some (.object (delivered envelope))) := by
  have hkeys : [CHAT_ID, TEXT].Nodup := by decide
  have hnodup : ((delivered envelope).map Prod.fst).Nodup :=
    hkeys.sublist (keys_delivered_sublist envelope _)
  have hmembers : JSON.normalMembers [(CHAT_ID, property envelope CHAT_ID),
      (TEXT, property envelope TEXT)] = .ok (delivered envelope) :=
    normalMembers_request h [CHAT_ID, TEXT]
  rw [request, normalForm, hmembers, ← Value.ofMembers_of_nodup hnodup]
  rfl

/-- What becomes of a payload. -/
theorem send_cases (format : NumberFormat) (botToken payload : String) :
    (∃ e, JSON.parse payload.toList = .error e ∧ send format botToken payload = .error e) ∨
      (JSON.parse payload.toList = .ok .null ∧
        send format botToken payload = .error .typeError) ∨
      ∃ envelope body, JSON.parse payload.toList = .ok envelope ∧ envelope ≠ .null ∧
        send format botToken payload = .ok (TelegramClient.sendMessage
          (fun _ => some (String.ofList body)) botToken (request envelope)) ∧
        JSON.parse body = .ok (.object (delivered envelope)) := by
  unfold send
  split
  · next e hparse => exact .inl ⟨e, hparse, rfl⟩
  · next hparse => exact .inr (.inl ⟨hparse, rfl⟩)
  · next envelope hnull hparse =>
    have htext : ∃ body, JSON.stringify format (request envelope) = .ok (some body) ∧
        JSON.parse body = .ok (.object (delivered envelope)) :=
      JSON.exists_text (normalForm_request (JSON.parse_data hparse))
    obtain ⟨body, hbody, hread⟩ := htext
    refine .inr (.inr ⟨envelope, body, hparse, hnull, ?_, hread⟩)
    rw [hbody]
    rfl

variable {O : Opossum} {T : Type} {c : AbstractHttpClient}

/-- A message is sent at most once, to the bot's own address, with its text as body. -/
theorem sendMessage_sent {h : List (ClientEvent T)} {s : ClientSystem O T}
    (hr : (ClientSystem.machine O T c).Reaches h s) {i : Nat} {q : Request T}
    (hq : s.requests[i]? = some q) {B : Type} {stringify : B → Option String}
    {botToken : String} {req : B}
    (hargs : q.args = TelegramClient.sendMessage stringify botToken req) :
    fetches (requestHistory i h) ≤ 1 ∧
      ∀ n url init, .request i (.fetch n url init) ∈ h →
        url = c.deps.baseUrl ++ ("/bot" ++ botToken ++ "/sendMessage") ∧
        init.method = .POST ∧ init.body = stringify req := by
  have hlife := ClientSystem.request_reaches hr i
  rw [hq] at hlife
  refine ⟨Request.fetches_le hlife (by rw [hargs]; rfl), fun n url init hfetch => ?_⟩
  obtain ⟨rfl, rfl⟩ := Request.fetch_eq_of_mem hlife (mem_requestHistory.mpr hfetch)
  rw [hargs]
  exact ⟨rfl, rfl, rfl⟩

/-- **A notification is its `chat_id` and its `text`.** A payload is turned away when it is no JSON
text or `null`. Of every other one a request is made; however the requests of the client
interleave it is sent at most once, to the bot's own address, and its body reads as the object of
these two members of the payload, or of those that the payload has. -/
theorem send_delivers (format : NumberFormat) (botToken payload : String) :
    (∀ e, send format botToken payload = .error e ↔ JSON.parse payload.toList = .error e ∨
      JSON.parse payload.toList = .ok .null ∧ e = .typeError) ∧
    ∀ args, send format botToken payload = .ok args →
      ∃ envelope, JSON.parse payload.toList = .ok envelope ∧
        ∀ {h : List (ClientEvent T)} {s : ClientSystem O T},
          (ClientSystem.machine O T c).Reaches h s →
          ∀ (i : Nat) (q : Request T), s.requests[i]? = some q → q.args = args →
            fetches (requestHistory i h) ≤ 1 ∧
              ∀ n url init, .request i (.fetch n url init) ∈ h →
                url = c.deps.baseUrl ++ ("/bot" ++ botToken ++ "/sendMessage") ∧
                init.method = .POST ∧
                ∃ body, init.body = some (String.ofList body) ∧
                  JSON.parse body = .ok (.object (delivered envelope)) := by
  rcases send_cases format botToken payload with
    ⟨e, hparse, hsend⟩ | ⟨hparse, hsend⟩ | ⟨envelope, body, hparse, hnull, hsend, hread⟩
  · rw [hparse, hsend]
    exact ⟨by simp, by simp⟩
  · rw [hparse, hsend]
    exact ⟨by simp [eq_comm], by simp⟩
  · refine ⟨fun e => ?_, fun args hargs => ⟨envelope, hparse, fun hr i q hq hq_args => ?_⟩⟩
    · rw [hsend, hparse]
      simp [hnull]
    · rw [hsend] at hargs
      obtain rfl := Except.ok.inj hargs
      obtain ⟨hle, hsent⟩ := sendMessage_sent hr hq hq_args
      refine ⟨hle, fun n url init hfetch => ?_⟩
      obtain ⟨hurl, hmethod, hbody⟩ := hsent n url init hfetch
      exact ⟨hurl, hmethod, body, hbody, hread⟩

/-- A payload with more in it than is sent. -/
def startPayload : String :=
  "\x7b\"text\": \"старт \\u2713\", \"debug\": [1, null], \"chat_id\": \"@ops\"\x7d"

/-- The message it becomes. -/
def startMessage : RequestArgs :=
  TelegramClient.sendMessage
    (fun _ : Unit => some "\x7b\"chat_id\":\"@ops\",\"text\":\"старт ✓\"\x7d") "t" ()

theorem startMessage_runs :
    ∃ h s, (ClientSystem.machine .v9 Nat (vendorClient 5)).ReachesWhen (fun _ _ _ => True) h s ∧
      s.requests[0]?.map Request.args = some startMessage ∧
      ∃ e ∈ requestHistory 0 h, e.isFetch = true :=
  Machine.exists_reachesWhen_and [.request startMessage] (by decide +kernel)

theorem send_delivers_start :
    ∃ (h : List (ClientEvent Nat)) (n : Nat) (url : String) (init : FetchInit) (body : List Char),
      .request 0 (.fetch n url init) ∈ h ∧ init.body = some (String.ofList body) ∧
      JSON.parse body = .ok (.object
        [(CHAT_ID, .str (.ofString "@ops")), (TEXT, .str (.ofString "старт ✓"))]) := by
  obtain ⟨h, s, hr, hargs, e, he, hfetch⟩ := startMessage_runs
  obtain ⟨q, hq, hargs⟩ := Option.map_eq_some_iff.mp hargs
  have hsend : send anyFormat "t" startPayload = .ok startMessage := rfl
  obtain ⟨envelope, hparse, hruns⟩ := (send_delivers anyFormat "t" startPayload).2 _ hsend
  cases e with
  | fetch n url init =>
      have hmem := mem_requestHistory.mp he
      obtain ⟨-, -, body, hbody, hread⟩ := (hruns hr 0 q hq hargs).2 n url init hmem
      refine ⟨h, n, url, init, body, hmem, hbody, hread.trans ?_⟩
      obtain rfl := Except.ok.inj hparse
      rfl
  | _ => cases hfetch

end TelegramNotificationAdapter

end EmailPlatform.Http
