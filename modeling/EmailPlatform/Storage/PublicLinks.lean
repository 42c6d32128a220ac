import EmailPlatform.Js.Utf8
import EmailPlatform.Storage.PublicAddress
import EmailPlatform.Storage.StreamedBucket
import EmailPlatform.Url.Below

/-!
# EmailPlatform.Storage.PublicLinks

**What the links of the public bucket show.** `upload` hands out a URL with the filename in it as
it came. Who follows the URL is shown the object whose key the web endpoint reads off the path
below the base, percent-decoded, and nothing if there is none.

A filename can make that another key than the one stored under. It cannot make it the key of
another upload: the uuid stands before the filename, and no filename takes it away and still leaves
a key (`key_of_addresses`). So a link shows the document of its upload or nothing
(`link_shows_iff`).
-/

namespace EmailPlatform.Storage

open JsString Url

variable {A : Type} {parseAuthority : Bool → List Char → Option A}

/-- Who follows the URL is shown the object. -/
def Shows (base : Base parseAuthority) (objects : JsString → Option StoredObject) (url : JsString)
    (object : StoredObject) : Prop :=
  ∃ key, Addresses base url key ∧ objects key = some object

/-! ### The key that a link addresses -/

section Address

variable {base : Base parseAuthority} {call : UploadCall}

theorem steady_uuid (special : Bool) (uuid : Uuid) : Steady special (chars uuid.text) := by
  obtain ⟨-, hlen, hchar⟩ := chars_uuid uuid
  refine ⟨fun c hc => ?_, ?_, ?_⟩
  · have huuid := hchar c hc
    have hmark : ∀ d ∈ ['/', '\\', '?', '#', '%'], ¬ IsUuidChar d := by simp [IsUuidChar]
    have hne : ∀ d ∈ ['/', '\\', '?', '#', '%'], c ≠ d := fun d hd heq =>
      hmark d hd (heq ▸ huuid)
    refine ⟨?_, ?_, fun h => hne c (List.mem_cons_of_mem _ (List.mem_cons_of_mem _ h)) rfl⟩
    · unfold IsUuidChar at huuid
      simp only [isTabOrNewline, decide_eq_false_iff_not, List.mem_cons, List.not_mem_nil, or_false]
      omega
    · simp [isSlash, hne '/' (by simp), hne '\\' (by simp)]
  · intro heq
    rw [heq] at hlen
    cases hlen
  · intro heq
    rw [heq] at hlen
    cases hlen

theorem steady_namespace {special : Bool} {ns : JsString} (hplain : PlainNamespace ns)
    (hns : AddressableNamespace special ns) : Steady special (chars ns) := by
  refine ⟨fun c hc => ⟨hns.no_newline c hc, ?_, fun h => ?_⟩, hplain.not_dot⟩
  · have hslash : c ≠ '/' := fun h => hplain.no_mark c hc (by simp [h])
    have hback : special = true → c ≠ '\\' := fun hs h => hns.no_backslash hs (h ▸ hc)
    cases special with
    | false => simp [isSlash, hslash]
    | true => simp [isSlash, hslash, hback rfl]
  · refine hplain.no_mark c hc ?_
    simp only [List.mem_cons, List.not_mem_nil, or_false] at h ⊢
    exact .inr h

/-- The key of an upload, as text. -/
theorem chars_key_eq_below (call : UploadCall) :
    chars call.key = below [chars call.service.ns, chars call.uuid.text]
      ((chars (call.filename.take maxLength)).map safeChar) := by
  rw [(chars_key call).2]
  simp [below]

/-- **A link addresses a key with the uuid of its upload**, or the directory of the namespace. -/
theorem key_of_addresses (hbase : call.service.publicUrlBase = ofChars base.text)
    (hplain : PlainNamespace call.service.ns)
    (hns : AddressableNamespace base.record.isSpecial call.service.ns) {key : JsString}
    (h : Addresses base call.url key) :
    (∃ tail, key = objectKey call.service.ns call.uuid tail) ∨
      key = call.service.ns ++ [pathSeparator] := by
  obtain ⟨u, rest, text, hparse, hpath, hdecode, rfl⟩ := h
  have hurl : chars call.url = base.join (chars call.key) := by
    rw [UploadCall.url, hbase, chars_buildPublicUrl]
    rfl
  -- No normalisation reaches the namespace and the uuid: what is below is the file name's.
  have hdirs : ∀ seg ∈ [chars call.service.ns, chars call.uuid.text],
      Steady base.record.isSpecial seg := by
    simpa using ⟨steady_namespace hplain hns, steady_uuid _ call.uuid⟩
  have hname : ∀ c ∈ (chars (call.filename.take maxLength)).map safeChar,
      isSlash base.record.isSpecial c = false := by
    intro c hc
    obtain ⟨x, -, rfl⟩ := List.mem_map.mp hc
    exact isSlash_safeChar _ x
  obtain ⟨u', rest', hparse', hpath', hrest⟩ := base.parse_below (by simp) hdirs hname
  rw [hurl, chars_key_eq_below, hparse'] at hparse
  obtain rfl := Option.some.inj hparse
  obtain rfl := List.append_cancel_left (hpath'.symm.trans hpath)
  have hslash : ofChars ['/'] = [pathSeparator] := by decide
  have hbyte : utf8 '/' = [0x2F] := rfl
  have hnsText := ofChars_chars hns.well_formed
  have huuidText := ofChars_chars (chars_uuid call.uuid).1
  -- It stays below the uuid, or has gone up by one, and the bytes decide the text.
  rcases hrest with ⟨bytes, hbytes⟩ | hbytes
  · left
    have hprefix : utf8Bytes ('/' :: text) = utf8Bytes ('/' :: (chars call.service.ns ++
        '/' :: (chars call.uuid.text ++ ['/']))) ++ bytes := by
      rw [← hdecode, hbytes]
      simp [utf8Bytes, hbyte]
    obtain ⟨ds, hds, -⟩ := exists_append_of_utf8Bytes hprefix
    refine ⟨ofChars ds, ?_⟩
    have htext : text =
        chars call.service.ns ++ (['/'] ++ (chars call.uuid.text ++ (['/'] ++ ds))) := by
      rw [(List.cons.inj hds).2]
      simp
    rw [htext, ofChars_append, ofChars_append, ofChars_append, ofChars_append, hnsText, huuidText,
      hslash]
    rfl
  · right
    have htext : '/' :: text = '/' :: (chars call.service.ns ++ ['/']) := by
      refine utf8Bytes_injective ?_
      rw [← hdecode, hbytes]
      simp [utf8Bytes, hbyte]
    rw [(List.cons.inj htext).2, ofChars_append, hnsText, hslash]

/-- It addresses the key of its upload exactly when the URL parser leaves the name as it is. -/
theorem addresses_key_iff (hbase : call.service.publicUrlBase = ofChars base.text)
    (hplain : PlainNamespace call.service.ns)
    (hns : AddressableNamespace base.record.isSpecial call.service.ns) :
    Addresses base call.url call.key ↔ AddressableName (call.filename.take maxLength) := by
  obtain ⟨hwell, hchars⟩ := chars_key call
  obtain ⟨-, hlen, huuid⟩ := chars_uuid call.uuid
  rw [UploadCall.url, hbase, addresses_iff_verbatim, hwell, hchars, hns.well_formed, Bool.true_and,
    verbatim_key_iff hplain.no_mark hplain.not_dot huuid hlen,
    and_iff_right (show _ ∧ _ from ⟨hns.no_newline, hns.no_backslash⟩)]
  constructor
  · rintro ⟨hname, hquery, hfragment, hesc, hdot, hspace⟩
    exact ⟨hname, hquery, hfragment, hesc, hdot, hspace⟩
  · intro hname
    exact ⟨hname.well_formed, hname.no_query, hname.no_fragment, hname.no_escape, hname.not_dot,
      hname.no_space⟩

end Address

/-! ### The uploads behind the links -/

section Uploads

variable {lib : Uploader} {node : StreamOptions} {h h₁ h₂ : List StreamedEvent} {s : StreamedState}
  {i j : ℕ} {call call' : UploadCall} {result result' : UploadResult}

/-- The key that an event returns to a caller. -/
def StreamedEvent.returnedKey? (e : StreamedEvent) : Option JsString :=
  e.visible?.bind Event.returnedKey?

/-- An upload resolves with its own URL and key. -/
theorem result_of_settled (hr : (streamedBucket lib node).Reaches h s)
    (hmem : .stream i call (.settled (.ok result)) ∈ h) : result = ⟨call.url, call.key⟩ := by
  revert hmem
  refine hr.invariant (I := fun h _ => .stream i call (.settled (.ok result)) ∈ h →
    result = ⟨call.url, call.key⟩) (by simp) ?_
  intro h s a s' es _ hi hs hmem
  rcases List.mem_append.mp hmem with hmem | hmem
  · exact hi hmem
  · cases streamedTrans_of_step hs with
    | started => simp at hmem
    | @stream i u a state es hu hstep =>
        obtain ⟨e, he, heq⟩ := List.mem_map.mp hmem
        cases heq
        rcases commit_cases hstep with ⟨-, hno⟩ | ⟨-, -, rfl⟩
        · exact absurd he (hno result)
        · simpa using he
    | client => simp at hmem

/-- What has resolved has resolved in the bucket that the bucket with streams is. -/
theorem resolved_of_settled {g : List Event}
    (hview : h.filterMap StreamedEvent.visible? = g.filterMap Event.visible?)
    (hmem : .stream i call (.settled (.ok result)) ∈ h) :
    .resolved i call result.url result.key ∈ g := by
  have hseen : .resolved i call result.url result.key ∈ g.filterMap Event.visible? := by
    rw [← hview]
    exact List.mem_filterMap.mpr ⟨_, hmem, rfl⟩
  obtain ⟨e, he, hvis⟩ := List.mem_filterMap.mp hseen
  cases e with
  | chunk | bodyEnded | bodyFailed => cases hvis
  | _ => exact Option.some.inj hvis ▸ he

/-- Uploads with one uuid are one upload, and their namespaces have no separator. -/
theorem call_eq_of_uuid (hlib : lib.Safe) (hr : (streamedBucket lib node).Reaches h s)
    (hmem : .stream i call (.settled (.ok result)) ∈ h)
    (hmem' : .stream j call' (.settled (.ok result')) ∈ h) :
    pathSeparator ∉ call.service.ns ∧ (call.uuid = call'.uuid → call = call') := by
  obtain ⟨g, t, hg, -, hview⟩ := (bucketRefinement hlib).reaches hr
  have hinv := inv_of_reaches hg
  obtain ⟨-, task, htask, rfl, -⟩ := hinv.resolved (resolved_of_settled hview hmem)
  obtain ⟨-, task', htask', rfl, -⟩ := hinv.resolved (resolved_of_settled hview hmem')
  refine ⟨(hinv.task htask).named.2, fun huuid => ?_⟩
  obtain rfl := index_eq_of_uuid hinv.uuids htask htask' huuid
  obtain rfl := Option.some.inj (htask.symm.trans htask')
  rfl

/-- No key is returned twice. -/
theorem returnedKeys_nodup (hlib : lib.Safe) (hr : (streamedBucket lib node).Reaches h s) :
    (h.filterMap StreamedEvent.returnedKey?).Nodup := by
  obtain ⟨g, t, hg, -, hview⟩ := (bucketRefinement hlib).reaches hr
  have hkeys : h.filterMap StreamedEvent.returnedKey? = g.filterMap Event.returnedKey? := by
    have hsame : g.filterMap Event.returnedKey? =
        (g.filterMap Event.visible?).filterMap Event.returnedKey? := by
      rw [List.filterMap_filterMap]
      refine List.filterMap_congr fun e _ => ?_
      cases e <;> rfl
    rw [hsame, ← hview, List.filterMap_filterMap]
    rfl
  rw [hkeys]
  exact keys_nodup_of_reaches hg

/-- **A link leads to its own object or to none**: the key it addresses, if anything is stored
there, is the key that was returned with it. -/
theorem key_eq_of_stored (hlib : lib.Safe) (hr : (streamedBucket lib node).Reaches h s)
    (hmem : .stream i call (.settled (.ok result)) ∈ h) {base : Base parseAuthority}
    (hbase : call.service.publicUrlBase = ofChars base.text)
    (hplain : PlainNamespace call.service.ns)
    (hns : AddressableNamespace base.record.isSpecial call.service.ns) {key : JsString}
    {object : StoredObject} (haddr : Addresses base result.url key)
    (hobj : s.objects key = some object) : key = result.key := by
  obtain ⟨h₁, h₂, j, call', url, rfl, -⟩ := holdsBody_of_objects hlib hr hobj
  have hmem' : .stream j call' (.settled (.ok ⟨url, key⟩)) ∈
      h₁ ++ StreamedEvent.stream j call' (.settled (.ok ⟨url, key⟩)) :: h₂ := by simp
  obtain ⟨hsep, hcall⟩ := call_eq_of_uuid hlib hr hmem hmem'
  obtain ⟨hsep', -⟩ := call_eq_of_uuid hlib hr hmem' hmem'
  have hkey' : key = call'.key := congrArg UploadResult.key (result_of_settled hr hmem')
  obtain rfl := result_of_settled hr hmem
  rcases key_of_addresses hbase hplain hns haddr with ⟨tail, hkey⟩ | hkey
  · obtain rfl := hcall (uuid_eq_of_objectKey_eq hsep hsep' (hkey.symm.trans hkey'))
    exact hkey'
  · -- the directory of a namespace has no room for a uuid
    have hcut := (append_cons_inj hsep hsep' (hkey.symm.trans hkey')).2
    simp at hcut

/-- **A link shows the document of its upload or nothing.** In every run of any number of uploads
over streams, deletes and probes, whatever the filenames: at any time after an upload has returned
its URL, who follows it is shown an object exactly when the URL parser leaves the filename as it is
and nobody has deleted the key, and the object is the body of this upload, byte for byte. -/
theorem link_shows_iff (hlib : lib.Safe)
    (hr : (streamedBucket lib node).Reaches
      (h₁ ++ .stream i call (.settled (.ok result)) :: h₂) s) {base : Base parseAuthority}
    (hbase : call.service.publicUrlBase = ofChars base.text)
    (hplain : PlainNamespace call.service.ns)
    (hns : AddressableNamespace base.record.isSpecial call.service.ns) (object : StoredObject) :
    Shows base s.objects result.url object ↔
      AddressableName (call.filename.take maxLength) ∧ .client (.deleted result.key) ∉ h₂ ∧
        object = ⟨(emitted (streamHistory i h₁)).flatten, call.service.contentType⟩ := by
  have hmem : .stream i call (.settled (.ok result)) ∈
      h₁ ++ StreamedEvent.stream i call (.settled (.ok result)) :: h₂ := by simp
  have hresult := result_of_settled hr hmem
  have hname := addresses_key_iff hbase hplain hns
  constructor
  · intro ⟨key, haddr, hobj⟩
    obtain rfl := key_eq_of_stored hlib hr hmem hbase hplain hns haddr hobj
    obtain ⟨m₁, m₂, j, call', url, hsplit, hdel, rfl⟩ := holdsBody_of_objects hlib hr hobj
    obtain ⟨rfl, heq, rfl⟩ := split_eq_of_nodup (returnedKeys_nodup hlib hr) hsplit rfl rfl
    obtain ⟨rfl, rfl, -⟩ := StreamedEvent.stream.inj heq
    rw [hresult] at haddr
    exact ⟨hname.mp haddr, hdel, rfl⟩
  · intro ⟨haddressable, hdel, hobj⟩
    refine ⟨result.key, ?_, ?_⟩
    · rw [hresult]
      exact hname.mpr haddressable
    · exact objects_of_holdsBody hlib hr ⟨h₁, h₂, i, call, result.url, rfl, hdel, hobj⟩

end Uploads

/-- The base URL of the page's binding. -/
def pageBase : Base domain? where
  text := "https://public".toList
  plain := List.all_iff_forall_prop.mp (by decide)
  one_slash := by decide
  record := ⟨"https".toList, "public".toList, [[]], none, none⟩
  parses := rfl
  query := rfl
  fragment := rfl

/-- What happens until the page is there. -/
def pageHistory : List StreamedEvent :=
  [.started 0 pageCall, .started 1 reportCall, .stream 1 reportCall (.chunk [7, 8]),
    .stream 0 pageCall (.chunk [1, 2, 3]), .stream 0 pageCall (.uploader (.read [1, 2, 3])),
    .stream 0 pageCall .sourceEnded, .stream 0 pageCall (.uploader .readEnd),
    .stream 0 pageCall (.uploader .send), .stream 0 pageCall (.uploader (.answer none)),
    .stream 0 pageCall (.uploader (.settle (.ok ())))]

theorem link_shows_iff_twoPages :
    ∃ h s, (streamedBucket uploader node20).Reaches h s ∧
      Shows pageBase s.objects pageCall.url ⟨[1, 2, 3], .ofString "text/html"⟩ := by
  have hsome : ((streamedBucket uploader node20).execWhen (fun _ _ _ => True) twoPages).isSome :=
    rfl
  have hr : (streamedBucket uploader node20).Reaches
      (pageHistory ++
        StreamedEvent.stream 0 pageCall (.settled (.ok ⟨pageCall.url, pageCall.key⟩)) ::
          [StreamedEvent.client (.existed pageCall.key true)]) _ := Machine.reachesWhen_get hsome
  have hbase : pageCall.service.publicUrlBase = ofChars pageBase.text := rfl
  have hplain : PlainNamespace pageCall.service.ns :=
    ⟨List.all_iff_forall_prop.mp (by decide), by decide⟩
  have hns : AddressableNamespace pageBase.record.isSpecial pageCall.service.ns :=
    ⟨by decide, List.all_iff_forall_prop.mp (by decide), by decide⟩
  refine ⟨_, _, hr, ?_⟩
  exact (link_shows_iff (libStorage_lawful (by decide) _).toSafe hr hbase hplain hns _).mpr
    ⟨⟨by decide, by decide, by decide, by decide, by decide, by decide⟩, by simp, rfl⟩

end EmailPlatform.Storage
