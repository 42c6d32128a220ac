import EmailPlatform.Http.Request
import Mathlib.Data.List.Induction
import Mathlib.Data.List.Nodup

/-!
# EmailPlatform.Http.Headers

**Which header wins.** A call has headers from three sources: the client's auth headers,
the `Content-Type` of a JSON body, and the caller's own. They are merged by object spread,
which compares names as they are spelled, and are then read by `fetch`, which compares
them in lower case and joins the values of equal names.

The two agree as long as no header is spelled in two ways. `override_iff` states that this
is exactly when the caller's header wins, and with one value: when two spellings meet, the
list the server sees has a value longer than any of those that were given.
-/

namespace EmailPlatform.Http

/-! ### The header list of `fetch` -/

/-- A header name as `fetch` compares it. -/
def lowerName (name : String) : String := String.ofList (name.toList.map Char.toLower)

/-- `headers.append(name, value)` on a header list: equal names are combined. -/
def Record.append (headers : Record) (name value : String) : Record :=
  if headers.any (·.1 = lowerName name) then
    headers.map fun p => if p.1 = lowerName name then (p.1, p.2 ++ ", " ++ value) else p
  else headers ++ [(lowerName name, value)]

/-- `new Headers(record)`: the header list that is sent. The names and values are taken to be legal
and without blanks at their ends; the constructor throws for others, or trims them, and that is
left out here. -/
def headerList (record : Record) : Record :=
  record.foldl (fun headers p => headers.append p.1 p.2) []

/-- The values a header list has for a name. -/
def sentValues (headers : Record) (name : String) : List String :=
  (headers.filter (·.1 = lowerName name)).map Prod.snd

/-- The values a record gives for a name, in any spelling. -/
def valuesOf (record : Record) (name : String) : List String :=
  (record.filter (lowerName ·.1 = lowerName name)).map Prod.snd

/-- Values joined as `fetch` joins them. -/
def combine : List String → List String
  | [] => []
  | v :: vs => [vs.foldl (fun acc w => acc ++ ", " ++ w) v]

theorem combine_concat (v : String) (vs : List String) (w : String) :
    combine (v :: vs ++ [w]) = (combine (v :: vs)).map (· ++ ", " ++ w) := by
  unfold combine
  simp

theorem sentValues_cons (p : String × String) (headers : Record) (name : String) :
    sentValues (p :: headers) name =
      if p.1 = lowerName name then p.2 :: sentValues headers name else sentValues headers name := by
  unfold sentValues
  by_cases hp : p.1 = lowerName name
  · rw [List.filter_cons_of_pos (by simpa using hp), if_pos hp]
    rfl
  · rw [List.filter_cons_of_neg (by simpa using hp), if_neg hp]

/-- Changing the value of one name changes what is sent for it alone. -/
theorem sentValues_map (headers : Record) (m : String) (g : String → String) (name : String) :
    sentValues (headers.map fun p => if p.1 = m then (p.1, g p.2) else p) name =
      if m = lowerName name then (sentValues headers name).map g
      else sentValues headers name := by
  induction headers with
  | nil => split <;> rfl
  | cons p headers ih =>
      rw [List.map_cons, sentValues_cons, sentValues_cons, ih]
      by_cases hp : p.1 = m
      · rw [if_pos hp, hp]
        split <;> rfl
      · rw [if_neg hp]
        by_cases hm : m = lowerName name
        · rw [if_pos hm, if_pos hm, if_neg (hm ▸ hp), if_neg (hm ▸ hp)]
        · rw [if_neg hm, if_neg hm]

theorem sentValues_eq_nil_iff {headers : Record} {name : String} :
    sentValues headers name = [] ↔ (headers.any (·.1 = lowerName name)) = false := by
  unfold sentValues
  rw [List.map_eq_nil_iff, List.filter_eq_nil_iff, List.any_eq_false]

/-- A name that is appended gets one more value, and no other name does. -/
theorem sentValues_append (headers : Record) (a v name : String) :
    sentValues (headers.append a v) name =
      if lowerName a = lowerName name then
        match sentValues headers name with
        | [] => [v]
        | vs => vs.map (· ++ ", " ++ v)
      else sentValues headers name := by
  unfold Record.append
  by_cases hany : (headers.any (·.1 = lowerName a)) = true
  · rw [if_pos hany, sentValues_map headers (lowerName a) (· ++ ", " ++ v) name]
    split
    · next ha =>
      rw [ha] at hany
      split
      · next hnil =>
        rw [sentValues_eq_nil_iff, hany] at hnil
        cases hnil
      · rfl
    · rfl
  · rw [if_neg hany]
    have hconcat : sentValues (headers ++ [(lowerName a, v)]) name =
        sentValues headers name ++ sentValues [(lowerName a, v)] name := by
      unfold sentValues
      rw [List.filter_append, List.map_append]
    rw [hconcat, sentValues_cons]
    by_cases ha : lowerName a = lowerName name
    · rw [Bool.not_eq_true, ha, ← sentValues_eq_nil_iff] at hany
      rw [if_pos ha, if_pos ha, hany]
      rfl
    · rw [if_neg ha, if_neg ha]
      exact List.append_nil _

/-- `fetch` sends for each name the joined values the record has for it. -/
theorem sentValues_headerList (record : Record) (name : String) :
    sentValues (headerList record) name = combine (valuesOf record name) := by
  induction record using List.reverseRecOn with
  | nil => rfl
  | append_singleton record p ih =>
      have hlist : headerList (record ++ [p]) = (headerList record).append p.1 p.2 := by
        unfold headerList
        rw [List.foldl_append]
        rfl
      rw [hlist, sentValues_append, ih]
      have hvalues : valuesOf (record ++ [p]) name = valuesOf record name ++
          if lowerName p.1 = lowerName name then [p.2] else [] := by
        unfold valuesOf
        rw [List.filter_append, List.map_append]
        by_cases hp : lowerName p.1 = lowerName name <;> simp [hp]
      rw [hvalues]
      split
      · cases valuesOf record name with
        | nil => rfl
        | cons v vs =>
            rw [combine_concat]
            rfl
      · rw [List.append_nil]

/-- A joined value is longer than what it was joined from. -/
theorem length_le_foldl (vs : List String) (v : String) :
    v.length ≤ (vs.foldl (fun acc w => acc ++ ", " ++ w) v).length := by
  induction vs generalizing v with
  | nil => exact le_refl _
  | cons w vs ih =>
      refine le_trans ?_ (ih _)
      rw [String.length_append, String.length_append]
      omega

theorem length_lt_foldl {vs : List String} {v w : String} (hvs : vs ≠ []) (h : w ∈ v :: vs) :
    w.length < (vs.foldl (fun acc w => acc ++ ", " ++ w) v).length := by
  induction vs generalizing v with
  | nil => exact absurd rfl hvs
  | cons u vs ih =>
      have hlen : (v ++ ", " ++ u).length = v.length + 2 + u.length := by
        rw [String.length_append, String.length_append]
        rfl
      have hgrow := length_le_foldl vs (v ++ ", " ++ u)
      rw [List.foldl_cons]
      by_cases hnil : vs = []
      · subst hnil
        simp only [List.mem_cons, List.not_mem_nil, or_false] at h
        rcases h with rfl | rfl <;> omega
      · simp only [List.mem_cons] at h
        rcases h with rfl | rfl | h
        · omega
        · omega
        · exact ih hnil (List.mem_cons_of_mem _ h)

/-- So joining shows: one of several values is never sent as it was given. -/
theorem combine_eq_singleton_iff {vs : List String} {v : String} (h : v ∈ vs) :
    combine vs = [v] ↔ vs = [v] := by
  cases vs with
  | nil => cases h
  | cons w vs =>
      by_cases hnil : vs = []
      · subst hnil
        rfl
      · constructor
        · intro heq
          have hlt := length_lt_foldl hnil h
          rw [List.singleton_inj.mp heq] at hlt
          exact absurd hlt (Nat.lt_irrefl _)
        · intro heq
          exact absurd (List.cons.inj heq).2 hnil

/-! ### What a record gives -/

/-- The value a record gives for a name, in any spelling. -/
def given (record : Record) (name : String) : Option String := (valuesOf record name).head?

/-- A record and the values it is meant to give: each is there in some spelling, and
nothing else is. -/
structure Gives (record : Record) (expected : String → Option String) : Prop where
  present : ∀ name v, expected name = some v → ∃ k, lowerName k = lowerName name ∧ (k, v) ∈ record
  absent : ∀ name, expected name = none → ∀ k, k ∈ record.keys → lowerName k ≠ lowerName name

theorem mem_valuesOf {record : Record} {name v : String} :
    v ∈ valuesOf record name ↔ ∃ k, lowerName k = lowerName name ∧ (k, v) ∈ record := by
  unfold valuesOf
  rw [List.mem_map]
  constructor
  · intro h
    obtain ⟨⟨k, w⟩, hp, rfl⟩ := h
    obtain ⟨hmem, hk⟩ := List.mem_filter.mp hp
    exact ⟨k, by simpa using hk, hmem⟩
  · intro ⟨k, hk, hmem⟩
    exact ⟨(k, v), List.mem_filter.mpr ⟨hmem, by simpa using hk⟩, rfl⟩

theorem valuesOf_eq_nil_iff {record : Record} {name : String} :
    valuesOf record name = [] ↔ ∀ k, k ∈ record.keys → lowerName k ≠ lowerName name := by
  rw [List.eq_nil_iff_forall_not_mem]
  constructor
  · intro h k hk heq
    obtain ⟨v, hv⟩ := Props.mem_keys.mp hk
    exact h v (mem_valuesOf.mpr ⟨k, heq, hv⟩)
  · intro h v hv
    obtain ⟨k, heq, hmem⟩ := mem_valuesOf.mp hv
    exact h k (Props.mem_keys_of_mem hmem) heq

theorem gives_given (record : Record) : Gives record (given record) where
  present _ _ h := mem_valuesOf.mp (List.mem_of_mem_head? h)
  absent _ h := valuesOf_eq_nil_iff.mp (List.head?_eq_none_iff.mp h)

/-- The source that is spread last is asked first. -/
theorem Gives.spread {r more : Record} {e e' : String → Option String} (h : Gives r e)
    (h' : Gives more e') (hmore : more.keys.Nodup) :
    Gives (r.spread more) fun name => (e' name).or (e name) where
  present := by
    rw [Record.spread_eq]
    intro name v hv
    cases he' : e' name with
    | some w =>
        rw [he', Option.some_or] at hv
        cases hv
        obtain ⟨k, hk, hmem⟩ := h'.present name v he'
        exact ⟨k, hk, (Props.mem_spread hmore).mpr (.inl hmem)⟩
    | none =>
        rw [he', Option.none_or] at hv
        obtain ⟨k, hk, hmem⟩ := h.present name v hv
        have hnot : k ∉ more.keys := fun hin => h'.absent name he' k hin hk
        exact ⟨k, hk, (Props.mem_spread hmore).mpr (.inr ⟨hnot, hmem⟩)⟩
  absent := by
    rw [Record.spread_eq]
    intro name hnone k hk
    obtain ⟨he', he⟩ := Option.or_eq_none_iff.mp hnone
    obtain ⟨v, hv⟩ := Props.mem_keys.mp hk
    rcases (Props.mem_spread hmore).mp hv with hmem | ⟨-, hmem⟩
    · exact h'.absent name he' k (Props.mem_keys_of_mem hmem)
    · exact h.absent name he k (Props.mem_keys_of_mem hmem)

/-- No two of the names are one header in two spellings. -/
def SpelledOnce (names : List String) : Prop :=
  ∀ a ∈ names, ∀ b ∈ names, lowerName a = lowerName b → a = b

instance : DecidablePred SpelledOnce := fun names =>
  inferInstanceAs (Decidable (∀ a ∈ names, ∀ b ∈ names, lowerName a = lowerName b → a = b))

/-- Names that are distinct and mean the same header are one. -/
theorem length_le_one {ps : Record} (hnd : (ps.map Prod.fst).Nodup)
    (hsame : ∀ p ∈ ps, ∀ q ∈ ps, p.1 = q.1) : ps.length ≤ 1 := by
  match ps with
  | [] => exact Nat.zero_le 1
  | [p] => exact le_refl 1
  | p :: q :: rest =>
      have hpq := hsame p (by simp) q (by simp)
      simp [hpq] at hnd

/-- **Spelling decides.** What the server gets from a record is what the record is meant to
give iff the record spells no header in two ways. -/
theorem Gives.sent_iff {r : Record} {e : String → Option String} (h : Gives r e)
    (hr : r.keys.Nodup) :
    (∀ name, sentValues (headerList r) name = (e name).toList) ↔ SpelledOnce r.keys := by
  constructor
  -- Two spellings would be two values, and the server gets them joined.
  · intro hsent a ha b hb hab
    obtain ⟨va, hva⟩ := Props.mem_keys.mp ha
    obtain ⟨vb, hvb⟩ := Props.mem_keys.mp hb
    cases he : e a with
    | none => exact absurd rfl (h.absent a he a ha)
    | some v =>
        have hone : valuesOf r a = [v] := by
          rw [← combine_eq_singleton_iff (mem_valuesOf.mpr (h.present a v he)),
            ← sentValues_headerList, hsent, he]
          rfl
        obtain ⟨p, hp, -⟩ := List.map_eq_singleton_iff.mp hone
        have hpa : (a, va) ∈ [p] := hp ▸ List.mem_filter.mpr ⟨hva, by simp⟩
        have hpb : (b, vb) ∈ [p] := hp ▸ List.mem_filter.mpr ⟨hvb, by simp [hab]⟩
        rw [List.mem_singleton] at hpa hpb
        exact congrArg Prod.fst (hpa.trans hpb.symm)
  -- One spelling is one value, and one value is not joined with anything.
  · intro hspelled name
    rw [sentValues_headerList]
    cases he : e name with
    | none =>
        rw [valuesOf_eq_nil_iff.mpr (h.absent name he)]
        rfl
    | some v =>
        have hmem : v ∈ valuesOf r name := mem_valuesOf.mpr (h.present name v he)
        refine (combine_eq_singleton_iff hmem).mpr ?_
        have hsub : (r.filter (lowerName ·.1 = lowerName name)).Sublist r := List.filter_sublist
        have hlen : (valuesOf r name).length ≤ 1 := by
          unfold valuesOf
          rw [List.length_map]
          refine length_le_one ((hsub.map Prod.fst).nodup hr) ?_
          intro p hp q hq
          obtain ⟨hpr, hpn⟩ := List.mem_filter.mp hp
          obtain ⟨hqr, hqn⟩ := List.mem_filter.mp hq
          refine hspelled p.1 (Props.mem_keys_of_mem hpr) q.1 (Props.mem_keys_of_mem hqr) ?_
          rw [decide_eq_true_eq] at hpn hqn
          exact hpn.trans hqn.symm
        generalize valuesOf r name = vs at hmem hlen
        match vs with
        | [] => cases hmem
        | [w] => exact congrArg (fun x => [x]) (List.mem_singleton.mp hmem).symm
        | _ :: _ :: _ => simp at hlen

/-! ### The verb methods -/

/-- A call of one of the verb methods. -/
inductive MethodCall (B : Type)
  | get (path : String) (opts : Option HttpCallOpts)
  | post (path : String) (body : B) (opts : Option HttpCallOpts)
  | put (path : String) (body : B) (opts : Option HttpCallOpts)
  | patch (path : String) (body : B) (opts : Option HttpCallOpts)
  | delete (path : String) (opts : Option HttpCallOpts)

namespace MethodCall

variable {B : Type}

/-- The request a call makes. -/
def args (stringify : B → Option String) : MethodCall B → RequestArgs
  | get path opts => AbstractHttpClient.get path opts
  | post path body opts => AbstractHttpClient.post stringify path body opts
  | put path body opts => AbstractHttpClient.put stringify path body opts
  | patch path body opts => AbstractHttpClient.patch stringify path body opts
  | delete path opts => AbstractHttpClient.delete path opts

/-- The headers the caller gives. -/
def callerHeaders : MethodCall B → Record
  | get _ opts | post _ _ opts | put _ _ opts | patch _ _ opts | delete _ opts =>
    (opts.bind (·.headers)).getD []

/-- The header of a JSON body. -/
def jsonHeaders : MethodCall B → Record
  | get .. | delete .. => []
  | post .. | put .. | patch .. =>
    [(AbstractHttpClient.CONTENT_TYPE, AbstractHttpClient.APPLICATION_JSON)]

/-- The header names a call has from its three sources, as they are spelled. -/
def headerNames (auth : Record) (call : MethodCall B) : List String :=
  auth.keys ++ call.jsonHeaders.keys ++ call.callerHeaders.keys

/-- What a header should be: the caller's, or that of the body, or that of the client. -/
def expectedHeader (auth : Record) (call : MethodCall B) (name : String) : Option String :=
  ((given call.callerHeaders name).or (given call.jsonHeaders name)).or (given auth name)

/-- The record `fetch` is called with. -/
def sentHeaders (deps : HttpClientDeps) (auth : Record) (stringify : B → Option String)
    (call : MethodCall B) : Record :=
  (HttpRequestExecutor.finalInit deps auth (call.args stringify)).headers

theorem getD_headers (opts : Option HttpCallOpts) :
    (opts.getD {}).headers.getD [] = (opts.bind (·.headers)).getD [] := by
  cases opts <;> rfl

/-- All verb methods merge alike: the caller's headers come twice. -/
theorem sentHeaders_eq (deps : HttpClientDeps) (auth : Record) (stringify : B → Option String)
    (call : MethodCall B) :
    ∃ init : Record,
      (init = call.callerHeaders ∧ call.jsonHeaders = [] ∨
        init = call.jsonHeaders.spread call.callerHeaders) ∧
      call.sentHeaders deps auth stringify =
        ((Record.spread [] auth).spread init).spread call.callerHeaders := by
  cases call with
  | get path opts | delete path opts =>
      refine ⟨_, .inl ⟨rfl, rfl⟩, ?_⟩
      show ((Record.spread [] auth).spread _).spread ((opts.getD {}).headers.getD []) = _
      rw [getD_headers]
      rfl
  | post path body opts | put path body opts | patch path body opts =>
      refine ⟨_, .inr rfl, ?_⟩
      show ((Record.spread [] auth).spread _).spread ((opts.getD {}).headers.getD []) = _
      rw [getD_headers]
      rfl

theorem nodup_jsonHeaders (call : MethodCall B) : call.jsonHeaders.keys.Nodup := by
  cases call <;> simp [jsonHeaders, Props.keys]

variable {call : MethodCall B} (deps : HttpClientDeps) (auth : Record)
  (stringify : B → Option String)

/-- What the two merges come to. -/
theorem sentHeaders_init (hcaller : call.callerHeaders.keys.Nodup) :
    ∃ init : Record, init.keys.Nodup ∧
      Gives init (fun name => (given call.callerHeaders name).or (given call.jsonHeaders name)) ∧
      (∀ k, k ∈ init.keys ↔ k ∈ call.callerHeaders.keys ∨ k ∈ call.jsonHeaders.keys) ∧
      call.sentHeaders deps auth stringify =
        ((Record.spread [] auth).spread init).spread call.callerHeaders := by
  obtain ⟨init, hinit, heq⟩ := sentHeaders_eq deps auth stringify call
  refine ⟨init, ?_, ?_, ?_, heq⟩
  · rcases hinit with ⟨rfl, -⟩ | rfl
    · exact hcaller
    · exact Props.nodup_keys_spread call.nodup_jsonHeaders _
  · rcases hinit with ⟨rfl, hjson⟩ | rfl
    · rw [hjson]
      have hnil : ∀ name, (given call.callerHeaders name).or (given [] name) =
          given call.callerHeaders name := fun name => Option.or_none
      simp only [hnil]
      exact gives_given _
    · exact (gives_given _).spread (gives_given _) hcaller
  · intro k
    rcases hinit with ⟨rfl, hjson⟩ | rfl
    · rw [hjson]
      simp [Props.keys]
    · exact Props.mem_keys_spread

theorem gives_sentHeaders (hauth : auth.keys.Nodup) (hcaller : call.callerHeaders.keys.Nodup) :
    Gives (call.sentHeaders deps auth stringify) (call.expectedHeader auth) := by
  obtain ⟨init, hnd, hgives, -, heq⟩ := sentHeaders_init deps auth stringify hcaller
  rw [heq]
  have hauth' : Gives (Record.spread [] auth) (given auth) := by
    have h := (gives_given []).spread (gives_given auth) hauth
    have hor : ∀ name, (given auth name).or (given [] name) = given auth name :=
      fun name => Option.or_none
    simpa only [hor] using h
  have hall := (hauth'.spread hgives hnd).spread (gives_given _) hcaller
  -- the caller is asked again, to no effect
  have hor : ∀ name, (given call.callerHeaders name).or
      (((given call.callerHeaders name).or (given call.jsonHeaders name)).or (given auth name)) =
      call.expectedHeader auth name := by
    intro name
    unfold expectedHeader
    cases given call.callerHeaders name <;> rfl
  simpa only [hor] using hall

theorem nodup_sentHeaders (hcaller : call.callerHeaders.keys.Nodup) :
    (call.sentHeaders deps auth stringify).keys.Nodup := by
  obtain ⟨init, -, -, -, heq⟩ := sentHeaders_init deps auth stringify hcaller
  rw [heq]
  refine Props.nodup_keys_spread (Props.nodup_keys_spread ?_ _) _
  exact Props.nodup_keys_spread (r := []) List.nodup_nil _

theorem mem_keys_sentHeaders (hcaller : call.callerHeaders.keys.Nodup) {k : String} :
    k ∈ (call.sentHeaders deps auth stringify).keys ↔ k ∈ call.headerNames auth := by
  obtain ⟨init, hnd, -, hkeys, heq⟩ := sentHeaders_init deps auth stringify hcaller
  rw [heq]
  simp only [Record.spread_eq, Props.mem_keys_spread, hkeys]
  unfold headerNames
  rw [List.mem_append, List.mem_append]
  have hnil : k ∉ Props.keys ([] : Record) := List.not_mem_nil
  tauto

/-- **Header override.** Let no two names of the client's headers, nor of the caller's, be
equal up to case. Then every header reaches the server with exactly one value, the
caller's or else that of the body or else the client's, if and only if the three sources
together spell no header in two ways. -/
theorem override_iff (call : MethodCall B) (hauth : (auth.keys.map lowerName).Nodup)
    (hcaller : (call.callerHeaders.keys.map lowerName).Nodup) :
    (∀ name, sentValues (headerList (call.sentHeaders deps auth stringify)) name =
        (call.expectedHeader auth name).toList) ↔
      SpelledOnce (call.headerNames auth) := by
  have hauth' : auth.keys.Nodup := List.Nodup.of_map lowerName hauth
  have hcaller' : call.callerHeaders.keys.Nodup := List.Nodup.of_map lowerName hcaller
  rw [(gives_sentHeaders deps auth stringify hauth' hcaller').sent_iff
    (nodup_sentHeaders deps auth stringify hcaller')]
  unfold SpelledOnce
  simp only [mem_keys_sentHeaders deps auth stringify hcaller']

/-- A call whose header overrides that of the body, spelled alike. -/
theorem override_iff_textPlain :
    sentValues (headerList (sentHeaders ⟨"https://api", 5000, "Api", ⟨5, 30000, "Api"⟩⟩
        [("API-KEY", "k")] (fun s => some s)
        (.post "/" "text" (some { headers := some [("Content-Type", "text/plain")] }))))
        "content-type" =
      (expectedHeader [("API-KEY", "k")]
        (.post "/" "text" (some { headers := some [("Content-Type", "text/plain")] }))
        "content-type").toList :=
  (override_iff _ _ _ _ (by decide) (by decide)).mpr (by decide) "content-type"

/-- Spelled otherwise it is sent as `application/json, text/plain`. -/
theorem override_respelled :
    ¬ ∀ name, sentValues (headerList (sentHeaders ⟨"https://api", 5000, "Api", ⟨5, 30000, "Api"⟩⟩
        [] (fun s => some s)
        (.post "/" "text" (some { headers := some [("content-type", "text/plain")] })))) name =
      (expectedHeader [] (.post "/" "text"
        (some { headers := some [("content-type", "text/plain")] })) name).toList := by
  intro h
  have hct := h "Content-Type"
  revert hct
  decide

end MethodCall

end EmailPlatform.Http
