import EmailPlatform.Storage.NamespacedStorage
import EmailPlatform.Url.Base

/-!
# EmailPlatform.Storage.PublicAddress

**What a public URL addresses.** `upload` returns a URL with the key of its object as it is.
A filename is sanitised for use in a key, which keeps `?`, `#`, `%`, the dots and the space:
read by the URL parser, these end the path, stand for another character, go up in it or are
left out.
-/

namespace EmailPlatform.Storage

open JsString Url

/-! ### Sanitised texts -/

/-- What becomes of a unit of a filename. -/
def safeUnit (u : UInt16) : UInt16 := if unsafeChar u then replacement else u

/-- What becomes of a character of a filename. -/
def safeChar (c : Char) : Char :=
  if c = '\\' || c = '/' || c.toNat ≤ 0x1F || c.toNat = 0x7F then '_' else c

theorem sanitizeFilename_eq (raw : JsString) :
    sanitizeFilename raw = (raw.take maxLength).map safeUnit := by
  rw [List.map_take]
  show (if (raw.map safeUnit).length > maxLength then (raw.map safeUnit).take maxLength
    else raw.map safeUnit) = _
  split
  · rfl
  · next h => exact (List.take_of_length_le (Nat.not_lt.mp h)).symm

theorem unsafeChar_iff {u : UInt16} :
    unsafeChar u = true ↔
      u.toNat = 0x5C ∨ u.toNat = 0x2F ∨ u.toNat ≤ 0x1F ∨ u.toNat = 0x7F := by
  simp [unsafeChar, ← UInt16.toNat_inj, UInt16.le_iff_toNat_le, or_assoc]

theorem safeUnit_of_isSurrogate {u : UInt16} (h : isSurrogate u = true) : safeUnit u = u := by
  refine if_neg ?_
  rw [isSurrogate_iff] at h
  rw [unsafeChar_iff]
  omega

/-- Surrogates stay, and nothing becomes one. -/
theorem isSurrogate_safeUnit (u : UInt16) : isSurrogate (safeUnit u) = isSurrogate u := by
  cases h : isSurrogate u with
  | true => rw [safeUnit_of_isSurrogate h, h]
  | false =>
      unfold safeUnit
      split
      · rfl
      · exact h

theorem isHigh_safeUnit (u : UInt16) : isHigh (safeUnit u) = isHigh u := by
  cases h : isSurrogate u with
  | true => rw [safeUnit_of_isSurrogate h]
  | false =>
      rw [isHigh_of_not_isSurrogate h,
        isHigh_of_not_isSurrogate ((isSurrogate_safeUnit u).trans h)]

theorem isLow_safeUnit (u : UInt16) : isLow (safeUnit u) = isLow u := by
  cases h : isSurrogate u with
  | true => rw [safeUnit_of_isSurrogate h]
  | false =>
      rw [isLow_of_not_isSurrogate h,
        isLow_of_not_isSurrogate ((isSurrogate_safeUnit u).trans h)]

theorem safeChar_of_le {c : Char} (h : 0x80 ≤ c.toNat) : safeChar c = c := by
  have hback : c ≠ '\\' := by
    intro heq
    subst heq
    revert h
    decide
  have hslash : c ≠ '/' := by
    intro heq
    subst heq
    revert h
    decide
  simp only [safeChar, hback, hslash, decide_false, Bool.false_or, Bool.or_eq_true,
    decide_eq_true_eq]
  exact if_neg (by omega)

theorem ofUnit_safeUnit (u : UInt16) : ofUnit (safeUnit u) = safeChar (ofUnit u) := by
  cases h : isSurrogate u with
  | true =>
      rw [safeUnit_of_isSurrogate h, ofUnit, if_pos h]
      rfl
  | false =>
      have hnat := toNat_ofUnit h
      have hback : ofUnit u = '\\' ↔ u.toNat = 0x5C := by
        rw [← hnat, ← Char.toNat_inj]
        rfl
      have hslash : ofUnit u = '/' ↔ u.toNat = 0x2F := by
        rw [← hnat, ← Char.toNat_inj]
        rfl
      have hunsafe := unsafeChar_iff (u := u)
      unfold safeUnit safeChar
      simp only [hback, hslash, hnat, Bool.or_eq_true, decide_eq_true_eq, or_assoc, ← hunsafe]
      split <;> rfl

theorem ofPair_safeUnit {u v : UInt16} (hu : isHigh u = true) (hv : isLow v = true) :
    ofPair (safeUnit u) (safeUnit v) = safeChar (ofPair u v) := by
  have hle : 0x10000 ≤ (ofPair u v).toNat := by
    by_contra hlt
    have hpair := ofChar_ofPair hu hv
    rw [ofChar, if_pos (by omega)] at hpair
    exact absurd (congrArg List.length hpair) (by simp)
  rw [safeChar_of_le (by omega), safeUnit_of_isSurrogate (by simp [isSurrogate, hu]),
    safeUnit_of_isSurrogate (by simp [isSurrogate, hv])]

/-- The text of a sanitised string is its text, sanitised. -/
theorem chars_map_safeUnit (s : JsString) : chars (s.map safeUnit) = (chars s).map safeChar := by
  induction s using chars.induct with
  | case1 => rfl
  | case2 u => exact congrArg (fun c => [c]) (ofUnit_safeUnit u)
  | case3 u v s hpair ih =>
      obtain ⟨hu, hv⟩ := Bool.and_eq_true_iff.mp hpair
      rw [chars_cons_cons, if_pos hpair, List.map_cons, List.map_cons, chars_cons_cons,
        isHigh_safeUnit, isLow_safeUnit, if_pos hpair, ih, ofPair_safeUnit hu hv, List.map_cons]
  | case4 u v s hpair ih =>
      rw [chars_cons_cons, if_neg hpair, List.map_cons, List.map_cons, chars_cons_cons,
        isHigh_safeUnit, isLow_safeUnit, if_neg hpair, ofUnit_safeUnit, List.map_cons]
      exact congrArg (safeChar (ofUnit u) :: ·) ih

theorem isWellFormed_map_safeUnit (s : JsString) :
    isWellFormed (s.map safeUnit) = isWellFormed s := by
  induction s using chars.induct with
  | case1 => rfl
  | case2 u => exact congrArg not (isSurrogate_safeUnit u)
  | case3 u v s hpair ih =>
      rw [isWellFormed_cons_cons, if_pos hpair, List.map_cons, List.map_cons,
        isWellFormed_cons_cons, isHigh_safeUnit, isLow_safeUnit, if_pos hpair, ih]
  | case4 u v s hpair ih =>
      rw [isWellFormed_cons_cons, if_neg hpair, List.map_cons, List.map_cons,
        isWellFormed_cons_cons, isHigh_safeUnit, isLow_safeUnit, if_neg hpair,
        isSurrogate_safeUnit]
      exact congrArg (!isSurrogate u && ·) ih

/-- Only an unsafe character is replaced. -/
theorem safeChar_cases (c : Char) :
    safeChar c = c ∧ c ≠ '\\' ∧ c ≠ '/' ∧ 0x1F < c.toNat ∨
      safeChar c = '_' ∧ (c = '\\' ∨ c = '/' ∨ c.toNat ≤ 0x1F ∨ c.toNat = 0x7F) := by
  by_cases h : c = '\\' ∨ c = '/' ∨ c.toNat ≤ 0x1F ∨ c.toNat = 0x7F
  · exact .inr ⟨if_pos (by simpa [or_assoc] using h), h⟩
  · refine .inl ⟨if_neg (by simpa [or_assoc] using h), ?_⟩
    simp only [not_or, Nat.not_le] at h
    exact ⟨h.1, h.2.1, h.2.2.1⟩

/-- A safe character other than the replacement comes from itself. -/
theorem safeChar_eq_iff {c x : Char} (hx : safeChar x = x) (hne : x ≠ '_') :
    safeChar c = x ↔ c = x := by
  constructor
  · intro h
    rcases safeChar_cases c with ⟨hc, -⟩ | ⟨hc, -⟩
    · exact hc.symm.trans h
    · exact absurd (h.symm.trans hc) hne
  · intro heq
    subst heq
    exact hx

theorem mem_map_safeChar {cs : List Char} {x : Char} (hx : safeChar x = x) (hne : x ≠ '_') :
    x ∈ cs.map safeChar ↔ x ∈ cs := by
  rw [List.mem_map]
  constructor
  · intro ⟨c, hc, h⟩
    exact (safeChar_eq_iff hx hne).mp h ▸ hc
  · exact fun h => ⟨x, h, hx⟩

theorem map_safeChar_eq_iff {cs ds : List Char} (hds : ∀ d ∈ ds, safeChar d = d ∧ d ≠ '_') :
    cs.map safeChar = ds ↔ cs = ds := by
  induction ds generalizing cs with
  | nil => exact List.map_eq_nil_iff
  | cons d ds ih =>
      obtain ⟨hd, hne⟩ := hds d List.mem_cons_self
      cases cs with
      | nil => simp
      | cons c cs =>
          rw [List.map_cons, List.cons.injEq, List.cons.injEq, safeChar_eq_iff hd hne,
            ih fun x hx => hds x (List.mem_cons_of_mem _ hx)]

theorem isTabOrNewline_safeChar (c : Char) : isTabOrNewline (safeChar c) = false := by
  rcases safeChar_cases c with ⟨hc, -, -, hlt⟩ | ⟨hc, -⟩
  · rw [hc, isTabOrNewline, decide_eq_false_iff_not]
    simp only [List.mem_cons, List.not_mem_nil, or_false]
    omega
  · rw [hc]
    rfl

theorem hexVal?_safeChar (c : Char) : hexVal? (safeChar c) = hexVal? c := by
  rcases safeChar_cases c with ⟨hc, -⟩ | ⟨hc, hunsafe⟩
  · rw [hc]
  · have hnone : hexVal? c = none := by
      by_contra hhex
      rw [← Ne, hexVal?_ne_none_iff] at hhex
      rcases hunsafe with rfl | rfl | hunsafe | hunsafe
      · revert hhex
        decide
      · revert hhex
        decide
      · omega
      · omega
    rw [hc, hnone]
    rfl

theorem escape?_safeChar (c a b : Char) :
    escape? (safeChar c) (safeChar a) (safeChar b) = escape? c a b := by
  have hpercent : safeChar c = '%' ↔ c = '%' := safeChar_eq_iff rfl (by decide)
  simp only [escape?, hpercent, hexVal?_safeChar]

theorem hasEscape_map_safeChar (cs : List Char) : hasEscape (cs.map safeChar) = hasEscape cs := by
  induction cs using hasEscape.induct with
  | case1 c a b cs ih =>
      show ((escape? (safeChar c) (safeChar a) (safeChar b)).isSome ||
        hasEscape ((a :: b :: cs).map safeChar)) = _
      rw [escape?_safeChar, ih]
      rfl
  | case2 cs h =>
    match cs with
    | [] => rfl
    | [_] => rfl
    | [_, _] => rfl
    | c :: a :: b :: cs => exact absurd rfl (h c a b cs)

/-! ### Namespaces and names -/

/-- A namespace without the marks of a URL, and no dot segment. -/
structure PlainNamespace (ns : JsString) : Prop where
  no_mark : ∀ c ∈ chars ns, c ∉ ['/', '?', '#', '%']
  not_dot : chars ns ≠ ['.'] ∧ chars ns ≠ ['.', '.']

/-- The URL parser leaves a plain namespace as it is. -/
structure AddressableNamespace (special : Bool) (ns : JsString) : Prop where
  well_formed : isWellFormed ns = true
  no_newline : ∀ c ∈ chars ns, isTabOrNewline c = false
  no_backslash : special = true → '\\' ∉ chars ns

/-- It leaves a name as it is, once sanitised, at the end of a URL. -/
structure AddressableName (name : JsString) : Prop where
  well_formed : isWellFormed name = true
  no_query : '?' ∉ chars name
  no_fragment : '#' ∉ chars name
  no_escape : hasEscape (chars name) = false
  not_dot : chars name ≠ ['.'] ∧ chars name ≠ ['.', '.']
  no_space : (chars name).getLast? ≠ some ' '

/-- `u.pathname`, with the path of the base removed and percent-decoded, is `/` and the key. -/
def Addresses {A : Type} {parseAuthority : Bool → List Char → Option A}
    (base : Base parseAuthority) (url key : JsString) : Prop :=
  ∃ u rest text, parse parseAuthority (chars url) = some u ∧ u.pathname = base.path ++ rest ∧
    percentDecode rest = utf8Bytes ('/' :: text) ∧ ofChars text = key

/-- A character of a uuid. -/
def IsUuidChar (c : Char) : Prop :=
  (0x30 ≤ c.toNat ∧ c.toNat ≤ 0x39) ∨ (0x61 ≤ c.toNat ∧ c.toNat ≤ 0x66) ∨ c.toNat = 0x2D

/-- The text of a uuid. -/
theorem chars_uuid (uuid : Uuid) :
    isWellFormed uuid.text = true ∧ (chars uuid.text).length = 36 ∧
      ∀ c ∈ chars uuid.text, IsUuidChar c := by
  have hhex : ∀ u ∈ uuid.text, (0x30 ≤ u.toNat ∧ u.toNat ≤ 0x39) ∨
      (0x61 ≤ u.toNat ∧ u.toNat ≤ 0x66) ∨ u.toNat = 0x2D := by
    intro u hu
    have h := uuid.hex u hu
    simp only [UInt16.le_iff_toNat_le, ← UInt16.toNat_inj] at h
    exact h
  have hsur : ∀ u ∈ uuid.text, isSurrogate u = false := by
    intro u hu
    have h := hhex u hu
    rw [← Bool.not_eq_true, isSurrogate_iff]
    omega
  obtain ⟨hwell, hchars⟩ := chars_of_not_isSurrogate hsur
  rw [hchars]
  refine ⟨hwell, by rw [List.length_map, uuid.length], fun c hc => ?_⟩
  obtain ⟨u, hu, rfl⟩ := List.mem_map.mp hc
  unfold IsUuidChar
  rw [toNat_ofUnit (hsur u hu)]
  exact hhex u hu

/-- A text ends in a slash when its string does. -/
theorem getLast?_ofChars {cs : List Char} :
    (ofChars cs).getLast? = some pathSeparator ↔ cs.getLast? = some '/' := by
  rcases List.eq_nil_or_concat cs with rfl | ⟨init, c, rfl⟩
  · simp [ofChars]
  · have hlast : ofChars (init.concat c) = ofChars init ++ ofChar c := by
      rw [List.concat_eq_append, ofChars_append]
      exact congrArg (ofChars init ++ ·) (List.append_nil (ofChar c))
    rw [hlast, List.concat_eq_append, List.getLast?_concat, Option.some_inj]
    rcases ofChar_cases c with ⟨u, hu, hc, rfl⟩ | ⟨u, v, hu, hv, hc, rfl⟩
    · rw [hc, List.getLast?_concat, Option.some_inj, ← UInt16.toNat_inj, ← Char.toNat_inj,
        toNat_ofUnit hu]
      rfl
    · constructor
      · intro h
        rw [hc, List.append_cons, List.getLast?_concat] at h
        rw [Option.some.inj h] at hv
        exact absurd hv (by decide)
      · intro h
        rw [h] at hc
        exact absurd (congrArg List.length hc) (by simp [ofChar])

theorem chars_buildPublicUrl (cs : List Char) (bucket key : JsString) :
    chars (buildPublicUrl (ofChars cs) bucket key) = dropSlash cs ++ '/' :: chars key := by
  have hcons : chars (pathSeparator :: key) = '/' :: chars key := chars_cons key (by decide)
  unfold buildPublicUrl dropSlash
  simp only [getLast?_ofChars]
  split
  · next hlast =>
    obtain ⟨init, rfl⟩ := List.getLast?_eq_some_iff.mp hlast
    have htrim : (ofChars (init ++ ['/'])).dropLast = ofChars init := by
      rw [ofChars_append]
      exact List.dropLast_concat
    rw [htrim, chars_ofChars_append, hcons, List.dropLast_concat]
  · rw [chars_ofChars_append, hcons]

/-! ### Keys as parts of a URL -/

section Key

variable {special : Bool} {ns uuid name : List Char}

/-- A character that neither a uuid nor a separator is comes from the other parts. -/
theorem mem_key {x : Char} (huuid : ∀ c ∈ uuid, IsUuidChar c) (hx : ¬ IsUuidChar x)
    (hne : x ≠ '/') :
    x ∈ ns ++ '/' :: (uuid ++ '/' :: name.map safeChar) ↔ x ∈ ns ∨ x ∈ name.map safeChar := by
  have hnot : x ∉ uuid := fun h => hx (huuid x h)
  simp [hne, hnot]

theorem isSlash_safeChar (special : Bool) (c : Char) : isSlash special (safeChar c) = false := by
  rcases safeChar_cases c with ⟨hc, hback, hslash, -⟩ | ⟨hc, -⟩
  · rw [hc]
    simp [isSlash, hback, hslash]
  · rw [hc]
    cases special <;> rfl

/-- The segments of a key are its parts. -/
theorem splitOnP_key (hns : ∀ c ∈ ns, isSlash special c = false)
    (huuid : ∀ c ∈ uuid, IsUuidChar c) :
    (ns ++ '/' :: (uuid ++ '/' :: name.map safeChar)).splitOnP (isSlash special) =
      [ns, uuid, name.map safeChar] := by
  have hslash : isSlash special '/' = true := by simp [isSlash]
  have huuid : ∀ c ∈ uuid, isSlash special c = false := by
    intro c hc
    have hback : c ≠ '\\' := by
      intro heq
      subst heq
      exact absurd (huuid _ hc) (by simp [IsUuidChar])
    have hsep : c ≠ '/' := by
      intro heq
      subst heq
      exact absurd (huuid _ hc) (by simp [IsUuidChar])
    simp [isSlash, hback, hsep]
  have hname : ∀ c ∈ name.map safeChar, isSlash special c = false := by
    intro c hc
    obtain ⟨x, -, rfl⟩ := List.mem_map.mp hc
    exact isSlash_safeChar special x
  rw [List.splitOnP_append_cons _ _ hslash, List.splitOnP_append_cons _ _ hslash,
    List.splitOnP_eq_singleton hns, List.splitOnP_eq_singleton huuid,
    List.splitOnP_eq_singleton hname]
  rfl

/-- The last character of a key is the name's, or the separator before it. -/
theorem getLast?_key :
    (∀ c ∈ (ns ++ '/' :: (uuid ++ '/' :: name.map safeChar)).getLast?, isC0OrSpace c = false) ↔
      name.getLast? ≠ some ' ' := by
  rcases List.eq_nil_or_concat name with rfl | ⟨init, c, rfl⟩
  · have hkey : ns ++ '/' :: (uuid ++ '/' :: [].map safeChar) = (ns ++ '/' :: uuid) ++ ['/'] := by
      simp
    rw [hkey, List.getLast?_concat]
    simp [isC0OrSpace]
  · have hkey : ns ++ '/' :: (uuid ++ '/' :: (init.concat c).map safeChar) =
        (ns ++ '/' :: (uuid ++ '/' :: init.map safeChar)) ++ [safeChar c] := by
      simp
    rw [hkey, List.getLast?_concat, List.concat_eq_append, List.getLast?_concat]
    have hspace : isC0OrSpace (safeChar c) = false ↔ c ≠ ' ' := by
      have htoNat : c = ' ' ↔ c.toNat = 0x20 := Char.toNat_inj.symm
      rw [Ne, htoNat]
      rcases safeChar_cases c with ⟨hc, -, -, hlt⟩ | ⟨hc, hunsafe⟩
      · rw [hc, isC0OrSpace, decide_eq_false_iff_not]
        omega
      · rw [hc]
        refine iff_of_true rfl ?_
        rcases hunsafe with rfl | rfl | hunsafe | hunsafe
        · decide
        · decide
        · omega
        · omega
    simpa using hspace

theorem newline_key (huuid : ∀ c ∈ uuid, IsUuidChar c) :
    (∀ c ∈ ns ++ '/' :: (uuid ++ '/' :: name.map safeChar), isTabOrNewline c = false) ↔
      ∀ c ∈ ns, isTabOrNewline c = false := by
  refine ⟨fun h c hc => h c (List.mem_append_left _ hc), fun h c hc => ?_⟩
  by_contra htab
  have hnot : ¬ IsUuidChar c := by
    intro huuid
    unfold IsUuidChar at huuid
    simp [isTabOrNewline] at htab
    omega
  have hne : c ≠ '/' := by
    intro heq
    subst heq
    exact htab rfl
  rcases (mem_key huuid hnot hne).mp hc with hmem | hmem
  · exact htab (h c hmem)
  · obtain ⟨x, -, rfl⟩ := List.mem_map.mp hmem
    exact htab (isTabOrNewline_safeChar x)

theorem backslash_key (huuid : ∀ c ∈ uuid, IsUuidChar c) :
    '\\' ∈ ns ++ '/' :: (uuid ++ '/' :: name.map safeChar) ↔ '\\' ∈ ns := by
  have hnot : '\\' ∉ name.map safeChar := by
    intro h
    obtain ⟨c, -, hc⟩ := List.mem_map.mp h
    have hslash := isSlash_safeChar true c
    rw [hc] at hslash
    cases hslash
  rw [mem_key huuid (by simp [IsUuidChar]) (by decide)]
  exact or_iff_left hnot

/-- Of the parts of a key only the name can be a dot segment or have an escape. -/
theorem segment_key (hns : ∀ c ∈ ns, isSlash special c = false) (hpercent : '%' ∉ ns)
    (hdot : ns ≠ ['.'] ∧ ns ≠ ['.', '.']) (huuid : ∀ c ∈ uuid, IsUuidChar c)
    (hlen : uuid.length = 36) :
    (∀ seg ∈ (ns ++ '/' :: (uuid ++ '/' :: name.map safeChar)).splitOnP (isSlash special),
        hasEscape seg = false ∧ seg ≠ ['.'] ∧ seg ≠ ['.', '.']) ↔
      hasEscape name = false ∧ name ≠ ['.'] ∧ name ≠ ['.', '.'] := by
  have hname : ∀ ds ∈ [['.'], ['.', '.']], name.map safeChar = ds ↔ name = ds := by
    intro ds hds
    refine map_safeChar_eq_iff fun d hd => ?_
    have hd : d = '.' := by
      simp only [List.mem_cons, List.not_mem_nil, or_false] at hds
      rcases hds with rfl | rfl <;> simpa using hd
    rw [hd]
    decide
  have hns' : hasEscape ns = false ∧ ns ≠ ['.'] ∧ ns ≠ ['.', '.'] :=
    ⟨hasEscape_of_notMem hpercent, hdot⟩
  have huuid' : hasEscape uuid = false ∧ uuid ≠ ['.'] ∧ uuid ≠ ['.', '.'] := by
    refine ⟨hasEscape_of_notMem fun h => ?_, ?_, ?_⟩
    · exact absurd (huuid _ h) (by simp [IsUuidChar])
    · intro heq
      subst heq
      cases hlen
    · intro heq
      subst heq
      cases hlen
  rw [splitOnP_key hns huuid, List.forall_mem_cons, List.forall_mem_cons, List.forall_mem_singleton,
    and_iff_right hns', and_iff_right huuid', hasEscape_map_safeChar, Ne, Ne, hname _ (by decide),
    hname _ (by decide)]

/-- A key is read as it stands when its namespace and its name are. -/
theorem verbatim_key_iff (hns : ∀ c ∈ ns, c ∉ ['/', '?', '#', '%'])
    (hdot : ns ≠ ['.'] ∧ ns ≠ ['.', '.']) (huuid : ∀ c ∈ uuid, IsUuidChar c)
    (hlen : uuid.length = 36) :
    Verbatim special (ns ++ '/' :: (uuid ++ '/' :: name.map safeChar)) ↔
      ((∀ c ∈ ns, isTabOrNewline c = false) ∧ (special = true → '\\' ∉ ns)) ∧
        '?' ∉ name ∧ '#' ∉ name ∧ hasEscape name = false ∧
        (name ≠ ['.'] ∧ name ≠ ['.', '.']) ∧ name.getLast? ≠ some ' ' := by
  have hnot : ∀ x ∈ ['/', '?', '#', '%'], x ∉ ns := fun x hx hmem => hns x hmem hx
  -- The namespace and the uuid have no marks, and `safeChar` keeps those of the name.
  have hmark : ∀ x ∈ ['?', '#'],
      x ∈ ns ++ '/' :: (uuid ++ '/' :: name.map safeChar) ↔ x ∈ name := by
    intro x hx
    have hsafe : safeChar x = x ∧ x ≠ '_' ∧ x ≠ '/' ∧ x ∈ ['/', '?', '#', '%'] := by
      revert x
      exact List.all_iff_forall_prop.mp (by decide)
    have huuid' : ¬ IsUuidChar x := by
      revert x
      simp [IsUuidChar]
    rw [mem_key huuid huuid' hsafe.2.2.1, mem_map_safeChar hsafe.1 hsafe.2.1]
    exact or_iff_right (hnot x hsafe.2.2.2)
  -- Without a backslash the namespace is one segment.
  have hslash : (special = true → '\\' ∉ ns) → ∀ c ∈ ns, isSlash special c = false := by
    intro hspecial c hc
    have hsep : c ≠ '/' := fun h => hnot _ (by decide) (h ▸ hc)
    cases hs : special with
    | false => simp [isSlash, hsep]
    | true =>
        have hback : c ≠ '\\' := fun h => hspecial hs (h ▸ hc)
        simp [isSlash, hsep, hback]
  constructor
  · intro h
    have hspecial : special = true → '\\' ∉ ns := fun hs =>
      (backslash_key huuid).not.mp (h.no_backslash hs)
    obtain ⟨hesc, hne⟩ :=
      (segment_key (hslash hspecial) (hnot _ (by decide)) hdot huuid hlen).mp h.segment
    exact ⟨⟨(newline_key huuid).mp h.no_newline, hspecial⟩,
      (hmark '?' (by decide)).not.mp h.no_query,
      (hmark '#' (by decide)).not.mp h.no_fragment, hesc, hne, getLast?_key.mp h.no_space⟩
  · intro h
    obtain ⟨⟨htab, hspecial⟩, hquery, hfragment, hesc, hne, hspace⟩ := h
    exact ⟨getLast?_key.mpr hspace, (newline_key huuid).mpr htab,
      (hmark '?' (by decide)).not.mpr hquery, (hmark '#' (by decide)).not.mpr hfragment,
      fun hs => (backslash_key huuid).not.mpr (hspecial hs),
      (segment_key (hslash hspecial) (hnot _ (by decide)) hdot huuid hlen).mpr ⟨hesc, hne⟩⟩

end Key

theorem addresses_iff_verbatim {A : Type} {parseAuthority : Bool → List Char → Option A}
    (base : Base parseAuthority) (bucket key : JsString) :
    Addresses base (buildPublicUrl (ofChars base.text) bucket key) key ↔
      isWellFormed key = true ∧ Verbatim base.record.isSpecial (chars key) := by
  rw [← base.addresses_iff]
  unfold Addresses
  rw [chars_buildPublicUrl]
  constructor
  · intro h
    obtain ⟨u, rest, text, hparse, hpath, hdecode, rfl⟩ := h
    rw [chars_ofChars] at hparse ⊢
    exact ⟨isWellFormed_ofChars text, u, rest, hparse, hpath, hdecode⟩
  · intro ⟨hwell, u, rest, hparse, hpath, hdecode⟩
    exact ⟨u, rest, chars key, hparse, hpath, hdecode, ofChars_chars hwell⟩

/-- The parts of a key, as text. -/
theorem chars_key (call : UploadCall) :
    isWellFormed call.key = (isWellFormed call.service.ns &&
        isWellFormed (call.filename.take maxLength)) ∧
      chars call.key = chars call.service.ns ++ '/' :: (chars call.uuid.text ++
        '/' :: (chars (call.filename.take maxLength)).map safeChar) := by
  have hsep : isSurrogate pathSeparator = false := by decide
  have hslash : ofUnit pathSeparator = '/' := by decide
  unfold UploadCall.key objectKey
  rw [isWellFormed_append_cons hsep, isWellFormed_append_cons hsep, chars_append_cons hsep,
    chars_append_cons hsep, hslash, (chars_uuid call.uuid).1, Bool.true_and, sanitizeFilename_eq,
    isWellFormed_map_safeUnit, chars_map_safeUnit]
  exact ⟨rfl, rfl⟩

/-- **The returned URL addresses the stored object** exactly when the URL parser leaves the
namespace and the filename, up to its 255th unit, as they are. -/
theorem upload_addresses_iff {A : Type} {parseAuthority : Bool → List Char → Option A}
    (base : Base parseAuthority) (call : UploadCall)
    (hbase : call.service.publicUrlBase = ofChars base.text)
    (hns : PlainNamespace call.service.ns) :
    Addresses base call.url call.key ↔
      AddressableNamespace base.record.isSpecial call.service.ns ∧
        AddressableName (call.filename.take maxLength) := by
  obtain ⟨hwell, hchars⟩ := chars_key call
  obtain ⟨-, hlen, huuid⟩ := chars_uuid call.uuid
  rw [UploadCall.url, hbase, addresses_iff_verbatim, hwell, hchars, Bool.and_eq_true,
    verbatim_key_iff hns.no_mark hns.not_dot huuid hlen]
  constructor
  · intro ⟨⟨hns, hname⟩, ⟨htab, hback⟩, hquery, hfragment, hesc, hdot, hspace⟩
    exact ⟨⟨hns, htab, hback⟩, hname, hquery, hfragment, hesc, hdot, hspace⟩
  · intro ⟨hns, hname⟩
    exact ⟨⟨hns.well_formed, hname.well_formed⟩, ⟨hns.no_newline, hns.no_backslash⟩,
      hname.no_query, hname.no_fragment, hname.no_escape, hname.not_dot, hname.no_space⟩

/-- The host of an authority that is a plain domain. -/
def domain? (_special : Bool) (cs : List Char) : Option (List Char) :=
  if cs ≠ [] ∧ cs.all (fun c => c.isAlphanum || c = '-' || c = '.') then some (cs.map Char.toLower)
  else none

/-- A base URL with one slash at its end. -/
def publicBase : Base domain? where
  text := "https://public.example/".toList
  plain := List.all_iff_forall_prop.mp (by decide)
  one_slash := by decide
  record := ⟨"https".toList, "public.example".toList, [[]], none, none⟩
  parses := rfl
  query := rfl
  fragment := rfl

/-- An upload of a report under that base. -/
def weeklyCall (filename : String) : UploadCall where
  service :=
    ⟨.ofString "reports", .ofString "application/pdf", .ofString "https://public.example/", 2⟩
  filename := .ofString filename
  uuid := ⟨.ofString "550e8400-e29b-41d4-a716-446655440000",
    List.all_iff_forall_prop.mp (by decide), by decide⟩

theorem upload_addresses_iff_weekly :
    Addresses publicBase (weeklyCall "weekly 100%.pdf").url (weeklyCall "weekly 100%.pdf").key :=
  (upload_addresses_iff publicBase (weeklyCall "weekly 100%.pdf") rfl
    ⟨List.all_iff_forall_prop.mp (by decide), by decide⟩).mpr
    ⟨⟨by decide, List.all_iff_forall_prop.mp (by decide), by decide⟩,
      ⟨by decide, by decide, by decide, by decide, by decide, by decide⟩⟩

/-- A question mark ends the path within the filename. -/
theorem not_addresses_question_mark :
    (weeklyCall "weekly?.pdf").service.publicUrlBase = ofChars publicBase.text ∧
      PlainNamespace (weeklyCall "weekly?.pdf").service.ns ∧
      ¬ Addresses publicBase (weeklyCall "weekly?.pdf").url (weeklyCall "weekly?.pdf").key := by
  refine ⟨rfl, ⟨List.all_iff_forall_prop.mp (by decide), by decide⟩, fun h => ?_⟩
  have hverbatim := ((addresses_iff_verbatim publicBase publicBucket _).mp h).2
  exact hverbatim.no_query (by decide)

end EmailPlatform.Storage
