import EmailPlatform.Js.Utf8
import EmailPlatform.Url.Parse

/-!
# EmailPlatform.Url.Form

**Form data in a query** (`application/x-www-form-urlencoded`, which `URLSearchParams` writes):
names and values joined by `=` and `&`. Nothing of a name or a value is written as one of these
marks, so the parser finds the pairs again, and a text decodes to itself
(`formParse_formSerialize`).
-/

namespace EmailPlatform.Url

/-- The characters that stay as they are. -/
def isFormSafe (c : Char) : Bool := c.isAlphanum || c ∈ ['*', '-', '.', '_']

/-- A character of a name or a value: a space is a plus sign. -/
def formEncodeChar (c : Char) : List Char :=
  if isFormSafe c then [c] else if c = ' ' then ['+'] else (utf8 c).flatMap percentByte

/-- A name or a value. -/
def formEncode (cs : List Char) : List Char := cs.flatMap formEncodeChar

/-- `name=value` -/
def formPair (p : List Char × List Char) : List Char := formEncode p.1 ++ '=' :: formEncode p.2

/-- The serializer. -/
def formSerialize (pairs : List (List Char × List Char)) : List Char :=
  ['&'].intercalate (pairs.map formPair)

/-- Back from the plus sign. -/
def plusToSpace (c : Char) : Char := if c = '+' then ' ' else c

/-- The text that a name or a value stands for, if its bytes are UTF-8. -/
def formDecode (cs : List Char) : Option (List Char) :=
  decodeUtf8 (percentDecode (cs.map plusToSpace))

/-- A pair; a piece without `=` is a name. -/
def parsePair (piece : List Char) : Option (List Char × List Char) := do
  let name ← formDecode (cutAt '=' piece).1
  let value ← formDecode ((cutAt '=' piece).2.getD [])
  some (name, value)

/-- The parser. -/
def formParse (cs : List Char) : Option (List (List Char × List Char)) :=
  ((cs.splitOn '&').filter (· ≠ [])).mapM parsePair

/-! ### What is written -/

/-- A character of what the serializer writes for a name or a value. -/
def IsFormChar (c : Char) : Prop := isFormSafe c = true ∨ c = '+' ∨ c = '%'

theorem isFormSafe_hexDigit : ∀ n < 16, isFormSafe (hexDigit n) = true := by decide

theorem isFormChar_percentByte {b : UInt8} {c : Char} (hc : c ∈ percentByte b) : IsFormChar c := by
  have hlt : b.toNat < 256 := b.toNat_lt
  rw [percentByte, List.mem_cons, List.mem_cons, List.mem_singleton] at hc
  rcases hc with rfl | rfl | rfl
  · exact .inr (.inr rfl)
  · exact .inl (isFormSafe_hexDigit _ (by omega))
  · exact .inl (isFormSafe_hexDigit _ (by omega))

theorem formEncodeChar_cases (c : Char) :
    (isFormSafe c = true ∧ formEncodeChar c = [c]) ∨ (c = ' ' ∧ formEncodeChar c = ['+']) ∨
      formEncodeChar c = (utf8 c).flatMap percentByte := by
  unfold formEncodeChar
  split
  · next hsafe => exact .inl ⟨hsafe, rfl⟩
  · split
    · next hspace => exact .inr (.inl ⟨hspace, rfl⟩)
    · exact .inr (.inr rfl)

theorem isFormChar_formEncode {cs : List Char} {c : Char} (hc : c ∈ formEncode cs) :
    IsFormChar c := by
  obtain ⟨d, -, hd⟩ := List.mem_flatMap.mp hc
  rcases formEncodeChar_cases d with ⟨hsafe, heq⟩ | ⟨-, heq⟩ | heq <;> rw [heq] at hd
  · rw [List.mem_singleton.mp hd]
    exact .inl hsafe
  · exact .inr (.inl (List.mem_singleton.mp hd))
  · obtain ⟨b, -, hb⟩ := List.mem_flatMap.mp hd
    exact isFormChar_percentByte hb

/-- A mark is no part of a name or a value. -/
theorem notMem_formEncode {c : Char} (hc : ¬ IsFormChar c) (cs : List Char) : c ∉ formEncode cs :=
  fun hmem => hc (isFormChar_formEncode hmem)

theorem not_isFormChar_ampersand : ¬ IsFormChar '&' := by
  unfold IsFormChar
  decide

theorem not_isFormChar_equals : ¬ IsFormChar '=' := by
  unfold IsFormChar
  decide

/-! ### Names and values -/

theorem plusToSpace_of_ne {c : Char} (h : c ≠ '+') : plusToSpace c = c := if_neg h

theorem map_plusToSpace_percentBytes (bs : List UInt8) :
    (bs.flatMap percentByte).map plusToSpace = bs.flatMap percentByte := by
  refine (List.map_congr_left fun c hc => ?_).trans (List.map_id _)
  refine plusToSpace_of_ne fun heq => ?_
  obtain ⟨b, -, hb⟩ := List.mem_flatMap.mp hc
  have hlt : b.toNat < 256 := b.toNat_lt
  have hdigit : ∀ n < 16, hexDigit n ≠ '+' := by decide
  rw [percentByte, List.mem_cons, List.mem_cons, List.mem_singleton] at hb
  rcases hb with h | h | h
  · rw [heq] at h
    exact absurd h (by decide)
  · exact hdigit _ (by omega) (h.symm.trans heq)
  · exact hdigit _ (by omega) (h.symm.trans heq)

theorem percentDecode_formEncode (cs : List Char) :
    percentDecode ((formEncode cs).map plusToSpace) = utf8Bytes cs := by
  induction cs with
  | nil => rfl
  | cons c cs ih =>
      have hsplit : formEncode (c :: cs) = formEncodeChar c ++ formEncode cs := rfl
      have hbytes : utf8Bytes (c :: cs) = utf8 c ++ utf8Bytes cs := rfl
      rw [hsplit, hbytes, List.map_append]
      rcases formEncodeChar_cases c with ⟨hsafe, heq⟩ | ⟨rfl, heq⟩ | heq <;> rw [heq]
      · have hplus : c ≠ '+' := by
          rintro rfl
          exact absurd hsafe (by decide)
        have hpercent : c ≠ '%' := by
          rintro rfl
          exact absurd hsafe (by decide)
        rw [List.map_singleton, plusToSpace_of_ne hplus, List.singleton_append,
          percentDecode_cons_of_ne hpercent, ih]
      · rw [List.map_singleton, List.singleton_append, plusToSpace, if_pos rfl,
          percentDecode_cons_of_ne (by decide), ih]
      · rw [map_plusToSpace_percentBytes, percentDecode_percentBytes, ih]

theorem formDecode_formEncode (cs : List Char) : formDecode (formEncode cs) = some cs := by
  rw [formDecode, percentDecode_formEncode, decodeUtf8_utf8Bytes]

/-! ### Pairs -/

theorem cutAt_append_cons {c : Char} {cs : List Char} (hcs : c ∉ cs) (ds : List Char) :
    cutAt c (cs ++ c :: ds) = (cs, some ds) := by
  have hne : ∀ d ∈ cs, decide (d ≠ c) = true := fun d hd =>
    decide_eq_true fun heq => hcs (heq ▸ hd)
  rw [cutAt, List.takeWhile_append_of_pos hne, List.dropWhile_append_of_pos hne]
  simp

theorem parsePair_formPair (p : List Char × List Char) : parsePair (formPair p) = some p := by
  have hcut : cutAt '=' (formPair p) = (formEncode p.1, some (formEncode p.2)) :=
    cutAt_append_cons (notMem_formEncode not_isFormChar_equals _) _
  simp [parsePair, hcut, formDecode_formEncode]

theorem mem_formPair {p : List Char × List Char} {c : Char} (hc : c ∈ formPair p) :
    IsFormChar c ∨ c = '=' := by
  rw [formPair, List.mem_append, List.mem_cons] at hc
  rcases hc with hmem | heq | hmem
  · exact .inl (isFormChar_formEncode hmem)
  · exact .inr heq
  · exact .inl (isFormChar_formEncode hmem)

theorem ampersand_notMem_formPair (p : List Char × List Char) : '&' ∉ formPair p := by
  intro hmem
  rcases mem_formPair hmem with hform | heq
  · exact not_isFormChar_ampersand hform
  · exact absurd heq (by decide)

/-- **What is written is read.** -/
theorem formParse_formSerialize (pairs : List (List Char × List Char)) :
    formParse (formSerialize pairs) = some pairs := by
  have hread : (pairs.map formPair).mapM parsePair = some pairs := by
    induction pairs with
    | nil => rfl
    | cons p pairs ih => simp [parsePair_formPair, ih]
  have hfilter : (pairs.map formPair).filter (· ≠ []) = pairs.map formPair := by
    refine List.filter_eq_self.mpr fun piece hpiece => ?_
    obtain ⟨p, -, rfl⟩ := List.mem_map.mp hpiece
    simp [formPair]
  cases pairs with
  | nil => rfl
  | cons pair pairs =>
      have hsplit : (formSerialize (pair :: pairs)).splitOn '&' = (pair :: pairs).map formPair := by
        refine List.splitOn_intercalate '&' (fun piece hpiece => ?_) (by simp)
        obtain ⟨p, -, rfl⟩ := List.mem_map.mp hpiece
        exact ampersand_notMem_formPair p
      rw [formParse, hsplit, hfilter, hread]

theorem formSerialize_cons_cons (p q : List Char × List Char) (ps : List (List Char × List Char)) :
    formSerialize (p :: q :: ps) = formPair p ++ '&' :: formSerialize (q :: ps) := by
  simp [formSerialize, List.intercalate]

/-- A character of a serialized form. -/
theorem mem_formSerialize {pairs : List (List Char × List Char)} {c : Char}
    (hc : c ∈ formSerialize pairs) : IsFormChar c ∨ c = '=' ∨ c = '&' := by
  induction pairs with
  | nil => simp [formSerialize, List.intercalate] at hc
  | cons p pairs ih =>
      cases pairs with
      | nil =>
          have hp : c ∈ formPair p := by simpa [formSerialize, List.intercalate] using hc
          exact (mem_formPair hp).imp_right .inl
      | cons q pairs =>
          rw [formSerialize_cons_cons, List.mem_append, List.mem_cons] at hc
          rcases hc with hp | heq | hrest
          · exact (mem_formPair hp).imp_right .inl
          · exact .inr (.inr heq)
          · exact ih hrest

end EmailPlatform.Url
