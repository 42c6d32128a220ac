import Mathlib.Data.List.Basic
import Mathlib.Tactic.Common

/-!
# EmailPlatform.Url.Percent

**Percent-encoding in URL paths.** A path is encoded character by character, by the UTF-8
bytes of the characters in the path percent-encode set; `%` is not in that set, so a text
that already looks encoded stays as it is. Decoding reads every `%` before two hexadecimal
digits as a byte.

Decoding what was encoded is therefore decoding the text itself
(`percentDecode_percentEncode`), which gives the text back exactly when it has no escape
(`hasEscape_eq_false_iff`), and something shorter otherwise.
-/

namespace EmailPlatform.Url

/-- The UTF-8 bytes of a character. -/
abbrev utf8 (c : Char) : List UInt8 := String.utf8EncodeChar c

/-- The UTF-8 bytes of a text. -/
def utf8Bytes (cs : List Char) : List UInt8 := cs.flatMap utf8

/-- The value of a hexadecimal digit. -/
def hexVal? (c : Char) : Option Nat :=
  if 0x30 ≤ c.toNat ∧ c.toNat ≤ 0x39 then some (c.toNat - 0x30)
  else if 0x41 ≤ c.toNat ∧ c.toNat ≤ 0x46 then some (c.toNat - 0x37)
  else if 0x61 ≤ c.toNat ∧ c.toNat ≤ 0x66 then some (c.toNat - 0x57)
  else none

/-- The upper-case hexadecimal digit of a value below 16. -/
def hexDigit (n : Nat) : Char := Char.ofNat (if n < 10 then 0x30 + n else 0x37 + n)

/-- Percent-encode a byte. -/
def percentByte (b : UInt8) : List Char :=
  ['%', hexDigit (b.toNat / 16), hexDigit (b.toNat % 16)]

/-- The path percent-encode set: the C0 controls, what is above U+007E, and the space and
nine marks. -/
def inPathSet (c : Char) : Bool :=
  c.toNat ≤ 0x20 || 0x7E < c.toNat ||
    c.toNat ∈ [0x22, 0x23, 0x3C, 0x3E, 0x3F, 0x5E, 0x60, 0x7B, 0x7D]

/-- UTF-8 percent-encode a character of a path. -/
def encodeChar (c : Char) : List Char :=
  if inPathSet c then (utf8 c).flatMap percentByte else [c]

/-- UTF-8 percent-encode a segment of a path. -/
def percentEncode (cs : List Char) : List Char := cs.flatMap encodeChar

/-- The byte that three characters stand for, when they are an escape. -/
def escape? (c a b : Char) : Option UInt8 :=
  if c = '%' then
    match hexVal? a, hexVal? b with
    | some x, some y => some (.ofNat (16 * x + y))
    | _, _ => none
  else none

/-- String percent-decoding. -/
def percentDecode : List Char → List UInt8
  | c :: a :: b :: cs =>
    match escape? c a b with
    | some byte => byte :: percentDecode cs
    | none => utf8 c ++ percentDecode (a :: b :: cs)
  | [c, a] => utf8 c ++ utf8 a
  | [c] => utf8 c
  | [] => []

/-- Some `%` stands before two hexadecimal digits. -/
def hasEscape : List Char → Bool
  | c :: a :: b :: cs => (escape? c a b).isSome || hasEscape (a :: b :: cs)
  | _ => false

/-! ### Decoding -/

theorem length_utf8Bytes_cons (c : Char) (cs : List Char) :
    (utf8Bytes (c :: cs)).length = (utf8 c).length + (utf8Bytes cs).length :=
  List.length_append

theorem utf8Bytes_injective {cs ds : List Char} (h : utf8Bytes cs = utf8Bytes ds) : cs = ds := by
  refine String.ofList_injective (String.toByteArray_inj.mp ?_)
  exact congrArg List.toByteArray h

theorem utf8_length_pos (c : Char) : 0 < (utf8 c).length := by
  rw [String.length_utf8EncodeChar]
  exact c.utf8Size_pos

theorem utf8_of_lt {c : Char} (h : c.toNat < 0x80) : utf8 c = [.ofNat c.toNat] := by
  have hsize : c.utf8Size = 1 := by
    rw [Char.utf8Size_eq_one_iff, UInt32.le_iff_toNat_le]
    exact Nat.le_of_lt_succ h
  exact String.utf8EncodeChar_eq_singleton hsize

theorem escape?_eq_some {c a b : Char} {byte : UInt8} (h : escape? c a b = some byte) :
    c = '%' ∧ hexVal? a ≠ none ∧ hexVal? b ≠ none := by
  unfold escape? at h
  split at h
  · next hc =>
    split at h
    · next x y ha hb => exact ⟨hc, by rw [ha]; simp, by rw [hb]; simp⟩
    · cases h
  · cases h

/-- A character that begins no escape stands for itself. -/
theorem percentDecode_cons {c : Char} {cs : List Char}
    (h : ∀ a b ds, cs = a :: b :: ds → escape? c a b = none) :
    percentDecode (c :: cs) = utf8 c ++ percentDecode cs := by
  match cs with
  | [] => exact (List.append_nil _).symm
  | [a] => rfl
  | a :: b :: ds => rw [percentDecode, h a b ds rfl]

theorem percentDecode_cons_of_ne {c : Char} (h : c ≠ '%') (cs : List Char) :
    percentDecode (c :: cs) = utf8 c ++ percentDecode cs :=
  percentDecode_cons fun _ _ _ _ => if_neg h

theorem percentDecode_escape {c a b : Char} {byte : UInt8} (h : escape? c a b = some byte)
    (cs : List Char) : percentDecode (c :: a :: b :: cs) = byte :: percentDecode cs := by
  rw [percentDecode, h]

/-- Texts are decoded apart where the second does not complete an escape of the first. -/
theorem percentDecode_append (cs : List Char) {ds : List Char}
    (h : ∀ d ∈ ds.head?, hexVal? d = none) :
    percentDecode (cs ++ ds) = percentDecode cs ++ percentDecode ds := by
  have hone : ∀ c, percentDecode (c :: ds) = utf8 c ++ percentDecode ds := by
    refine fun c => percentDecode_cons ?_
    intro a b r heq₂
    subst heq₂
    cases hesc : escape? c a b with
    | none => rfl
    | some byte => exact absurd (h a rfl) (escape?_eq_some hesc).2.1
  induction cs using percentDecode.induct with
  | case1 c a b cs byte hesc ih =>
      show percentDecode (c :: a :: b :: (cs ++ ds)) = _
      rw [percentDecode_escape hesc, percentDecode_escape hesc, ih]
      rfl
  | case2 c a b cs hesc ih =>
      show percentDecode (c :: a :: b :: (cs ++ ds)) = _
      rw [percentDecode, percentDecode, hesc, List.append_assoc]
      exact congrArg (utf8 c ++ ·) ih
  | case3 c a =>
      show percentDecode (c :: a :: ds) = (utf8 c ++ utf8 a) ++ percentDecode ds
      rw [percentDecode_cons, hone, List.append_assoc]
      intro x b r heq
      obtain ⟨rfl, rfl⟩ := List.cons.inj heq
      cases hesc : escape? c a b with
      | none => rfl
      | some byte => exact absurd (h b rfl) (escape?_eq_some hesc).2.2
  | case4 c => exact hone c
  | case5 => rfl

/-! ### Decoding what was encoded -/

theorem hexVal?_hexDigit : ∀ n < 16, hexVal? (hexDigit n) = some n := by decide

theorem percentDecode_percentByte (b : UInt8) (cs : List Char) :
    percentDecode (percentByte b ++ cs) = b :: percentDecode cs := by
  have hb : b.toNat < 256 := b.toNat_lt
  refine percentDecode_escape ?_ cs
  have hsum : 16 * (b.toNat / 16) + b.toNat % 16 = b.toNat := by omega
  rw [escape?, if_pos rfl, hexVal?_hexDigit _ (by omega), hexVal?_hexDigit _ (by omega)]
  show some (UInt8.ofNat (16 * (b.toNat / 16) + b.toNat % 16)) = some b
  rw [hsum, UInt8.ofNat_toNat]

theorem percentDecode_percentBytes (bs : List UInt8) (cs : List Char) :
    percentDecode (bs.flatMap percentByte ++ cs) = bs ++ percentDecode cs := by
  induction bs with
  | nil => rfl
  | cons b bs ih =>
      rw [List.flatMap_cons, List.append_assoc, percentDecode_percentByte, ih]
      rfl

theorem hexVal?_ne_none_iff {c : Char} : hexVal? c ≠ none ↔
    (0x30 ≤ c.toNat ∧ c.toNat ≤ 0x39) ∨ (0x41 ≤ c.toNat ∧ c.toNat ≤ 0x46) ∨
      (0x61 ≤ c.toNat ∧ c.toNat ≤ 0x66) := by
  unfold hexVal?
  split
  · simp_all
  · split
    · simp_all
    · split
      · simp_all
      · simp only [ne_eq, not_true_eq_false, false_iff]
        omega

/-- Hexadecimal digits are not encoded. -/
theorem inPathSet_of_hexVal? {c : Char} (h : hexVal? c ≠ none) : inPathSet c = false := by
  rw [hexVal?_ne_none_iff] at h
  unfold inPathSet
  rw [Bool.or_eq_false_iff, Bool.or_eq_false_iff, decide_eq_false_iff_not,
    decide_eq_false_iff_not, decide_eq_false_iff_not]
  simp only [List.mem_cons, List.not_mem_nil, or_false]
  omega

theorem encodeChar_of_not_inPathSet {c : Char} (h : inPathSet c = false) : encodeChar c = [c] := by
  rw [encodeChar, if_neg (by rw [h]; exact Bool.false_ne_true)]

/-- An encoded character begins with itself or with `%`. -/
theorem encodeChar_cases (c : Char) :
    encodeChar c = [c] ∨ (inPathSet c = true ∧ ∃ cs, encodeChar c = '%' :: cs) := by
  cases h : inPathSet c with
  | false => exact .inl (encodeChar_of_not_inPathSet h)
  | true =>
      refine .inr ⟨rfl, ?_⟩
      rw [encodeChar, if_pos h]
      cases hbytes : utf8 c with
      | nil => exact absurd hbytes String.utf8EncodeChar_ne_nil
      | cons b bs => exact ⟨_, rfl⟩

/-- Encoding makes no slash. -/
theorem slash_notMem_percentEncode {cs : List Char} (h : '/' ∉ cs) : '/' ∉ percentEncode cs := by
  intro hmem
  obtain ⟨c, hc, hmem⟩ := List.mem_flatMap.mp hmem
  unfold encodeChar at hmem
  split at hmem
  · obtain ⟨b, -, hmem⟩ := List.mem_flatMap.mp hmem
    have hb : b.toNat < 256 := b.toNat_lt
    have hdigit : ∀ n < 16, hexDigit n ≠ '/' := by decide
    simp only [percentByte, List.mem_cons, List.not_mem_nil, or_false] at hmem
    rcases hmem with hmem | hmem | hmem
    · exact absurd hmem (by decide)
    · exact hdigit _ (by omega) hmem.symm
    · exact hdigit _ (by omega) hmem.symm
  · exact h (List.mem_singleton.mp hmem ▸ hc)

/-- A hexadecimal digit at the head of an encoded text is one of the text itself. -/
theorem percentEncode_eq_cons {cs ds : List Char} {d : Char} (hd : hexVal? d ≠ none)
    (h : percentEncode cs = d :: ds) : ∃ cs', cs = d :: cs' ∧ ds = percentEncode cs' := by
  cases cs with
  | nil => cases h
  | cons c cs =>
      have hcons : encodeChar c ++ percentEncode cs = d :: ds := h
      rcases encodeChar_cases c with hc | ⟨-, es, hc⟩
      · rw [hc] at hcons
        obtain ⟨rfl, rfl⟩ := List.cons.inj hcons
        exact ⟨cs, rfl, rfl⟩
      · rw [hc] at hcons
        obtain ⟨rfl, -⟩ := List.cons.inj hcons
        exact absurd rfl hd

/-- Encoding what follows a character makes no escape of it. -/
theorem escape?_percentEncode {c : Char} {cs : List Char}
    (h : ∀ a b ds, cs = a :: b :: ds → escape? c a b = none) :
    ∀ a b ds, percentEncode cs = a :: b :: ds → escape? c a b = none := by
  intro a b ds heq
  cases hesc : escape? c a b with
  | none => rfl
  | some byte =>
      obtain ⟨-, ha, hb⟩ := escape?_eq_some hesc
      obtain ⟨cs', rfl, hrest⟩ := percentEncode_eq_cons ha heq
      obtain ⟨cs'', rfl, -⟩ := percentEncode_eq_cons hb hrest.symm
      rw [h a b cs'' rfl] at hesc
      cases hesc

theorem percentDecode_encodeChar_append {c : Char} {cs : List Char}
    (h : ∀ a b ds, cs = a :: b :: ds → escape? c a b = none) :
    percentDecode (encodeChar c ++ percentEncode cs) =
      utf8 c ++ percentDecode (percentEncode cs) := by
  cases hc : inPathSet c with
  | false =>
      rw [encodeChar_of_not_inPathSet hc]
      exact percentDecode_cons (escape?_percentEncode h)
  | true =>
      rw [encodeChar, if_pos hc]
      exact percentDecode_percentBytes (utf8 c) _

theorem percentDecode_percentEncode_singleton (c : Char) :
    percentDecode (percentEncode [c]) = utf8 c := by
  have h : percentDecode (encodeChar c ++ percentEncode []) =
      utf8 c ++ percentDecode (percentEncode []) := percentDecode_encodeChar_append (by simp)
  exact h.trans (List.append_nil _)

/-- Decoding an encoded text decodes the text. -/
theorem percentDecode_percentEncode (cs : List Char) :
    percentDecode (percentEncode cs) = percentDecode cs := by
  induction cs using percentDecode.induct with
  | case1 c a b cs byte hesc ih =>
      obtain ⟨rfl, ha, hb⟩ := escape?_eq_some hesc
      have hencode : percentEncode ('%' :: a :: b :: cs) = '%' :: a :: b :: percentEncode cs := by
        show encodeChar '%' ++ (encodeChar a ++ (encodeChar b ++ percentEncode cs)) = _
        rw [encodeChar_of_not_inPathSet rfl,
          encodeChar_of_not_inPathSet (inPathSet_of_hexVal? ha),
          encodeChar_of_not_inPathSet (inPathSet_of_hexVal? hb)]
        rfl
      rw [hencode, percentDecode_escape hesc, percentDecode_escape hesc, ih]
  | case2 c a b cs hesc ih =>
      show percentDecode (encodeChar c ++ percentEncode (a :: b :: cs)) = _
      rw [percentDecode_encodeChar_append, ih, percentDecode, hesc]
      intro x y ds heq
      obtain ⟨rfl, htail⟩ := List.cons.inj heq
      obtain ⟨rfl, -⟩ := List.cons.inj htail
      exact hesc
  | case3 c a =>
      show percentDecode (encodeChar c ++ percentEncode [a]) = _
      rw [percentDecode_encodeChar_append (by simp), percentDecode_percentEncode_singleton]
      rfl
  | case4 c => exact percentDecode_percentEncode_singleton c
  | case5 => rfl

/-! ### Escapes -/

theorem hasEscape_of_notMem {cs : List Char} (h : '%' ∉ cs) : hasEscape cs = false := by
  induction cs using percentDecode.induct with
  | case1 c a b cs byte hesc ih =>
      exact absurd ((escape?_eq_some hesc).1 ▸ List.mem_cons_self) h
  | case2 c a b cs hesc ih =>
      rw [hasEscape, hesc, ih (List.not_mem_of_not_mem_cons h)]
      rfl
  | case3 c a => rfl
  | case4 c => rfl
  | case5 => rfl

/-- A text without escapes is decoded as it stands. -/
theorem percentDecode_of_not_hasEscape {cs : List Char} (h : hasEscape cs = false) :
    percentDecode cs = utf8Bytes cs := by
  induction cs using percentDecode.induct with
  | case1 c a b cs byte hesc ih =>
      rw [hasEscape, hesc] at h
      cases h
  | case2 c a b cs hesc ih =>
      rw [hasEscape, hesc] at h
      rw [percentDecode, hesc]
      exact congrArg (utf8 c ++ ·) (ih h)
  | case3 c a => exact congrArg (utf8 c ++ ·) (List.append_nil _).symm
  | case4 c => exact (List.append_nil _).symm
  | case5 => rfl

/-- Decoding never makes a text longer, and shorter when it has an escape. -/
theorem length_percentDecode (cs : List Char) :
    (percentDecode cs).length ≤ (utf8Bytes cs).length ∧
      (hasEscape cs = true → (percentDecode cs).length < (utf8Bytes cs).length) := by
  induction cs using percentDecode.induct with
  | case1 c a b cs byte hesc ih =>
      have hlen : (percentDecode (c :: a :: b :: cs)).length <
          (utf8Bytes (c :: a :: b :: cs)).length := by
        rw [percentDecode_escape hesc, List.length_cons, length_utf8Bytes_cons,
          length_utf8Bytes_cons, length_utf8Bytes_cons]
        have hc := utf8_length_pos c
        have ha := utf8_length_pos a
        have hle := ih.1
        omega
      exact ⟨Nat.le_of_lt hlen, fun _ => hlen⟩
  | case2 c a b cs hesc ih =>
      rw [percentDecode, hesc, hasEscape, hesc, length_utf8Bytes_cons]
      show (utf8 c ++ percentDecode (a :: b :: cs)).length ≤ _ ∧ (_ → _ < _)
      rw [List.length_append]
      exact ⟨Nat.add_le_add_left ih.1 _, fun hrest => Nat.add_lt_add_left (ih.2 hrest) _⟩
  | case3 c a => exact ⟨by simp [percentDecode, utf8Bytes], fun h => by cases h⟩
  | case4 c => exact ⟨by simp [percentDecode, utf8Bytes], fun h => by cases h⟩
  | case5 => exact ⟨Nat.le_refl _, fun h => by cases h⟩

end EmailPlatform.Url
