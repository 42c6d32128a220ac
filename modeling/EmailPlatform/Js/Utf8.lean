import EmailPlatform.Url.Percent

/-!
# EmailPlatform.Js.Utf8

The text of UTF-8 bytes, character by character, and that it undoes `utf8Bytes`.
-/

namespace EmailPlatform

open Url

/-- The text of the bytes, if they are UTF-8. No character is less than a byte. -/
def decodeChars : ℕ → List UInt8 → Option (List Char)
  | _, [] => some []
  | 0, _ :: _ => none
  | fuel + 1, b :: bs => do
    let c ← (b :: bs).toByteArray.utf8DecodeChar? 0
    let cs ← decodeChars fuel ((b :: bs).drop c.utf8Size)
    some (c :: cs)

def decodeUtf8 (bs : List UInt8) : Option (List Char) := decodeChars bs.length bs

theorem utf8DecodeChar_utf8_append (c : Char) (bs : List UInt8) :
    (utf8 c ++ bs).toByteArray.utf8DecodeChar? 0 = some c := by
  rw [List.toByteArray_append]
  exact ByteArray.utf8DecodeChar?_utf8EncodeChar_append

theorem decodeChars_utf8Bytes (cs : List Char) :
    ∀ {fuel : ℕ}, (utf8Bytes cs).length ≤ fuel → decodeChars fuel (utf8Bytes cs) = some cs := by
  induction cs with
  | nil =>
      intro fuel _
      cases fuel <;> rfl
  | cons c cs ih =>
      intro fuel hfuel
      have hpos := utf8_length_pos c
      rw [length_utf8Bytes_cons] at hfuel
      have hchar := utf8DecodeChar_utf8_append c (utf8Bytes cs)
      have hdrop : (utf8 c ++ utf8Bytes cs).drop c.utf8Size = utf8Bytes cs := by
        rw [← String.length_utf8EncodeChar, List.drop_left]
      cases fuel with
      | zero => omega
      | succ fuel =>
          change decodeChars (fuel + 1) (utf8 c ++ utf8Bytes cs) = _
          obtain ⟨b, bs, heq⟩ := List.exists_cons_of_length_pos
            (l := utf8 c ++ utf8Bytes cs) (by rw [List.length_append]; omega)
          rw [heq] at hchar hdrop ⊢
          simp [decodeChars, hchar, hdrop, ih (show (utf8Bytes cs).length ≤ fuel by omega)]

/-- A text comes back from its bytes. -/
theorem decodeUtf8_utf8Bytes (cs : List Char) : decodeUtf8 (utf8Bytes cs) = some cs :=
  decodeChars_utf8Bytes cs (Nat.le_refl _)

/-- A text whose bytes begin with those of another begins with that one. -/
theorem exists_append_of_utf8Bytes {text cs : List Char} {bs : List UInt8}
    (h : utf8Bytes text = utf8Bytes cs ++ bs) : ∃ ds, text = cs ++ ds ∧ utf8Bytes ds = bs := by
  induction cs generalizing text with
  | nil => exact ⟨text, rfl, h⟩
  | cons c cs ih =>
      have hcons : utf8Bytes text = utf8 c ++ (utf8Bytes cs ++ bs) :=
        h.trans (List.append_assoc (utf8 c) _ bs)
      cases text with
      | nil => exact absurd (List.append_eq_nil_iff.mp hcons.symm).1 String.utf8EncodeChar_ne_nil
      | cons d text =>
          have hd : utf8 d ++ utf8Bytes text = utf8 c ++ (utf8Bytes cs ++ bs) := hcons
          have hchar := utf8DecodeChar_utf8_append d (utf8Bytes text)
          rw [hd, utf8DecodeChar_utf8_append] at hchar
          obtain rfl := Option.some.inj hchar
          obtain ⟨ds, rfl, hds⟩ := ih (List.append_cancel_left hd)
          exact ⟨ds, rfl, hds⟩

end EmailPlatform
