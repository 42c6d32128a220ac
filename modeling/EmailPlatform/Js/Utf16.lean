import Mathlib.Data.List.Basic
import Mathlib.Tactic.Common

/-!
# EmailPlatform.Js.Utf16

JavaScript strings where their UTF-16 code units matter: a string is a list of units, with
no promise that surrogates come in pairs, and its length counts units. Strings that are
only compared, joined or looked up are `String`s elsewhere.

`ofChars` writes a text in UTF-16 and `chars` reads a string as text, with U+FFFD for each
lone surrogate; the two are inverse on well-formed strings.
-/

namespace EmailPlatform

/-- A JavaScript string, by its code units. -/
abbrev JsString := List UInt16

namespace JsString

/-- A high surrogate. -/
def isHigh (u : UInt16) : Bool := 0xD800 ≤ u.toNat && u.toNat < 0xDC00

/-- A low surrogate. -/
def isLow (u : UInt16) : Bool := 0xDC00 ≤ u.toNat && u.toNat < 0xE000

/-- Either. -/
def isSurrogate (u : UInt16) : Bool := isHigh u || isLow u

/-- The code units of a character. -/
def ofChar (c : Char) : JsString :=
  if c.toNat < 0x10000 then [.ofNat c.toNat]
  else
    [.ofNat (0xD800 + (c.toNat - 0x10000) / 0x400), .ofNat (0xDC00 + (c.toNat - 0x10000) % 0x400)]

/-- The code units of a text. -/
def ofChars (cs : List Char) : JsString := cs.flatMap ofChar

/-- The code units of a string. -/
def ofString (s : String) : JsString := ofChars s.toList

/-- The character of a unit on its own. -/
def ofUnit (u : UInt16) : Char := if isSurrogate u then '\uFFFD' else Char.ofNat u.toNat

/-- The character of a surrogate pair. -/
def ofPair (u v : UInt16) : Char :=
  Char.ofNat (0x10000 + (u.toNat - 0xD800) * 0x400 + (v.toNat - 0xDC00))

/-- The text of a string, as `toWellFormed()` has it. -/
def chars : JsString → List Char
  | [] => []
  | [u] => [ofUnit u]
  | u :: v :: s => if isHigh u && isLow v then ofPair u v :: chars s else ofUnit u :: chars (v :: s)

/-- `isWellFormed()`: no lone surrogate. -/
def isWellFormed : JsString → Bool
  | [] => true
  | [u] => !isSurrogate u
  | u :: v :: s => if isHigh u && isLow v then isWellFormed s
    else !isSurrogate u && isWellFormed (v :: s)

/-! ### One character -/

theorem isHigh_iff {u : UInt16} : isHigh u = true ↔ 0xD800 ≤ u.toNat ∧ u.toNat < 0xDC00 := by
  simp [isHigh]

theorem isLow_iff {u : UInt16} : isLow u = true ↔ 0xDC00 ≤ u.toNat ∧ u.toNat < 0xE000 := by
  simp [isLow]

theorem isSurrogate_iff {u : UInt16} :
    isSurrogate u = true ↔ 0xD800 ≤ u.toNat ∧ u.toNat < 0xE000 := by
  unfold isSurrogate
  rw [Bool.or_eq_true, isHigh_iff, isLow_iff]
  omega

theorem isHigh_of_not_isSurrogate {u : UInt16} (h : isSurrogate u = false) :
    isHigh u = false := by
  unfold isSurrogate at h
  exact (Bool.or_eq_false_iff.mp h).1

theorem isLow_of_not_isSurrogate {u : UInt16} (h : isSurrogate u = false) :
    isLow u = false := by
  unfold isSurrogate at h
  exact (Bool.or_eq_false_iff.mp h).2

theorem toNat_ofNat {n : Nat} (h : n.isValidChar) : (Char.ofNat n).toNat = n := by
  rw [Char.ofNat, dif_pos h]
  rfl

theorem toNat_ofUnit {u : UInt16} (h : isSurrogate u = false) : (ofUnit u).toNat = u.toNat := by
  have hsur : ¬ (0xD800 ≤ u.toNat ∧ u.toNat < 0xE000) := by
    rw [← isSurrogate_iff, h]
    exact Bool.false_ne_true
  have hlt : u.toNat < 0x10000 := u.toNat_lt
  have hvalid : u.toNat.isValidChar := by
    unfold Nat.isValidChar
    omega
  rw [ofUnit, if_neg (by rw [h]; exact Bool.false_ne_true), toNat_ofNat hvalid]

/-- A character is one unit or a surrogate pair. -/
theorem ofChar_cases (c : Char) :
    (∃ u, isSurrogate u = false ∧ ofChar c = [u] ∧ ofUnit u = c) ∨
      ∃ u v, isHigh u = true ∧ isLow v = true ∧ ofChar c = [u, v] ∧ ofPair u v = c := by
  have hvalid : c.toNat < 0xD800 ∨ (0xDFFF < c.toNat ∧ c.toNat < 0x110000) := c.valid
  unfold ofChar
  by_cases hlt : c.toNat < 0x10000
  · left
    rw [if_pos hlt]
    have htoNat : (UInt16.ofNat c.toNat).toNat = c.toNat := UInt16.toNat_ofNat_of_lt' hlt
    have hsur : isSurrogate (UInt16.ofNat c.toNat) = false := by
      rw [← Bool.not_eq_true, isSurrogate_iff, htoNat]
      omega
    refine ⟨_, hsur, rfl, ?_⟩
    rw [← Char.toNat_inj, toNat_ofUnit hsur, htoNat]
  · right
    rw [if_neg hlt]
    have hu : (UInt16.ofNat (0xD800 + (c.toNat - 0x10000) / 0x400)).toNat =
        0xD800 + (c.toNat - 0x10000) / 0x400 :=
      UInt16.toNat_ofNat_of_lt' (show _ < 0x10000 by omega)
    have hv : (UInt16.ofNat (0xDC00 + (c.toNat - 0x10000) % 0x400)).toNat =
        0xDC00 + (c.toNat - 0x10000) % 0x400 :=
      UInt16.toNat_ofNat_of_lt' (show _ < 0x10000 by omega)
    refine ⟨_, _, ?_, ?_, rfl, ?_⟩
    · rw [isHigh_iff, hu]
      omega
    · rw [isLow_iff, hv]
      omega
    · rw [ofPair, hu, hv]
      have hsum : 0x10000 + (0xD800 + (c.toNat - 0x10000) / 0x400 - 0xD800) * 0x400 +
          (0xDC00 + (c.toNat - 0x10000) % 0x400 - 0xDC00) = c.toNat := by
        omega
      rw [hsum, Char.ofNat_toNat]

theorem ofChar_ofUnit {u : UInt16} (h : isSurrogate u = false) : ofChar (ofUnit u) = [u] := by
  have hlt : u.toNat < 0x10000 := u.toNat_lt
  rw [ofChar, toNat_ofUnit h, if_pos hlt, UInt16.ofNat_toNat]

theorem ofChar_ofPair {u v : UInt16} (hu : isHigh u = true) (hv : isLow v = true) :
    ofChar (ofPair u v) = [u, v] := by
  rw [isHigh_iff] at hu
  rw [isLow_iff] at hv
  have hvalid : (0x10000 + (u.toNat - 0xD800) * 0x400 + (v.toNat - 0xDC00)).isValidChar := by
    unfold Nat.isValidChar
    omega
  have htoNat : (ofPair u v).toNat =
      0x10000 + (u.toNat - 0xD800) * 0x400 + (v.toNat - 0xDC00) := by
    rw [ofPair, toNat_ofNat hvalid]
  have hhigh : 0xD800 + ((ofPair u v).toNat - 0x10000) / 0x400 = u.toNat := by
    omega
  have hlow : 0xDC00 + ((ofPair u v).toNat - 0x10000) % 0x400 = v.toNat := by
    omega
  rw [ofChar, if_neg (by omega), hhigh, hlow, UInt16.ofNat_toNat, UInt16.ofNat_toNat]

/-! ### Texts -/

theorem chars_cons_cons (u v : UInt16) (s : JsString) :
    chars (u :: v :: s) =
      if isHigh u && isLow v then ofPair u v :: chars s else ofUnit u :: chars (v :: s) := rfl

theorem isWellFormed_cons_cons (u v : UInt16) (s : JsString) :
    isWellFormed (u :: v :: s) =
      if isHigh u && isLow v then isWellFormed s
      else !isSurrogate u && isWellFormed (v :: s) := rfl

theorem ofChars_append (cs ds : List Char) : ofChars (cs ++ ds) = ofChars cs ++ ofChars ds :=
  List.flatMap_append

/-- A unit that completes no pair is read on its own. -/
theorem chars_cons {u : UInt16} (s : JsString) (h : isHigh u = false) :
    chars (u :: s) = ofUnit u :: chars s := by
  cases s with
  | nil => rfl
  | cons v s =>
      rw [chars_cons_cons, h, Bool.false_and]
      rfl

theorem isWellFormed_cons {u : UInt16} (s : JsString) (h : isHigh u = false) :
    isWellFormed (u :: s) = (!isSurrogate u && isWellFormed s) := by
  cases s with
  | nil => simp [isWellFormed]
  | cons v s =>
      rw [isWellFormed_cons_cons, h, Bool.false_and]
      rfl

/-- Without surrogates every unit is a character. -/
theorem chars_of_not_isSurrogate {s : JsString} (h : ∀ u ∈ s, isSurrogate u = false) :
    isWellFormed s = true ∧ chars s = s.map ofUnit := by
  induction s with
  | nil => exact ⟨rfl, rfl⟩
  | cons u s ih =>
      have hu := h u List.mem_cons_self
      obtain ⟨hwell, hchars⟩ := ih fun v hv => h v (List.mem_cons_of_mem _ hv)
      have hhigh := isHigh_of_not_isSurrogate hu
      rw [isWellFormed_cons s hhigh, chars_cons s hhigh, hu, hwell, hchars]
      exact ⟨rfl, rfl⟩

theorem chars_ofChar_append (c : Char) (s : JsString) : chars (ofChar c ++ s) = c :: chars s := by
  rcases ofChar_cases c with ⟨u, hu, hc, rfl⟩ | ⟨u, v, hu, hv, hc, rfl⟩
  · rw [hc]
    exact chars_cons s (isHigh_of_not_isSurrogate hu)
  · rw [hc]
    show chars (u :: v :: s) = _
    rw [chars_cons_cons, hu, hv]
    rfl

theorem isWellFormed_ofChar_append (c : Char) (s : JsString) :
    isWellFormed (ofChar c ++ s) = isWellFormed s := by
  rcases ofChar_cases c with ⟨u, hu, hc, rfl⟩ | ⟨u, v, hu, hv, hc, rfl⟩
  · rw [hc]
    show isWellFormed (u :: s) = _
    rw [isWellFormed_cons s (isHigh_of_not_isSurrogate hu), hu]
    rfl
  · rw [hc]
    show isWellFormed (u :: v :: s) = _
    rw [isWellFormed_cons_cons, hu, hv]
    rfl

/-- A text is read back, whatever follows it. -/
theorem chars_ofChars_append (cs : List Char) (s : JsString) :
    chars (ofChars cs ++ s) = cs ++ chars s := by
  induction cs with
  | nil => rfl
  | cons c cs ih =>
      show chars ((ofChar c ++ ofChars cs) ++ s) = _
      rw [List.append_assoc, chars_ofChar_append, ih]
      rfl

theorem chars_ofChars (cs : List Char) : chars (ofChars cs) = cs := by
  have h := chars_ofChars_append cs []
  rwa [List.append_nil, show chars [] = [] from rfl, List.append_nil] at h

theorem isWellFormed_ofChars (cs : List Char) : isWellFormed (ofChars cs) = true := by
  induction cs with
  | nil => rfl
  | cons c cs ih => exact (isWellFormed_ofChar_append c _).trans ih

/-- A well-formed string is the UTF-16 of its text. -/
theorem ofChars_chars {s : JsString} (h : isWellFormed s = true) : ofChars (chars s) = s := by
  induction s using chars.induct with
  | case1 => rfl
  | case2 u =>
      have hu : isSurrogate u = false := by simpa [isWellFormed] using h
      show ofChar (ofUnit u) ++ [] = [u]
      rw [ofChar_ofUnit hu]
      rfl
  | case3 u v s hpair ih =>
      rw [isWellFormed_cons_cons, if_pos hpair] at h
      obtain ⟨hu, hv⟩ := Bool.and_eq_true_iff.mp hpair
      rw [chars_cons_cons, if_pos hpair]
      show ofChar (ofPair u v) ++ ofChars (chars s) = _
      rw [ofChar_ofPair hu hv, ih h]
      rfl
  | case4 u v s hpair ih =>
      rw [isWellFormed_cons_cons, if_neg hpair, Bool.and_eq_true] at h
      have hu : isSurrogate u = false := by simpa using h.1
      rw [chars_cons_cons, if_neg hpair]
      show ofChar (ofUnit u) ++ ofChars (chars (v :: s)) = _
      rw [ofChar_ofUnit hu, ih h.2]
      rfl

/-- Well-formed strings with one text are equal. -/
theorem chars_inj {s r : JsString} (hs : isWellFormed s = true) (hr : isWellFormed r = true)
    (h : chars s = chars r) : s = r := by
  rw [← ofChars_chars hs, h, ofChars_chars hr]

/-- A unit that is no surrogate separates what is read on its two sides. -/
theorem chars_append_cons {u : UInt16} (hu : isSurrogate u = false) (s r : JsString) :
    chars (s ++ u :: r) = chars s ++ ofUnit u :: chars r := by
  have hcons := chars_cons r (isHigh_of_not_isSurrogate hu)
  induction s using chars.induct with
  | case1 => exact hcons
  | case2 x =>
      show chars (x :: u :: r) = _
      rw [chars_cons_cons, isLow_of_not_isSurrogate hu, Bool.and_false, hcons]
      rfl
  | case3 x y s hpair ih =>
      show chars (x :: y :: (s ++ u :: r)) = _
      rw [chars_cons_cons, chars_cons_cons, if_pos hpair, if_pos hpair, ih]
      rfl
  | case4 x y s hpair ih =>
      show chars (x :: y :: (s ++ u :: r)) = _
      rw [chars_cons_cons, chars_cons_cons, if_neg hpair, if_neg hpair]
      exact congrArg (ofUnit x :: ·) ih

theorem isWellFormed_append_cons {u : UInt16} (hu : isSurrogate u = false) (s r : JsString) :
    isWellFormed (s ++ u :: r) = (isWellFormed s && isWellFormed r) := by
  have hcons : isWellFormed (u :: r) = isWellFormed r := by
    rw [isWellFormed_cons r (isHigh_of_not_isSurrogate hu), hu]
    rfl
  induction s using chars.induct with
  | case1 => exact hcons
  | case2 x =>
      show isWellFormed (x :: u :: r) = _
      rw [isWellFormed_cons_cons, isLow_of_not_isSurrogate hu, Bool.and_false, hcons]
      rfl
  | case3 x y s hpair ih =>
      show isWellFormed (x :: y :: (s ++ u :: r)) = _
      rw [isWellFormed_cons_cons, isWellFormed_cons_cons, if_pos hpair, if_pos hpair, ih]
  | case4 x y s hpair ih =>
      show isWellFormed (x :: y :: (s ++ u :: r)) = _
      rw [isWellFormed_cons_cons, isWellFormed_cons_cons, if_neg hpair, if_neg hpair,
        Bool.and_assoc]
      exact congrArg (!isSurrogate x && ·) ih

/-- A well-formed string stays well-formed when it is cut, unless the cut parts a pair. -/
theorem isWellFormed_take_iff {s : JsString} (h : isWellFormed s = true) (n : Nat) :
    isWellFormed (s.take n) = true ↔ ∀ u ∈ (s.take n).getLast?, isHigh u = false := by
  induction s using chars.induct generalizing n with
  | case1 => simp [isWellFormed]
  | case2 x =>
      have hx : isSurrogate x = false := by simpa [isWellFormed] using h
      cases n with
      | zero => simp [isWellFormed]
      | succ n => simpa [isWellFormed, hx] using isHigh_of_not_isSurrogate hx
  | case3 x y s hpair ih =>
      rw [isWellFormed_cons_cons, if_pos hpair] at h
      obtain ⟨hx, hy⟩ := Bool.and_eq_true_iff.mp hpair
      match n with
      | 0 => simp [isWellFormed]
      | 1 => simp [isWellFormed, isSurrogate, hx]
      | n + 2 =>
          have hhigh : isHigh y = false := by
            rw [← Bool.not_eq_true, isHigh_iff]
            rw [isLow_iff] at hy
            omega
          rw [List.take_succ_cons, List.take_succ_cons, isWellFormed_cons_cons, if_pos hpair,
            ih h n]
          cases hs : s.take n with
          | nil => simpa using hhigh
          | cons z t => simp [List.getLast?_cons_cons]
  | case4 x y s hpair ih =>
      rw [isWellFormed_cons_cons, if_neg hpair, Bool.and_eq_true, Bool.not_eq_true'] at h
      have hx := isHigh_of_not_isSurrogate h.1
      cases n with
      | zero => simp [isWellFormed]
      | succ n =>
          rw [List.take_succ_cons, isWellFormed_cons _ hx, h.1, Bool.not_false, Bool.true_and,
            ih h.2 n]
          cases hs : (y :: s).take n with
          | nil => simpa using hx
          | cons z t => simp [List.getLast?_cons_cons]

end JsString

end EmailPlatform
