import EmailPlatform.Js.JsonParse

/-!
# EmailPlatform.Js.JsonRoundTrip

**`JSON.parse` reads what `JSON.stringify` writes**, and what it reads is the normal form of
the value (`parse_stringify`).

Everything is said of the machine in a context: `Reads text v` when from wherever a value is
due, behind any opened arrays and objects, the text leads to where `v` has ended. Strings
come first, then numerals, by the forms that `Decimal.text` has; arrays and objects are
walked once along their elements.
-/

namespace EmailPlatform.JSON

open JsString (isHigh isLow isSurrogate ofUnit ofPair ofChar)

variable {format : NumberFormat}

/-! ### Strings -/

/-- A text that the machine takes one step at a time. -/
theorem run_of_step {s s' : State} {c : Char} (h : step s c = some s') (t : List Char) :
    run s (c :: t) = run s' t := by
  rw [run_cons, h]
  rfl

theorem hexValue_digitChar : ∀ d < 16, hexValue (Nat.digitChar d) = some d := by decide

theorem step_unicode {c : Char} {d : ℕ} (h : hexValue c = some d) (holder : Holder)
    (units : JsString) (digits code : ℕ) (stack : List Frame) :
    step (.unicode holder units digits code, stack) c =
      some (if digits = 3 then (.string holder (units ++ [.ofNat (16 * code + d)]), stack)
        else (.unicode holder units (digits + 1) (16 * code + d), stack)) := by
  rw [step, h]
  rfl

/-- The four digits of a unit. -/
theorem run_unicodeEscape (holder : Holder) (units : JsString) (u : UInt16) (stack : List Frame) :
    run (.string holder units, stack) (unicodeEscape u) =
      some (.string holder (units ++ [u]), stack) := by
  have hu : u.toNat < 65536 := u.toNat_lt
  have hcode : 16 * (16 * (16 * (16 * 0 + u.toNat / 4096) + u.toNat / 256 % 16) +
      u.toNat / 16 % 16) + u.toNat % 16 = u.toNat := by omega
  have h₁ := hexValue_digitChar (u.toNat / 4096) (by omega)
  have h₂ := hexValue_digitChar (u.toNat / 256 % 16) (by omega)
  have h₃ := hexValue_digitChar (u.toNat / 16 % 16) (by omega)
  have h₄ := hexValue_digitChar (u.toNat % 16) (by omega)
  have hslash : step (.string holder units, stack) '\\' = some (.escape holder units, stack) := rfl
  have hescape : step (.escape holder units, stack) 'u' =
      some (.unicode holder units 0 0, stack) := rfl
  rw [unicodeEscape, run_of_step hslash, run_of_step hescape,
    run_of_step (step_unicode h₁ holder units 0 0 stack), if_neg (by decide),
    run_of_step (step_unicode h₂ holder units 1 _ stack), if_neg (by decide),
    run_of_step (step_unicode h₃ holder units 2 _ stack), if_neg (by decide),
    run_of_step (step_unicode h₄ holder units 3 _ stack), if_pos rfl, run_nil, hcode,
    UInt16.ofNat_toNat]

/-- The escapes of one character are read back. -/
theorem lookup_escapes {u : UInt16} {c : Char} (h : singleEscapes.lookup u = some c) :
    c ≠ 'u' ∧ escapes.lookup c = some u := by
  have hall : ∀ p ∈ singleEscapes, p.2 ≠ 'u' ∧ escapes.lookup p.2 = some p.1 := by decide
  obtain ⟨l₁, l₂, heq, -⟩ := List.lookup_eq_some_iff.mp h
  exact hall (u, c) (by rw [heq]; simp)

/-- A unit with no escape stands for itself. -/
theorem run_plain {u : UInt16} (hescape : singleEscapes.lookup u = none) (hlow : 0x20 ≤ u.toNat)
    (hsurrogate : isSurrogate u = false) (holder : Holder) (units : JsString)
    (stack : List Frame) :
    run (.string holder units, stack) [ofUnit u] =
      some (.string holder (units ++ [u]), stack) := by
  have htoNat := JsString.toNat_ofUnit hsurrogate
  have hne : ∀ c : Char, (singleEscapes.lookup (.ofNat c.toNat)).isSome = true →
      c.toNat < 65536 → ofUnit u ≠ c := by
    intro c hc hlt heq
    have hu : UInt16.ofNat c.toNat = u := by
      rw [← heq, htoNat, UInt16.ofNat_toNat]
    rw [hu, hescape] at hc
    cases hc
  have hquote := hne '"' (by decide) (by decide)
  have hbackslash := hne '\\' (by decide) (by decide)
  refine run_of_step ?_ []
  rw [step, if_neg hquote, if_neg hbackslash, if_neg (by rw [htoNat]; omega),
    JsString.ofChar_ofUnit hsurrogate]

theorem run_quoteUnit (u : UInt16) (holder : Holder) (units : JsString) (stack : List Frame) :
    run (.string holder units, stack) (quoteUnit u) =
      some (.string holder (units ++ [u]), stack) := by
  unfold quoteUnit
  cases hescape : singleEscapes.lookup u with
  | some c =>
      obtain ⟨hne, hlookup⟩ := lookup_escapes hescape
      have hslash : step (.string holder units, stack) '\\' =
          some (.escape holder units, stack) := rfl
      show run _ ['\\', c] = _
      rw [run_of_step hslash]
      refine run_of_step ?_ []
      rw [step, if_neg hne, hlookup]
      rfl
  | none =>
      by_cases hplain : u.toNat < 0x20 ∨ isSurrogate u = true
      · simp only [if_pos hplain]
        exact run_unicodeEscape holder units u stack
      · simp only [if_neg hplain]
        obtain ⟨hlow, hsurrogate⟩ := not_or.mp hplain
        exact run_plain hescape (Nat.not_lt.mp hlow) (by simpa using hsurrogate) holder units stack

/-- A surrogate pair stands for itself. -/
theorem run_pair {u v : UInt16} (hu : isHigh u = true) (hv : isLow v = true) (holder : Holder)
    (units : JsString) (stack : List Frame) :
    run (.string holder units, stack) [ofPair u v] =
      some (.string holder (units ++ [u, v]), stack) := by
  have hchar := JsString.ofChar_ofPair hu hv
  have hne : ∀ c : Char, (ofChar c).length = 1 → ofPair u v ≠ c := by
    intro c hc heq
    rw [← heq, hchar] at hc
    simp at hc
  have hcontrol : ¬ (ofPair u v).toNat < 0x20 := by
    intro hlt
    have hone : ofChar (ofPair u v) = [.ofNat (ofPair u v).toNat] := if_pos (by omega)
    rw [hchar] at hone
    simp at hone
  refine run_of_step ?_ []
  rw [step, if_neg (hne '"' rfl), if_neg (hne '\\' rfl), if_neg hcontrol, hchar]

/-- What stands between the quotes is read unit by unit. -/
theorem run_quoteUnits (s : JsString) (holder : Holder) (units : JsString) (stack : List Frame) :
    run (.string holder units, stack) (quoteUnits s) =
      some (.string holder (units ++ s), stack) := by
  induction s using quoteUnits.induct generalizing units with
  | case1 => simp [quoteUnits]
  | case2 u => exact run_quoteUnit u holder units stack
  | case3 u v s hpair ih =>
      obtain ⟨hu, hv⟩ := Bool.and_eq_true_iff.mp hpair
      rw [quoteUnits, if_pos hpair]
      show run _ ([ofPair u v] ++ quoteUnits s) = _
      rw [run_append, run_pair hu hv]
      show run _ (quoteUnits s) = _
      rw [ih, List.append_assoc]
      rfl
  | case4 u v s hpair ih =>
      rw [quoteUnits, if_neg hpair, run_append, run_quoteUnit]
      show run _ (quoteUnits (v :: s)) = _
      rw [ih, List.append_assoc]
      rfl

/-- A string literal, from behind its opening quote. -/
theorem run_quote (s : JsString) (holder : Holder) (stack : List Frame) :
    run (.string holder [], stack) (quoteUnits s ++ ['"']) =
      some (closeString s holder, stack) := by
  rw [run_append, run_quoteUnits]
  rfl

/-! ### Numerals -/

namespace Numeral

/-- A text that belongs to the numeral. -/
def read (n : Numeral) (text : List Char) : Option Numeral := text.foldlM step n

theorem read_append (n : Numeral) (t t' : List Char) :
    n.read (t ++ t') = (n.read t).bind fun n => n.read t' := List.foldlM_append

theorem read_of_step {n n' : Numeral} {c : Char} (h : n.step c = some n') (t : List Char) :
    n.read (c :: t) = n'.read t := by
  show (List.foldlM step n (c :: t)) = _
  rw [List.foldlM_cons, h]
  rfl

theorem step_digit {c : Char} (hc : c.isDigit = true) (n : Numeral) :
    n.step c = n.digit (c.toNat - '0'.toNat) := if_pos hc

variable {digits : List Char} (negative : Bool)

/-- More digits before the point. -/
theorem read_int (hdigits : ∀ c ∈ digits, c.isDigit = true) (m : ℕ) :
    read ⟨negative, .int, m, 0, false, 0⟩ digits =
      some ⟨negative, .int, Nat.ofDigitChars 10 digits m, 0, false, 0⟩ := by
  induction digits generalizing m with
  | nil => rfl
  | cons c digits ih =>
      rw [read_of_step (step_digit (hdigits c List.mem_cons_self) _), Nat.ofDigitChars_cons]
      exact ih (fun c hc => hdigits c (List.mem_cons_of_mem _ hc)) _

/-- Digits behind the point. -/
theorem read_frac (hdigits : ∀ c ∈ digits, c.isDigit = true) (m f : ℕ) :
    read ⟨negative, .frac, m, f, false, 0⟩ digits =
      some ⟨negative, .frac, Nat.ofDigitChars 10 digits m, f + digits.length, false, 0⟩ := by
  induction digits generalizing m f with
  | nil => rfl
  | cons c digits ih =>
      rw [read_of_step (step_digit (hdigits c List.mem_cons_self) _), Nat.ofDigitChars_cons,
        List.length_cons, Nat.add_comm digits.length, ← Nat.add_assoc]
      exact ih (fun c hc => hdigits c (List.mem_cons_of_mem _ hc)) _ _

/-- More digits of an exponent. -/
theorem read_expDigits (hdigits : ∀ c ∈ digits, c.isDigit = true) (m f : ℕ)
    (expNegative : Bool) (e : ℕ) :
    read ⟨negative, .expDigits, m, f, expNegative, e⟩ digits =
      some ⟨negative, .expDigits, m, f, expNegative, Nat.ofDigitChars 10 digits e⟩ := by
  induction digits generalizing e with
  | nil => rfl
  | cons c digits ih =>
      rw [read_of_step (step_digit (hdigits c List.mem_cons_self) _), Nat.ofDigitChars_cons]
      exact ih (fun c hc => hdigits c (List.mem_cons_of_mem _ hc)) _

/-- All digits of an exponent, or of a fraction. -/
theorem read_exponent (n : Numeral) (m f : ℕ) (e : ℤ)
    (hn : n = ⟨negative, .int, m, f, false, 0⟩ ∨ n = ⟨negative, .frac, m, f, false, 0⟩) :
    n.read (Decimal.exponentText e) =
      some ⟨negative, .expDigits, m, f, decide (e < 0), e.natAbs⟩ := by
  obtain ⟨c, rest, hrest⟩ : ∃ c rest, Nat.toDigits 10 e.natAbs = c :: rest :=
    List.exists_cons_of_ne_nil Nat.toDigits_ne_nil
  have hdigit : ∀ c ∈ Nat.toDigits 10 e.natAbs, c.isDigit = true := fun c hc =>
    Nat.isDigit_of_mem_toDigits (by decide) (by decide) hc
  have hmark : n.step 'e' = some ⟨negative, .exp, m, f, false, 0⟩ := by
    rcases hn with rfl | rfl <;> rfl
  have hsign : step ⟨negative, .exp, m, f, false, 0⟩ (if e < 0 then '-' else '+') =
      some ⟨negative, .expSign, m, f, decide (e < 0), 0⟩ := by
    by_cases he : e < 0
    · simp only [if_pos he, decide_eq_true he]
      rfl
    · simp only [if_neg he, decide_eq_false he]
      rfl
  have hvalue : Nat.ofDigitChars 10 rest (10 * 0 + (c.toNat - '0'.toNat)) = e.natAbs := by
    rw [← Nat.ofDigitChars_cons, ← hrest, Nat.ofDigitChars_ten_toDigits]
  rw [hrest] at hdigit
  rw [Decimal.exponentText, read_of_step hmark, read_of_step hsign, hrest,
    read_of_step (step_digit (hdigit c List.mem_cons_self) _)]
  refine (read_expDigits _ (fun c hc => hdigit c (List.mem_cons_of_mem _ hc)) _ _ _ _).trans ?_
  rw [hvalue]

/-- The digits of a positive number do not begin with a zero. -/
theorem exists_toDigits {s : ℕ} (hs : 0 < s) :
    ∃ c rest, Nat.toDigits 10 s = c :: rest ∧ c.toNat - '0'.toNat ≠ 0 := by
  induction s using Nat.strongRecOn with
  | ind s ih =>
      rcases Nat.lt_or_ge s 10 with hlt | hge
      · refine ⟨_, [], Nat.toDigits_of_lt_base hlt, ?_⟩
        have hall : ∀ d < 10, 0 < d → (Nat.digitChar d).toNat - '0'.toNat ≠ 0 := by decide
        exact hall s hlt hs
      · obtain ⟨c, rest, hdigits, hc⟩ := ih (s / 10) (by omega) (by omega)
        exact ⟨c, rest ++ [Nat.digitChar (s % 10)],
          by rw [Nat.toDigits_of_base_le (by decide) hge, hdigits]; rfl, hc⟩

/-- A numeral that begins with digits of which the first is no zero. -/
theorem read_start (hdigits : ∀ c ∈ digits, c.isDigit = true) {c : Char} {rest : List Char}
    (hhead : digits = c :: rest) (hc : c.toNat - '0'.toNat ≠ 0) :
    (start negative).read digits =
      some ⟨negative, .int, Nat.ofDigitChars 10 digits 0, 0, false, 0⟩ := by
  subst hhead
  have hstep : (start negative).step c = some ⟨negative, .int, c.toNat - '0'.toNat, 0, false, 0⟩ :=
    (step_digit (hdigits c List.mem_cons_self) _).trans (if_neg hc)
  rw [read_of_step hstep, read_int _ (fun c hc => hdigits c (List.mem_cons_of_mem _ hc)),
    Nat.ofDigitChars_cons, Nat.mul_zero, Nat.zero_add]

/-- A point and the digits behind it. -/
theorem read_point (hdigits : ∀ c ∈ digits, c.isDigit = true) (hne : digits ≠ [])
    (n : Numeral) (m : ℕ)
    (hn : n = ⟨negative, .int, m, 0, false, 0⟩ ∨ n = ⟨negative, .zero, m, 0, false, 0⟩) :
    n.read ('.' :: digits) =
      some ⟨negative, .frac, Nat.ofDigitChars 10 digits m, digits.length, false, 0⟩ := by
  obtain ⟨c, rest, rfl⟩ := List.exists_cons_of_ne_nil hne
  have hpoint : n.step '.' = some ⟨negative, .point, m, 0, false, 0⟩ := by
    rcases hn with rfl | rfl <;> rfl
  rw [read_of_step hpoint, read_of_step (step_digit (hdigits c List.mem_cons_self) _)]
  refine (read_frac _ (fun c hc => hdigits c (List.mem_cons_of_mem _ hc)) _ _).trans ?_
  have hlen : 0 + 1 + rest.length = rest.length + 1 := by omega
  rw [Nat.ofDigitChars_cons, List.length_cons, ← hlen]

/-- The digits with a point between them. -/
theorem read_split (hdigits : ∀ c ∈ digits, c.isDigit = true) {c : Char}
    {rest : List Char} (hhead : digits = c :: rest) (hc : c.toNat - '0'.toNat ≠ 0) {i : ℕ}
    (hi : 0 < i) (hlt : i < digits.length) :
    (start negative).read (digits.take i ++ '.' :: digits.drop i) =
      some ⟨negative, .frac, Nat.ofDigitChars 10 digits 0, digits.length - i, false, 0⟩ := by
  have htake : ∀ c ∈ digits.take i, c.isDigit = true := fun c hc =>
    hdigits c (List.mem_of_mem_take hc)
  have hdrop : ∀ c ∈ digits.drop i, c.isDigit = true := fun c hc =>
    hdigits c (List.mem_of_mem_drop hc)
  have hne : digits.drop i ≠ [] := by
    rw [Ne, List.drop_eq_nil_iff]
    omega
  have hfirst : digits.take i = c :: rest.take (i - 1) := by
    obtain ⟨j, rfl⟩ : ∃ j, i = j + 1 := ⟨i - 1, by omega⟩
    rw [hhead]
    rfl
  rw [read_append, read_start negative htake hfirst hc, Option.bind_some,
    read_point negative hdrop hne _ _ (.inl rfl), ← Nat.ofDigitChars_append,
    List.take_append_drop, List.length_drop]

/-- The value of a numeral, by where its point stands. -/
theorem value?_eq {n : Numeral} (hphase : n.phase = .int ∨ n.phase = .frac ∨ n.phase = .expDigits)
    {d : Decimal} (hmantissa : n.mantissa = d.s) (hexponent :
      (if n.expNegative then -(n.exponent : ℤ) else n.exponent) - n.fraction = d.n - d.k) :
    n.value? = some ((if n.negative then -1 else 1) * d.value) := by
  rw [Decimal.value, ← hexponent, ← hmantissa, ← mul_assoc]
  rcases hphase with hn | hn | hn <;> simp only [value?, hn]

theorem isDigit_toDigits (m : ℕ) : ∀ c ∈ Nat.toDigits 10 m, c.isDigit = true :=
  fun _ hc => Nat.isDigit_of_mem_toDigits (by decide) (by decide) hc

theorem isDigit_zeros (m : ℕ) : ∀ c ∈ List.replicate m '0', c.isDigit = true := by
  intro c hc
  rw [List.eq_of_mem_replicate hc]
  rfl

/-- The text is read as a numeral of this value. -/
def ReadsAs (negative : Bool) (text : List Char) (d : Decimal) : Prop :=
  ∃ n, (start negative).read text = some n ∧
    n.value? = some ((if negative then -1 else 1) * d.value)

section

variable {d : Decimal}

theorem read_digits (hd : d.WellFormed) :
    (start negative).read (Nat.toDigits 10 d.s) = some ⟨negative, .int, d.s, 0, false, 0⟩ := by
  have hpos : 0 < d.s := Nat.lt_of_lt_of_le (by positivity) hd.lower
  obtain ⟨c, rest, hhead, hc⟩ := exists_toDigits hpos
  rw [read_start negative (isDigit_toDigits d.s) hhead hc, Nat.ofDigitChars_ten_toDigits]

theorem read_digits_split (hd : d.WellFormed) {i : ℕ} (hi : 0 < i) (hlt : i < d.k) :
    (start negative).read ((Nat.toDigits 10 d.s).take i ++ '.' :: (Nat.toDigits 10 d.s).drop i) =
      some ⟨negative, .frac, d.s, d.k - i, false, 0⟩ := by
  have hpos : 0 < d.s := Nat.lt_of_lt_of_le (by positivity) hd.lower
  obtain ⟨c, rest, hhead, hc⟩ := exists_toDigits hpos
  have hlt' : i < (Nat.toDigits 10 d.s).length := hd.length_toDigits ▸ hlt
  rw [read_split negative (isDigit_toDigits d.s) hhead hc hi hlt', Nat.ofDigitChars_ten_toDigits,
    hd.length_toDigits]

/-- Zeros up to the point. -/
theorem readsAs_whole (hd : d.WellFormed) (hle : d.k ≤ d.n) :
    ReadsAs negative (Nat.toDigits 10 d.s ++ List.replicate (d.n - d.k).toNat '0') d := by
  refine ⟨⟨negative, .int, 10 ^ (d.n - d.k).toNat * d.s, 0, false, 0⟩, ?_, ?_⟩
  · rw [read_append, read_digits negative hd, Option.bind_some, read_int _ (isDigit_zeros _),
      Nat.ofDigitChars_replicate_zero]
  · obtain ⟨j, hj⟩ := Int.eq_ofNat_of_zero_le (sub_nonneg.mpr hle)
    have hcast : ((10 ^ j * d.s : ℕ) : ℚ) = d.s * 10 ^ j := by
      push_cast
      ring
    simp only [value?, Decimal.value, hj, Int.toNat_natCast, zpow_natCast, Bool.false_eq_true,
      if_false, Nat.cast_zero, sub_zero, zpow_zero, mul_one, hcast]

/-- The point between the digits. -/
theorem readsAs_between (hd : d.WellFormed) (hpos : 0 < d.n) (hlt : d.n < d.k) :
    ReadsAs negative
      ((Nat.toDigits 10 d.s).take d.n.toNat ++ '.' :: (Nat.toDigits 10 d.s).drop d.n.toNat) d := by
  refine ⟨⟨negative, .frac, d.s, d.k - d.n.toNat, false, 0⟩,
    read_digits_split negative hd (by omega) (by omega), value?_eq (.inr (.inl rfl)) rfl ?_⟩
  simp only [Bool.false_eq_true, if_false]
  omega

/-- Zeros behind the point. -/
theorem readsAs_small (hd : d.WellFormed) (hle : d.n ≤ 0) :
    ReadsAs negative
      ('0' :: '.' :: (List.replicate (-d.n).toNat '0' ++ Nat.toDigits 10 d.s)) d := by
  have hzero : (start negative).step '0' = some ⟨negative, .zero, 0, 0, false, 0⟩ := rfl
  have hdigits : ∀ c ∈ List.replicate (-d.n).toNat '0' ++ Nat.toDigits 10 d.s,
      c.isDigit = true := fun c hc =>
    (List.mem_append.mp hc).elim (isDigit_zeros _ c) (isDigit_toDigits _ c)
  refine ⟨⟨negative, .frac, d.s, (-d.n).toNat + d.k, false, 0⟩, ?_,
    value?_eq (.inr (.inl rfl)) rfl ?_⟩
  · rw [read_of_step hzero,
      read_point negative hdigits (by simp [Nat.toDigits_ne_nil]) _ _ (.inr rfl),
      Nat.ofDigitChars_append, Nat.ofDigitChars_replicate_zero, Nat.mul_zero,
      Nat.ofDigitChars_ten_toDigits, List.length_append, List.length_replicate,
      hd.length_toDigits]
  · simp only [Bool.false_eq_true, if_false]
    omega

/-- An exponent behind one digit. -/
theorem readsAs_exponent (hd : d.WellFormed) (hone : d.k = 1) :
    ReadsAs negative (Nat.toDigits 10 d.s ++ Decimal.exponentText (d.n - 1)) d := by
  refine ⟨⟨negative, .expDigits, d.s, 0, decide (d.n - 1 < 0), (d.n - 1).natAbs⟩, ?_,
    value?_eq (.inr (.inr rfl)) rfl ?_⟩
  · rw [read_append, read_digits negative hd, Option.bind_some]
    exact read_exponent negative _ _ _ _ (.inl rfl)
  · simp only [decide_eq_true_eq]
    split <;> omega

/-- An exponent behind a digit, a point and the other digits. -/
theorem readsAs_fraction_exponent (hd : d.WellFormed) (hlt : 1 < d.k) :
    ReadsAs negative ((Nat.toDigits 10 d.s).take 1 ++
      '.' :: ((Nat.toDigits 10 d.s).drop 1 ++ Decimal.exponentText (d.n - 1))) d := by
  refine ⟨⟨negative, .expDigits, d.s, d.k - 1, decide (d.n - 1 < 0), (d.n - 1).natAbs⟩, ?_,
    value?_eq (.inr (.inr rfl)) rfl ?_⟩
  · rw [← List.cons_append, ← List.append_assoc, read_append,
      read_digits_split negative hd one_pos hlt, Option.bind_some]
    exact read_exponent negative _ _ _ _ (.inr rfl)
  · simp only [decide_eq_true_eq]
    split <;> omega

/-- The text of a decimal is read as its value. -/
theorem readsAs_text (hd : d.WellFormed) : ReadsAs negative d.text d := by
  have hk := hd.pos
  unfold Decimal.text
  simp only
  split
  · next hform => exact readsAs_whole negative hd hform.1
  next hwhole =>
  split
  · next hform => exact readsAs_between negative hd hform.1 (by omega)
  next hbetween =>
  split
  · next hform => exact readsAs_small negative hd hform.2
  next hsmall =>
  split
  · next hone => exact readsAs_exponent negative hd hone
  · next hmore => exact readsAs_fraction_exponent negative hd (by omega)

end

end Numeral

/-! ### Values -/

/-- The machine has come to the end of `v`; a numeral could still go on. -/
def Mode.Holds (m : Mode) (v : Value) : Prop :=
  m = .done v ∨ ∃ n q, m = .number n ∧ n.value? = some q ∧ v = .num (.ofRat q)

/-- From wherever a value is due, the text leads to the end of `v`. -/
def Reads (text : List Char) (v : Value) : Prop :=
  ∀ closable stack, ∃ m, run (.value closable, stack) text = some (m, stack) ∧ m.Holds v

theorem Mode.Holds.finish {m : Mode} {v : Value} (h : m.Holds v) : finish (m, []) = some v := by
  rcases h with rfl | ⟨n, q, rfl, hq, rfl⟩
  · rfl
  · show n.value?.map _ = _
    rw [hq]
    rfl

/-- A character that no numeral goes on with is read as what follows the value. -/
theorem Mode.Holds.step {m : Mode} {v : Value} (h : m.Holds v) {c : Char}
    (hc : ∀ n : Numeral, n.step c = none) (stack : List Frame) :
    step (m, stack) c = afterValue v stack c := by
  rcases h with rfl | ⟨n, q, rfl, hq, rfl⟩
  · rfl
  · simp only [JSON.step, hc, hq, Option.bind_some]

theorem reads_null : Reads "null".toList .null := fun _ _ => ⟨_, rfl, .inl rfl⟩

theorem reads_bool (b : Bool) : Reads (if b then "true".toList else "false".toList) (.bool b) := by
  cases b
  · exact fun _ _ => ⟨_, rfl, .inl rfl⟩
  · exact fun _ _ => ⟨_, rfl, .inl rfl⟩

theorem reads_quote (s : JsString) : Reads (quote s) (.str s) := by
  intro closable stack
  have hopen : step (.value closable, stack) '"' = some (.string .value [], stack) := rfl
  refine ⟨_, ?_, .inl rfl⟩
  rw [quote, run_of_step hopen, run_quote]
  rfl

/-- A numeral that is being read stays one. -/
theorem run_number {n n' : Numeral} {t : List Char} (h : n.read t = some n') (stack : List Frame) :
    run (.number n, stack) t = some (.number n', stack) := by
  induction t generalizing n with
  | nil =>
      obtain rfl := Option.some.inj h
      rfl
  | cons c t ih =>
      rw [Numeral.read, List.foldlM_cons] at h
      obtain ⟨n₁, hstep, hrest⟩ := Option.bind_eq_some_iff.mp h
      have hrun : step (.number n, stack) c = some (.number n₁, stack) := by
        simp only [step, hstep]
      rw [run_of_step hrun, ih hrest]

/-- A numeral without a sign, from its first digit. -/
theorem run_numeral {n : Numeral} {q : ℚ} {t : List Char}
    (h : (Numeral.start false).read t = some n) (hq : n.value? = some q) (closable : Bool)
    (stack : List Frame) :
    run (.value closable, stack) t = some (.number n, stack) := by
  cases t with
  | nil =>
      obtain rfl := Option.some.inj h
      cases hq
  | cons c t =>
      rw [Numeral.read, List.foldlM_cons] at h
      obtain ⟨n₁, hstep, hrest⟩ := Option.bind_eq_some_iff.mp h
      have hdigit : c.isDigit = true := by
        by_contra hno
        rw [Numeral.step, if_neg hno] at hstep
        simp only [Numeral.start] at hstep
        split_ifs at hstep
      have hne : ∀ x : Char, x.isDigit = false → c ≠ x := by
        intro x hx heq
        rw [heq, hx] at hdigit
        cases hdigit
      have hspace : isSpace c = false := by
        simp [isSpace, hne ' ' rfl, hne '\t' rfl, hne '\n' rfl, hne '\r' rfl]
      have hrun : step (.value closable, stack) c = some (.number n₁, stack) := by
        simp only [step, hspace, startValue, hne ']' rfl, hne '{' rfl, hne '[' rfl, hne '"' rfl,
          hne 'n' rfl, hne 't' rfl, hne 'f' rfl, hne '-' rfl, hstep, false_and, if_false,
          Bool.false_eq_true, Option.map_some]
      rw [run_of_step hrun, run_number hrest]

theorem NumberValue.eq_ofRat {n : NumberValue} {q : ℚ} (h : Double.round q = n.number) :
    n = .ofRat q := by
  cases n
  cases h
  rfl

/-- A finite number is read back. -/
theorem reads_finiteText {n : NumberValue} {q : ℚ} (hn : n.number = .finite q) :
    Reads (format.finiteText q) (.num n) := by
  intro closable stack
  have hdouble := n.isDouble q hn
  -- it is enough that the numeral's value rounds to the number
  have hnum : ∀ {num : Numeral} {r : ℚ}, num.value? = some r → Double.round r = .finite q →
      (Mode.number num).Holds (.num n) := fun hvalue hround =>
    .inr ⟨_, _, rfl, hvalue, congrArg Value.num (NumberValue.eq_ofRat (hround.trans hn.symm))⟩
  rcases lt_trichotomy q 0 with hneg | rfl | hpos
  · have hshort := format.shortest (-q) hdouble.neg (neg_pos.mpr hneg)
    obtain ⟨num, hread, hvalue⟩ := Numeral.readsAs_text true hshort.wellFormed
    have hround := Double.round_neg hshort.wellFormed.value_pos hshort.rounds
    have hsign : step (.value closable, stack) '-' = some (.number (.start true), stack) := rfl
    rw [NumberFormat.finiteText, if_neg hneg.ne, if_pos hneg, run_of_step hsign]
    exact ⟨_, run_number hread stack, hnum hvalue (by simpa using hround)⟩
  · have hread : (Numeral.start false).read ['0'] = some ⟨false, .zero, 0, 0, false, 0⟩ := rfl
    have hvalue : Numeral.value? ⟨false, .zero, 0, 0, false, 0⟩ = some 0 := by
      simp [Numeral.value?]
    rw [NumberFormat.finiteText, if_pos rfl]
    exact ⟨_, run_numeral hread hvalue closable stack, hnum hvalue Double.round_zero⟩
  · have hshort := format.shortest q hdouble hpos
    obtain ⟨num, hread, hvalue⟩ := Numeral.readsAs_text false hshort.wellFormed
    rw [format.finiteText_of_pos hpos]
    exact ⟨_, run_numeral hread hvalue closable stack,
      hnum hvalue (by simpa using hshort.rounds)⟩

/-! ### Arrays and objects -/

/-- From one element on, an array is read to its end. -/
theorem run_elements {text : List Char} {texts : List (List Char)} {v : Value} {vs : List Value}
    (h : Reads text v) (hs : List.Forall₂ Reads texts vs) (closable : Bool)
    (elements : List Value) (stack : List Frame) :
    run (.value closable, .array elements :: stack)
        ([','].intercalate (text :: texts) ++ [']']) =
      some (.done (.array (elements ++ v :: vs)), stack) := by
  induction hs generalizing text v closable elements with
  | nil =>
      obtain ⟨m, hrun, hm⟩ := h closable (.array elements :: stack)
      rw [List.intercalate_singleton, run_append, hrun, Option.bind_some]
      exact run_of_step (hm.step (fun _ => rfl) _) []
  | @cons text' v' texts vs h' hs ih =>
      obtain ⟨m, hrun, hm⟩ := h closable (.array elements :: stack)
      have hcomma : step (m, .array elements :: stack) ',' =
          some (.value false, .array (elements ++ [v]) :: stack) := hm.step (fun _ => rfl) _
      rw [List.intercalate_cons_cons, List.append_assoc, List.append_assoc, run_append, hrun,
        Option.bind_some, List.singleton_append, run_of_step hcomma, ih h', List.append_assoc]
      rfl

theorem reads_array {texts : List (List Char)} {vs : List Value} (h : List.Forall₂ Reads texts vs) :
    Reads ('[' :: ([','].intercalate texts ++ [']'])) (.array vs) := by
  intro closable stack
  have hopen : step (.value closable, stack) '[' = some (.value true, .array [] :: stack) := rfl
  refine ⟨_, ?_, .inl rfl⟩
  rw [run_of_step hopen]
  cases h with
  | nil => rfl
  | cons h hs => exact run_elements h hs true [] stack

/-- A member of an object and its text. -/
def ReadsMember (text : List Char) (m : JsString × Value) : Prop :=
  ∃ value, text = quote m.1 ++ ':' :: value ∧ Reads value m.2

/-- Behind an opening brace or a comma, the machine reads a member. -/
theorem ReadsMember.run {text : List Char} {m : JsString × Value} (h : ReadsMember text m)
    (closable : Bool) (members : List (JsString × Value)) (stack : List Frame) :
    ∃ mode, run (.key closable members, stack) text = some (mode, .object members m.1 :: stack) ∧
      mode.Holds m.2 := by
  obtain ⟨value, rfl, hvalue⟩ := h
  obtain ⟨mode, hrun, hmode⟩ := hvalue false (.object members m.1 :: stack)
  have hopen : step (.key closable members, stack) '"' =
      some (.string (.key members) [], stack) := rfl
  have hcolon : step (.colon members m.1, stack) ':' =
      some (.value false, .object members m.1 :: stack) := rfl
  refine ⟨mode, ?_, hmode⟩
  rw [quote, List.cons_append, run_of_step hopen, run_append, run_quote, Option.bind_some]
  exact (run_of_step hcolon value).trans hrun

/-- From one member on, an object is read to its end. -/
theorem run_members {text : List Char} {texts : List (List Char)} {m : JsString × Value}
    {ms : List (JsString × Value)} (h : ReadsMember text m)
    (hs : List.Forall₂ ReadsMember texts ms) (closable : Bool)
    (members : List (JsString × Value)) (stack : List Frame) :
    run (.key closable members, stack) ([','].intercalate (text :: texts) ++ ['}']) =
      some (.done (.object ((m :: ms).foldl (fun acc m => createDataProperty acc m.1 m.2) members)),
        stack) := by
  induction hs generalizing text m closable members with
  | nil =>
      obtain ⟨mode, hrun, hmode⟩ := h.run closable members stack
      rw [List.intercalate_singleton, run_append, hrun, Option.bind_some]
      exact run_of_step (hmode.step (fun _ => rfl) _) []
  | @cons text' m' texts ms h' hs ih =>
      obtain ⟨mode, hrun, hmode⟩ := h.run closable members stack
      have hcomma : step (mode, .object members m.1 :: stack) ',' =
          some (.key false (createDataProperty members m.1 m.2), stack) :=
        hmode.step (fun _ => rfl) _
      rw [List.intercalate_cons_cons, List.append_assoc, List.append_assoc, run_append, hrun,
        Option.bind_some, List.singleton_append, run_of_step hcomma, ih h']
      rfl

theorem reads_object {texts : List (List Char)} {ms : List (JsString × Value)}
    (h : List.Forall₂ ReadsMember texts ms) :
    Reads ('{' :: ([','].intercalate texts ++ ['}'])) (.ofMembers ms) := by
  intro closable stack
  have hopen : step (.value closable, stack) '{' = some (.key true [], stack) := rfl
  refine ⟨_, ?_, .inl rfl⟩
  rw [run_of_step hopen]
  cases h with
  | nil => rfl
  | cons h hs => exact run_members h hs true [] stack

/-! ### The round trip -/

/-- Two computations that both succeed, with related results, or throw the same error. -/
inductive Agree {A B : Type} (R : A → B → Prop) : Except Error A → Except Error B → Prop
  | ok {a : A} {b : B} : R a b → Agree R (.ok a) (.ok b)
  | error (e : Error) : Agree R (.error e) (.error e)

theorem Agree.bind {A A' B B' : Type} {R : A → B → Prop} {R' : A' → B' → Prop}
    {x : Except Error A} {y : Except Error B} {f : A → Except Error A'} {g : B → Except Error B'}
    (h : Agree R x y) (hfg : ∀ {a b}, R a b → Agree R' (f a) (g b)) :
    Agree R' (x >>= f) (y >>= g) := by
  cases h with
  | ok hab => exact hfg hab
  | error e => exact .error e

theorem reads_numberText (n : NumberValue) :
    Reads (numberText format n) (match n.number with
      | .finite _ => .num n
      | _ => .null) := by
  unfold numberText
  cases hn : n.number with
  | finite q => exact reads_finiteText hn
  | nan => exact reads_null
  | infinity => exact reads_null
  | negInfinity => exact reads_null

mutual

/-- The text of a value is read as its normal form, and a value has the one if it has the
other. -/
theorem agree_serialize : ∀ v asked,
    Agree (Option.Rel Reads) (serialize format v asked) (normalForm v asked)
  | .undefined, _ | .symbol, _ | .function, _ => .ok .none
  | .null, _ => .ok (.some reads_null)
  | .bool b, _ => .ok (.some (reads_bool b))
  | .num n, _ => .ok (.some (reads_numberText n))
  | .str s, _ => .ok (.some (reads_quote s))
  | .bigint, _ | .cycle, _ => .error .typeError
  | .throws, _ => .error .thrown
  | .boxed primitive, _ => agree_serialize primitive true
  | .toJSON _ itself, true => agree_serialize itself true
  | .toJSON result _, false => agree_serialize result true
  | .array elements, _ => (agree_elements elements).bind fun h => .ok (.some (reads_array h))
  | .object members, _ => (agree_members members).bind fun h => .ok (.some (reads_object h))

theorem agree_elements : ∀ elements, Agree (List.Forall₂ Reads)
    (serializeElements format elements) (normalElements elements)
  | [] => .ok .nil
  | v :: elements => (agree_serialize v false).bind fun h =>
      (agree_elements elements).bind fun hs => .ok <| by
        cases h with
        | none => exact .cons reads_null hs
        | some h => exact .cons h hs

theorem agree_members : ∀ members, Agree (List.Forall₂ ReadsMember)
    (serializeMembers format members) (normalMembers members)
  | [] => .ok .nil
  | (key, v) :: members => (agree_serialize v false).bind fun h =>
      (agree_members members).bind fun hs => by
        cases h with
        | none => exact .ok hs
        | some h => exact .ok (.cons ⟨_, rfl, h⟩ hs)

end

/-- A text that is read as a value, parsed. -/
theorem Reads.parse {text : List Char} {v : Value} (h : Reads text v) : parse text = .ok v := by
  obtain ⟨m, hrun, hm⟩ := h false []
  rw [JSON.parse, hrun, Option.bind_some, hm.finish]

/-- `JSON.parse` reads what `JSON.stringify` writes as the normal form. -/
theorem parse_stringify {v : Value} {text : List Char}
    (h : stringify format v = .ok (some text)) :
    ∃ form, normalForm v false = .ok (some form) ∧ parse text = .ok form := by
  have hagree : Agree (Option.Rel Reads) (stringify format v) (normalForm v false) :=
    agree_serialize v false
  rw [h] at hagree
  generalize normalForm v false = x at hagree
  cases hagree with
  | ok hrel =>
      cases hrel with
      | some hreads => exact ⟨_, rfl, hreads.parse⟩

example : stringify format (.array [.undefined, .toJSON (.str [0xD800]) .function]) =
    .ok (some "[null,\"\\ud800\"]".toList) := rfl

example : parse " [ null ,\n[true, \"\\u0041\\n\"] ] ".toList =
    .ok (.array [.null, .array [.bool true, .str [0x41, 0x0A]]]) := rfl

end EmailPlatform.JSON
