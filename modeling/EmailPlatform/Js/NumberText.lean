import EmailPlatform.Js.Double

/-!
# EmailPlatform.Js.NumberText

How a number becomes a text. ECMAScript takes the fewest decimal digits that are read back
as the number, and leaves the choice between several such numerals to the engine: a
`NumberFormat` is one choice. Where the point stands decides between the plain forms and
the one with an exponent.
-/

namespace EmailPlatform

open Double (IsDouble round_eq_self two_zpow_pos)

/-- `s * 10 ^ (n - k)`: the `k` digits of `s`, with the point behind the `n`-th. -/
structure Decimal where
  s : ℕ
  k : ℕ
  n : ℤ
  deriving DecidableEq, Repr

namespace Decimal

/-- Its value. -/
def value (d : Decimal) : ℚ := d.s * 10 ^ (d.n - d.k)

/-- `s` has `k` digits. -/
structure WellFormed (d : Decimal) : Prop where
  pos : 1 ≤ d.k
  lower : 10 ^ (d.k - 1) ≤ d.s
  upper : d.s < 10 ^ d.k

/-- The exponent of a numeral, with its sign. -/
def exponentText (e : ℤ) : List Char :=
  'e' :: (if e < 0 then '-' else '+') :: Nat.toDigits 10 e.natAbs

/-- The text of a numeral. -/
def text (d : Decimal) : List Char :=
  let digits := Nat.toDigits 10 d.s
  if d.k ≤ d.n ∧ d.n ≤ 21 then digits ++ List.replicate (d.n - d.k).toNat '0'
  else if 0 < d.n ∧ d.n ≤ 21 then digits.take d.n.toNat ++ '.' :: digits.drop d.n.toNat
  else if -6 < d.n ∧ d.n ≤ 0 then '0' :: '.' :: (List.replicate (-d.n).toNat '0' ++ digits)
  else if d.k = 1 then digits ++ exponentText (d.n - 1)
  else digits.take 1 ++ '.' :: (digits.drop 1 ++ exponentText (d.n - 1))

/-- The numeral is one of the shortest that are read as `x`. -/
structure Shortest (x : ℚ) (d : Decimal) : Prop where
  wellFormed : d.WellFormed
  rounds : Double.round d.value = .finite x
  least : ∀ d' : Decimal, d'.WellFormed → Double.round d'.value = .finite x → d.k ≤ d'.k

/-- The digits of a natural number with the point `j` places from the right. -/
def ofNat (s j : ℕ) : Decimal :=
  ⟨s, (Nat.toDigits 10 s).length, (Nat.toDigits 10 s).length - j⟩

theorem wellFormed_ofNat {s : ℕ} (hs : 0 < s) (j : ℕ) : (ofNat s j).WellFormed := by
  have hpos : 0 < (Nat.toDigits 10 s).length := Nat.length_toDigits_pos
  refine ⟨hpos, ?_, (Nat.length_toDigits_le_iff (by decide) hpos).mp le_rfl⟩
  show 10 ^ ((Nat.toDigits 10 s).length - 1) ≤ s
  by_contra! hlt
  rcases Nat.eq_zero_or_pos ((Nat.toDigits 10 s).length - 1) with hzero | hone
  · rw [hzero] at hlt
    omega
  · have hle := (Nat.length_toDigits_le_iff (by decide) hone).mpr hlt
    omega

@[simp] theorem value_ofNat (s j : ℕ) : (ofNat s j).value = s / 10 ^ j := by
  have hexp : ((Nat.toDigits 10 s).length : ℤ) - j - (Nat.toDigits 10 s).length = -j := by ring
  show (s : ℚ) * 10 ^ (((Nat.toDigits 10 s).length : ℤ) - j - (Nat.toDigits 10 s).length) = _
  rw [hexp, zpow_neg, zpow_natCast, div_eq_mul_inv]

theorem WellFormed.value_pos {d : Decimal} (h : d.WellFormed) : 0 < d.value := by
  have hs : 0 < d.s := Nat.lt_of_lt_of_le (by positivity) h.lower
  have hs' : (0 : ℚ) < d.s := by exact_mod_cast hs
  exact mul_pos hs' (zpow_pos (by norm_num) _)

/-- The digits of `s` are as many as it says. -/
theorem WellFormed.length_toDigits {d : Decimal} (h : d.WellFormed) :
    (Nat.toDigits 10 d.s).length = d.k := by
  have hle := (Nat.length_toDigits_le_iff (by decide) h.pos).mpr h.upper
  refine le_antisymm hle (Nat.le_of_not_lt fun hlt => ?_)
  have hpos : 0 < (Nat.toDigits 10 d.s).length := Nat.length_toDigits_pos
  have hupper := (Nat.length_toDigits_le_iff (by decide) hpos).mp le_rfl
  have hmono : 10 ^ (Nat.toDigits 10 d.s).length ≤ 10 ^ (d.k - 1) :=
    Nat.pow_le_pow_right (by decide) (by omega)
  exact absurd (hupper.trans_le (hmono.trans h.lower)) (lt_irrefl _)

end Decimal

/-! ### Numerals of whole numbers -/

/-- The doubles next to a whole number of at most eight digits that are needed here. -/
theorem isDouble_beside {N : ℕ} (hN8 : N < 10 ^ 8) :
    IsDouble (N - 1 / 2 ^ 24) ∧ IsDouble (N + 1 / 2 ^ 24) := by
  have hN : (N : ℤ) < 10 ^ 8 := by exact_mod_cast hN8
  have hlow := Double.isDouble_div_two_pow (m := N * 2 ^ 24 - 1) (k := 24)
    (abs_lt.mpr ⟨by omega, by omega⟩) (by decide)
  have hhigh := Double.isDouble_div_two_pow (m := N * 2 ^ 24 + 1) (k := 24)
    (abs_lt.mpr ⟨by omega, by omega⟩) (by decide)
  constructor
  · convert hlow using 1
    push_cast
    ring
  · convert hhigh using 1
    push_cast
    ring

/-- A short numeral that is read as a whole number of at most eight digits is that number. -/
theorem eq_of_round_eq_natCast {N S j : ℕ} (hN : 0 < N) (hN8 : N < 10 ^ 8) (hj : j ≤ 7)
    (h : Double.round (S / 10 ^ j) = .finite N) : S = N * 10 ^ j := by
  have hten : (0 : ℚ) < 10 ^ j := by positivity
  have hten7 : (10 : ℚ) ^ j ≤ 2 ^ 24 :=
    (pow_le_pow_right₀ (by norm_num) hj).trans (by norm_num)
  have hgap : (1 : ℚ) / 2 ^ 24 ≤ 1 / 10 ^ j := one_div_le_one_div_of_le hten hten7
  have hgap0 : (0 : ℚ) < 1 / 2 ^ 24 := by positivity
  have hS : 0 < S := by
    refine Nat.pos_of_ne_zero fun hS => ?_
    rw [hS, Nat.cast_zero, zero_div, Double.round_zero] at h
    have hN0 : (N : ℚ) = 0 := (JsNumber.finite.inj h).symm
    exact hN.ne' (by exact_mod_cast hN0)
  have hpos : (0 : ℚ) < S / 10 ^ j := div_pos (by exact_mod_cast hS) hten
  have hN10 : (N : ℚ) = (N * 10 ^ j : ℕ) / 10 ^ j := by
    push_cast
    rw [mul_div_cancel_right₀ _ hten.ne']
  rcases Nat.lt_trichotomy S (N * 10 ^ j) with hlt | heq | hgt
  · -- the numeral is at most the double just below
    exfalso
    have hstep : (S : ℚ) / 10 ^ j + 1 / 10 ^ j ≤ N := by
      rw [hN10, ← add_div]
      exact div_le_div_of_nonneg_right (by exact_mod_cast hlt) hten.le
    obtain ⟨q, hq, hle⟩ := Double.round_le hpos (isDouble_beside hN8).1 (by linarith)
    obtain rfl := JsNumber.finite.inj (h.symm.trans hq)
    linarith
  · exact heq
  · exfalso
    have hstep : (N : ℚ) + 1 / 10 ^ j ≤ S / 10 ^ j := by
      rw [hN10, ← add_div]
      exact div_le_div_of_nonneg_right (by exact_mod_cast hgt) hten.le
    have hle := Double.le_round hpos (isDouble_beside hN8).2 (by linarith) h
    linarith

/-- Below one, a short numeral is not read as a whole number. -/
theorem round_ne_natCast {N S k : ℕ} (hN : 0 < N) (hk : k ≤ 8) (hlt : S < 10 ^ k)
    {x : ℚ} (hx : 0 < x) (hle : x ≤ S / 10 ^ k) : Double.round x ≠ .finite N := by
  intro h
  have hten : (0 : ℚ) < 10 ^ k := by positivity
  have hten8 : (10 : ℚ) ^ k ≤ 2 ^ 27 :=
    (pow_le_pow_right₀ (by norm_num) hk).trans (by norm_num)
  have hgap : (1 : ℚ) / 2 ^ 27 ≤ 1 / 10 ^ k := one_div_le_one_div_of_le hten hten8
  have hgap0 : (0 : ℚ) < 1 / 2 ^ 27 := by positivity
  have hone : (S : ℚ) / 10 ^ k + 1 / 10 ^ k ≤ 1 := by
    rw [← add_div, div_le_one hten]
    exact_mod_cast hlt
  have hN1 : (1 : ℚ) ≤ N := by exact_mod_cast hN
  have hdouble : IsDouble (1 - 1 / 2 ^ 27) := by
    have hd := Double.isDouble_div_two_pow (m := 2 ^ 27 - 1) (k := 27) (by norm_num) (by decide)
    convert hd using 1
    norm_num
  obtain ⟨q, hq, hqle⟩ := Double.round_le hx hdouble (by linarith)
  obtain rfl := JsNumber.finite.inj (h.symm.trans hq)
  linarith

/-- A shortest numeral has no zero at its end. -/
theorem Decimal.Shortest.not_dvd {x : ℚ} {d : Decimal} (h : d.Shortest x) (hk : 2 ≤ d.k) :
    ¬ 10 ∣ d.s := by
  intro ⟨s, hs⟩
  obtain ⟨i, hi⟩ : ∃ i, d.k = i + 2 := ⟨d.k - 2, by omega⟩
  have hlower : 10 ^ (i + 1) ≤ 10 * s := by simpa [hs, hi] using h.wellFormed.lower
  have hupper : 10 * s < 10 ^ (i + 2) := by simpa [hs, hi] using h.wellFormed.upper
  have hpow : 10 ^ (i + 1) = 10 * 10 ^ i := by ring
  have hpow' : 10 ^ (i + 2) = 10 * 10 ^ (i + 1) := by ring
  have hshorter : (⟨s, i + 1, d.n⟩ : Decimal).WellFormed :=
    ⟨Nat.succ_pos i, by simp only [Nat.add_sub_cancel]; omega, by simp only; omega⟩
  have hvalue : (⟨s, i + 1, d.n⟩ : Decimal).value = d.value := by
    have hexp : d.n - (i + 1 : ℕ) = (d.n - (i + 2 : ℕ)) + 1 := by omega
    simp only [Decimal.value, hs, hi]
    rw [hexp, zpow_add_one₀ (by norm_num)]
    push_cast
    ring
  have hleast := h.least _ hshorter (hvalue ▸ h.rounds)
  simp only at hleast
  omega

/-- The shortest numerals of a whole number of at most eight digits have its value, and the
point stands behind the last digit or further to the right. -/
theorem Decimal.Shortest.whole {N : ℕ} {d : Decimal} (h : d.Shortest N) (hN : 0 < N)
    (hN8 : N < 10 ^ 8) : d.k ≤ d.n ∧ d.s * 10 ^ (d.n - d.k).toNat = N := by
  have hwf := h.wellFormed
  have hspos : 0 < d.s := Nat.lt_of_lt_of_le (by positivity) hwf.lower
  -- the digits of `N` bound the length
  have hk8 : d.k ≤ 8 := by
    have hNdouble : IsDouble N := Double.isDouble_natCast (by omega)
    have hround : Double.round (Decimal.ofNat N 0).value = .finite N := by
      rw [Decimal.value_ofNat, pow_zero, div_one, round_eq_self hNdouble]
    exact (h.least _ (Decimal.wellFormed_ofNat hN 0) hround).trans
      ((Nat.length_toDigits_le_iff (by decide) (by decide)).mpr hN8)
  have hround := h.rounds
  rcases le_or_gt (d.k : ℤ) d.n with hkn | hnk
  · obtain ⟨t, ht⟩ := Int.eq_ofNat_of_zero_le (sub_nonneg.mpr hkn)
    rw [Decimal.value, ht, zpow_natCast] at hround
    rw [ht]
    have hwhole := eq_of_round_eq_natCast (S := d.s * 10 ^ t) hN hN8 (Nat.zero_le 7)
      (by push_cast; rwa [pow_zero, div_one])
    rw [pow_zero, mul_one] at hwhole
    exact ⟨hkn, hwhole⟩
  · exfalso
    obtain ⟨j, hj⟩ := Int.eq_ofNat_of_zero_le (sub_nonneg.mpr hnk.le)
    have hneg : d.n - d.k = -(j : ℤ) := by omega
    have hvalue : d.value = d.s / 10 ^ j := by
      rw [Decimal.value, hneg, zpow_neg, zpow_natCast, div_eq_mul_inv]
    rw [hvalue] at hround
    rcases le_or_gt 1 d.n with hn | hn
    · -- the last digit is a zero, and the numeral without it is shorter
      obtain ⟨i, rfl⟩ : ∃ i, j = i + 1 := ⟨j - 1, by omega⟩
      have hs := eq_of_round_eq_natCast hN hN8 (by omega) hround
      exact h.not_dvd (by omega) ⟨N * 10 ^ i, by rw [hs, pow_succ]; ring⟩
    · have hpow : (d.s : ℚ) / 10 ^ j ≤ d.s / 10 ^ d.k :=
        div_le_div_of_nonneg_left (by positivity) (by positivity)
          (pow_le_pow_right₀ (by norm_num) (by omega))
      exact round_ne_natCast hN hk8 hwf.upper (by positivity) hpow hround

/-- A double is a numeral. -/
theorem Double.IsDouble.exists_eq_div {x : ℚ} (hx : IsDouble x) (hpos : 0 < x) :
    ∃ s j : ℕ, 0 < s ∧ x = s / 10 ^ j := by
  obtain ⟨m, e, -, -, -, rfl⟩ := hx
  have hm : 0 < m := by
    have hm' : (0 : ℚ) < m := pos_of_mul_pos_left hpos (two_zpow_pos e).le
    exact_mod_cast hm'
  obtain ⟨a, rfl⟩ := Int.eq_ofNat_of_zero_le hm.le
  have ha : 0 < a := by exact_mod_cast hm
  rcases le_or_gt 0 e with he | he
  · obtain ⟨j, rfl⟩ := Int.eq_ofNat_of_zero_le he
    exact ⟨a * 2 ^ j, 0, by positivity, by push_cast; rw [zpow_natCast]; simp⟩
  · obtain ⟨j, hj⟩ := Int.eq_ofNat_of_zero_le (neg_nonneg.mpr he.le)
    refine ⟨a * 5 ^ j, j, by positivity, ?_⟩
    have he' : e = -j := by omega
    have hten : (10 : ℚ) ^ j = 2 ^ j * 5 ^ j := by rw [← mul_pow]; norm_num
    rw [he', zpow_neg, zpow_natCast, hten]
    push_cast
    field_simp

/-- There is a shortest numeral of every positive double. -/
theorem exists_shortest {x : ℚ} (hx : IsDouble x) (hpos : 0 < x) :
    ∃ d, Decimal.Shortest x d := by
  classical
  have hex : ∃ k, ∃ d : Decimal, d.WellFormed ∧ Double.round d.value = .finite x ∧ d.k = k := by
    obtain ⟨s, j, hs, heq⟩ := hx.exists_eq_div hpos
    refine ⟨_, .ofNat s j, Decimal.wellFormed_ofNat hs j, ?_, rfl⟩
    rw [Decimal.value_ofNat, ← heq, round_eq_self hx]
  obtain ⟨d, hwf, hround, hk⟩ := Nat.find_spec hex
  exact ⟨d, hwf, hround, fun d' hwf' hround' =>
    hk ▸ Nat.find_min' hex ⟨d', hwf', hround', rfl⟩⟩

/-- An engine's choice of numerals. -/
structure NumberFormat where
  digits : ℚ → Decimal
  shortest : ∀ x, IsDouble x → 0 < x → Decimal.Shortest x (digits x)

/-- There is a choice. -/
theorem nonempty_numberFormat : Nonempty NumberFormat := by
  classical
  refine ⟨fun x => if h : IsDouble x ∧ 0 < x then (exists_shortest h.1 h.2).choose else ⟨0, 0, 0⟩,
    fun x hx hpos => ?_⟩
  rw [dif_pos ⟨hx, hpos⟩]
  exact (exists_shortest hx hpos).choose_spec

/-- Some engine's choice. -/
noncomputable def anyFormat : NumberFormat := Classical.choice nonempty_numberFormat

/-- The text of a finite number. -/
def NumberFormat.finiteText (format : NumberFormat) (x : ℚ) : List Char :=
  if x = 0 then ['0']
  else if x < 0 then '-' :: (format.digits (-x)).text
  else (format.digits x).text

/-- `Number::toString` -/
def NumberFormat.toString (format : NumberFormat) : JsNumber → List Char
  | .nan => "NaN".toList
  | .infinity => "Infinity".toList
  | .negInfinity => "-Infinity".toList
  | .finite x => format.finiteText x

theorem NumberFormat.finiteText_of_pos (format : NumberFormat) {x : ℚ} (hx : 0 < x) :
    format.finiteText x = (format.digits x).text := by
  rw [finiteText, if_neg hx.ne', if_neg hx.not_gt]

end EmailPlatform
