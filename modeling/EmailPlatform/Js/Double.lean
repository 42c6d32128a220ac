import EmailPlatform.Js.Number
import Mathlib.Algebra.Order.Field.Power
import Mathlib.Data.Int.Log
import Mathlib.Data.Rat.Floor
import Mathlib.Tactic.FieldSimp
import Mathlib.Tactic.Positivity

/-!
# EmailPlatform.Js.Double

The arithmetic of JavaScript numbers. A finite double is a rational `m * 2 ^ e` with at most
53 bits in `m`; `round` is rounding to the nearest of them, ties to even, with overflow to
the infinities.

Of rounding, two facts are used: it does not pass a double (`round_le`, `le_round`), and so
it leaves doubles alone (`round_eq_self`). The sign of a zero is not kept.
-/

namespace EmailPlatform.Double

/-- A rational is the value of a finite double. -/
def IsDouble (q : ℚ) : Prop :=
  ∃ m e : ℤ, |m| < 2 ^ 53 ∧ -1074 ≤ e ∧ e ≤ 971 ∧ q = m * 2 ^ e

/-- The nearest integer, the even one of two. -/
def roundEven (y : ℚ) : ℤ :=
  if y - ⌊y⌋ < 1 / 2 then ⌊y⌋
  else if 1 / 2 < y - ⌊y⌋ then ⌊y⌋ + 1
  else if ⌊y⌋ % 2 = 0 then ⌊y⌋ else ⌊y⌋ + 1

/-- The doubles around `x` are multiples of `2` to this power. -/
def spacing (x : ℚ) : ℤ := max (Int.log 2 x - 52) (-1074)

/-- A positive rational, rounded. -/
def roundPos (x : ℚ) : JsNumber :=
  let q : ℚ := roundEven (x / 2 ^ spacing x) * 2 ^ spacing x
  if q < 2 ^ 1024 then .finite q else .infinity

/-- A rational as a JavaScript number. -/
def round (x : ℚ) : JsNumber :=
  if 0 < x then roundPos x
  else if x < 0 then
    match roundPos (-x) with
    | .finite q => .finite (-q)
    | _ => .negInfinity
  else .finite 0

/-! ### Doubles -/

theorem two_zpow_pos (e : ℤ) : (0 : ℚ) < 2 ^ e := zpow_pos two_pos e

/-- The overflow is 53 bits above the largest spacing. -/
theorem two_pow_1024 : (2 : ℚ) ^ 53 * 2 ^ (971 : ℤ) = 2 ^ 1024 :=
  (congrArg _ (zpow_natCast 2 971)).trans (pow_add 2 53 971).symm

theorem IsDouble.neg {d : ℚ} (h : IsDouble d) : IsDouble (-d) := by
  obtain ⟨m, e, hm, hlo, hhi, rfl⟩ := h
  exact ⟨-m, e, by rwa [abs_neg], hlo, hhi, by push_cast; ring⟩

/-- A short integer is a double, and so is one over a power of two. -/
theorem isDouble_div_two_pow {m : ℤ} {k : ℕ} (hm : |m| < 2 ^ 53) (hk : k ≤ 1074) :
    IsDouble (m / 2 ^ k) := by
  refine ⟨m, -k, hm, by omega, by omega, ?_⟩
  rw [zpow_neg, zpow_natCast, div_eq_mul_inv]

theorem isDouble_intCast {m : ℤ} (hm : |m| < 2 ^ 53) : IsDouble m := by
  simpa using isDouble_div_two_pow hm (Nat.zero_le 1074)

theorem isDouble_natCast {n : ℕ} (hn : n < 2 ^ 53) : IsDouble n := by
  have h := isDouble_intCast (m := n) (by rw [abs_of_nonneg (by positivity)]; exact_mod_cast hn)
  simpa using h

/-- Doubling is exact up to the overflow. -/
theorem IsDouble.mul_two_pow {d : ℚ} (hd : IsDouble d) (h0 : 0 ≤ d) {k : ℕ}
    (h : d * 2 ^ k < 2 ^ 1024) : IsDouble (d * 2 ^ k) := by
  obtain ⟨m, e, hm, hlo, hhi, rfl⟩ := hd
  have hvalue : (m : ℚ) * 2 ^ e * 2 ^ k = m * 2 ^ (e + k) := by
    rw [zpow_add₀ two_ne_zero, zpow_natCast, mul_assoc]
  rcases le_or_gt (e + k) 971 with hle | hgt
  · exact ⟨m, e + k, hm, by omega, hle, hvalue⟩
  · obtain ⟨j, hj⟩ := Int.eq_ofNat_of_zero_le (sub_nonneg.mpr hgt.le)
    have hshift : (m : ℚ) * 2 ^ (e + k) = (m * 2 ^ j : ℤ) * 2 ^ (971 : ℤ) := by
      rw [show e + (k : ℤ) = j + 971 by omega, zpow_add₀ two_ne_zero, zpow_natCast,
        Int.cast_mul, Int.cast_pow, Int.cast_ofNat, mul_assoc]
    have hm0 : (0 : ℚ) ≤ (m * 2 ^ j : ℤ) := by
      have hm' : (0 : ℚ) ≤ m := nonneg_of_mul_nonneg_left h0 (two_zpow_pos e)
      push_cast
      positivity
    rw [hvalue, hshift, ← two_pow_1024] at h
    have hlt := lt_of_mul_lt_mul_right h (two_zpow_pos 971).le
    refine ⟨m * 2 ^ j, 971, ?_, by norm_num, le_rfl, hvalue.trans hshift⟩
    rw [abs_of_nonneg (by exact_mod_cast hm0)]
    exact_mod_cast hlt

/-- The whole numbers up to the first gap. -/
theorem isDouble_of_le {n : ℕ} (hn : n ≤ 2 ^ 53) : IsDouble n := by
  rcases hn.lt_or_eq with hlt | rfl
  · exact isDouble_natCast hlt
  · have hone : IsDouble (1 : ℕ) := isDouble_natCast (by norm_num)
    have hlt : ((1 : ℕ) : ℚ) * 2 ^ 53 < 2 ^ 1024 := by
      rw [Nat.cast_one, one_mul]
      exact pow_lt_pow_right₀ one_lt_two (by norm_num)
    have htwo := hone.mul_two_pow (Nat.cast_nonneg 1) hlt
    norm_num at htwo ⊢
    exact htwo

/-- Doubles stay below the overflow. -/
theorem IsDouble.lt {d : ℚ} (h : IsDouble d) : d < 2 ^ 1024 := by
  obtain ⟨m, e, hm, -, hhi, rfl⟩ := h
  have hm' : (m : ℚ) < 2 ^ 53 := by exact_mod_cast (abs_lt.mp hm).2
  calc (m : ℚ) * 2 ^ e < 2 ^ 53 * 2 ^ e := mul_lt_mul_of_pos_right hm' (two_zpow_pos e)
    _ ≤ 2 ^ 53 * 2 ^ (971 : ℤ) :=
        mul_le_mul_of_nonneg_left (zpow_le_zpow_right₀ one_le_two hhi) (by positivity)
    _ = 2 ^ 1024 := two_pow_1024

/-! ### Rounding to an integer -/

theorem le_roundEven {y : ℚ} {k : ℤ} (h : (k : ℚ) ≤ y) : k ≤ roundEven y := by
  have hk : k ≤ ⌊y⌋ := Int.le_floor.mpr h
  unfold roundEven
  split_ifs <;> omega

theorem roundEven_le {y : ℚ} {k : ℤ} (h : y ≤ k) : roundEven y ≤ k := by
  have hfloor : ⌊y⌋ ≤ k := by exact_mod_cast (Int.floor_le y).trans h
  have hlt : 1 / 2 ≤ y - ⌊y⌋ → ⌊y⌋ + 1 ≤ k := by
    intro hfrac
    have hlt : (⌊y⌋ : ℚ) < k := by linarith
    exact_mod_cast hlt
  unfold roundEven
  split_ifs with h1 h2 h3
  · exact hfloor
  · exact hlt h2.le
  · exact hfloor
  · exact hlt (not_lt.mp h1)

theorem roundEven_eq_floor {y : ℚ} (h : y - ⌊y⌋ ≤ 1 / 2) (heven : ⌊y⌋ % 2 = 0) :
    roundEven y = ⌊y⌋ := by
  unfold roundEven
  split_ifs with h1 h2
  · rfl
  · exact absurd h2 h.not_gt
  · rfl

theorem roundEven_eq_floor_add_one {y : ℚ} (h : 1 / 2 < y - ⌊y⌋) : roundEven y = ⌊y⌋ + 1 := by
  rw [roundEven, if_neg h.le.not_gt, if_pos h]

/-! ### Rounding to a double -/

section

variable {x d : ℚ}

/-- Above the smallest spacing, there are 52 bits behind the first. -/
theorem two_pow_mul_spacing (h : spacing x = Int.log 2 x - 52) :
    ((2 ^ 52 : ℤ) : ℚ) * 2 ^ spacing x = 2 ^ Int.log 2 x := by
  rw [h, zpow_sub₀ (by norm_num)]
  norm_num
  field_simp

/-- Seen from `x`, a double is a multiple of the spacing, or it is smaller than a power of
two that is a multiple and below `x`. -/
theorem isDouble_cases (hx : 0 < x) (hd : IsDouble d) :
    (∃ k : ℤ, d = k * 2 ^ spacing x) ∨
      ∃ k : ℤ, d < k * 2 ^ spacing x ∧ k * 2 ^ spacing x ≤ x := by
  obtain ⟨m, e, hm, hlo, -, rfl⟩ := hd
  have hlog : (2 : ℚ) ^ Int.log 2 x ≤ x := Int.zpow_log_le_self (by norm_num) hx
  rcases le_or_gt (spacing x) e with hle | hlt
  · left
    obtain ⟨j, hj⟩ := Int.eq_ofNat_of_zero_le (sub_nonneg.mpr hle)
    refine ⟨m * 2 ^ j, ?_⟩
    have he : e = j + spacing x := by omega
    rw [he, zpow_add₀ (by norm_num), zpow_natCast]
    push_cast
    ring
  · right
    have hspacing : spacing x = Int.log 2 x - 52 := by
      unfold spacing at hlt ⊢
      omega
    have hpow := two_pow_mul_spacing hspacing
    refine ⟨2 ^ 52, ?_, hpow ▸ hlog⟩
    have hm' : (m : ℚ) < 2 ^ 53 := by exact_mod_cast (abs_lt.mp hm).2
    calc (m : ℚ) * 2 ^ e < 2 ^ 53 * 2 ^ e := mul_lt_mul_of_pos_right hm' (two_zpow_pos e)
      _ ≤ 2 ^ 53 * 2 ^ (spacing x - 1) :=
          mul_le_mul_of_nonneg_left (zpow_le_zpow_right₀ one_le_two (by omega)) (by positivity)
      _ = ((2 ^ 52 : ℤ) : ℚ) * 2 ^ spacing x := by
          rw [zpow_sub₀ (by norm_num)]
          norm_num
          ring

/-- Rounding does not pass a double above. -/
theorem round_le (hx : 0 < x) (hd : IsDouble d) (h : x ≤ d) :
    ∃ q, round x = .finite q ∧ q ≤ d := by
  have hpos := two_zpow_pos (spacing x)
  have hle : (roundEven (x / 2 ^ spacing x) : ℚ) * 2 ^ spacing x ≤ d := by
    rcases isDouble_cases hx hd with ⟨k, rfl⟩ | ⟨k, hlt, hkx⟩
    · have hk : x / 2 ^ spacing x ≤ k := (div_le_iff₀ hpos).mpr h
      have hround : (roundEven (x / 2 ^ spacing x) : ℚ) ≤ k := by exact_mod_cast roundEven_le hk
      exact mul_le_mul_of_nonneg_right hround hpos.le
    · linarith
  refine ⟨_, ?_, hle⟩
  rw [round, if_pos hx, roundPos]
  exact if_pos (hle.trans_lt hd.lt)

/-- Rounding does not pass a double below. -/
theorem le_round (hx : 0 < x) (hd : IsDouble d) (h : d ≤ x) {q : ℚ}
    (hq : round x = .finite q) : d ≤ q := by
  have hpos := two_zpow_pos (spacing x)
  have hround : ∀ k : ℤ, (k : ℚ) * 2 ^ spacing x ≤ x →
      (k : ℚ) * 2 ^ spacing x ≤ roundEven (x / 2 ^ spacing x) * 2 ^ spacing x := by
    intro k hk
    have hk' : (k : ℚ) ≤ x / 2 ^ spacing x := (le_div_iff₀ hpos).mpr hk
    exact mul_le_mul_of_nonneg_right (by exact_mod_cast le_roundEven hk') hpos.le
  have hle : d ≤ roundEven (x / 2 ^ spacing x) * 2 ^ spacing x := by
    rcases isDouble_cases hx hd with ⟨k, rfl⟩ | ⟨k, hlt, hkx⟩
    · exact hround k h
    · exact hlt.le.trans (hround k hkx)
  rw [round, if_pos hx, roundPos] at hq
  split at hq
  · cases hq
    exact hle
  · cases hq

@[simp] theorem round_zero : round 0 = .finite 0 := by
  rw [round, if_neg (lt_irrefl 0), if_neg (lt_irrefl 0)]

/-- Rounding leaves a double alone. -/
theorem round_eq_self (hd : IsDouble d) : round d = .finite d := by
  have hself : ∀ {x : ℚ}, 0 < x → IsDouble x → round x = .finite x := by
    intro x hx hdouble
    obtain ⟨q, hq, hle⟩ := round_le hx hdouble le_rfl
    rw [hq, le_antisymm hle (le_round hx hdouble le_rfl hq)]
  rcases lt_trichotomy d 0 with hneg | rfl | hpos
  · have hflip := hself (neg_pos.mpr hneg) hd.neg
    rw [round, if_pos (neg_pos.mpr hneg)] at hflip
    rw [round, if_neg hneg.not_gt, if_pos hneg, hflip]
    exact congrArg JsNumber.finite (neg_neg d)
  · exact round_zero
  · exact hself hpos hd

end

theorem isDouble_zero : IsDouble 0 := by
  simpa using isDouble_intCast (m := 0) (by norm_num)

/-! ### What rounding returns -/

/-- What a positive number is rounded to is a double. -/
theorem isDouble_of_roundPos {x q : ℚ} (hx : 0 < x) (h : roundPos x = .finite q) :
    IsDouble q := by
  unfold roundPos at h
  simp only at h
  split at h
  · next hlt =>
    obtain rfl := JsNumber.finite.inj h
    have hpos := two_zpow_pos (spacing x)
    have hlo : -1074 ≤ spacing x := le_max_right _ _
    have h0 : 0 ≤ roundEven (x / 2 ^ spacing x) := le_roundEven (by
      rw [Int.cast_zero]
      exact (div_pos hx hpos).le)
    have hle : roundEven (x / 2 ^ spacing x) ≤ 2 ^ 53 := by
      have hexp : Int.log 2 x + 1 ≤ 53 + spacing x := by
        unfold spacing
        omega
      refine roundEven_le ((div_le_iff₀ hpos).mpr ?_)
      calc x ≤ 2 ^ (Int.log 2 x + 1) := by
            exact_mod_cast (Int.lt_zpow_succ_log_self one_lt_two x).le
        _ ≤ 2 ^ (53 + spacing x) := zpow_le_zpow_right₀ one_le_two hexp
        _ = ((2 ^ 53 : ℤ) : ℚ) * 2 ^ spacing x := by
            rw [zpow_add₀ two_ne_zero]
            norm_cast
    generalize roundEven (x / 2 ^ spacing x) = r at h0 hle hlt
    rcases hle.lt_or_eq with hlt53 | rfl
    · have habs : |r| < 2 ^ 53 := by rwa [abs_of_nonneg h0]
      rcases le_or_gt 0 (spacing x) with hs | hs
      · obtain ⟨j, hj⟩ := Int.eq_ofNat_of_zero_le hs
        rw [hj, zpow_natCast] at hlt ⊢
        exact (isDouble_intCast habs).mul_two_pow (by exact_mod_cast h0) hlt
      · exact ⟨r, spacing x, habs, hlo, by omega, rfl⟩
    · -- the power of two above the 53 bits
      have hone : IsDouble 1 := by simpa using isDouble_natCast (n := 1) (by norm_num)
      have hvalue : ((2 ^ 53 : ℤ) : ℚ) * 2 ^ spacing x = 1 * 2 ^ (53 + spacing x) := by
        rw [zpow_add₀ two_ne_zero, one_mul]
        norm_cast
      rw [hvalue] at hlt ⊢
      rcases le_or_gt 0 (53 + spacing x) with hs | hs
      · obtain ⟨j, hj⟩ := Int.eq_ofNat_of_zero_le hs
        rw [hj, zpow_natCast] at hlt ⊢
        exact hone.mul_two_pow zero_le_one hlt
      · exact ⟨1, 53 + spacing x, by norm_num, by omega, by omega, by norm_num⟩
  · cases h

theorem isDouble_of_round {x q : ℚ} (h : round x = .finite q) : IsDouble q := by
  unfold round at h
  split at h
  · next hpos => exact isDouble_of_roundPos hpos h
  · split at h
    · next hneg =>
      split at h
      · next q' hq' =>
        obtain rfl := JsNumber.finite.inj h
        exact (isDouble_of_roundPos (neg_pos.mpr hneg) hq').neg
      · cases h
    · obtain rfl := JsNumber.finite.inj h
      exact isDouble_zero

/-- Rounding is symmetric. -/
theorem round_neg {x q : ℚ} (hx : 0 < x) (h : round x = .finite q) :
    round (-x) = .finite (-q) := by
  have hround : roundPos x = .finite q := by rwa [round, if_pos hx] at h
  rw [round, if_neg (neg_neg_of_pos hx).not_gt, if_pos (neg_neg_of_pos hx), neg_neg, hround]

/-- Rounding keeps the sign. -/
theorem zero_le_round {x : ℚ} (hx : 0 ≤ x) : JsNumber.le (.finite 0) (round x) = true := by
  rcases hx.eq_or_lt with rfl | hpos
  · rw [round_zero]
    exact decide_eq_true (le_refl (0 : ℚ))
  · have hround : round x = roundPos x := if_pos hpos
    rw [hround]
    unfold roundPos
    simp only
    split
    · next hlt =>
      refine decide_eq_true (le_round hpos isDouble_zero hpos.le ?_)
      rw [hround]
      exact if_pos hlt
    · rfl

/-- A number from a double on is not rounded below it. -/
theorem round_not_le {x d c : ℚ} (hx : 0 < x) (hd : IsDouble d) (h : d ≤ x) (hc : c < d) :
    JsNumber.le (round x) (.finite c) = false := by
  have hround : round x = roundPos x := if_pos hx
  rw [hround]
  unfold roundPos
  simp only
  split
  · next hlt =>
    have hle := le_round hx hd h (hround.trans (if_pos hlt))
    exact decide_eq_false (hc.trans_le hle).not_ge
  · rfl

/-- From `2 ^ 1024` on, rounding overflows. -/
theorem round_eq_infinity {x : ℚ} (h : 2 ^ 1024 ≤ x) : round x = .infinity := by
  have hpow0 : (0 : ℚ) < 2 ^ 1024 := pow_pos two_pos _
  have hx : 0 < x := hpow0.trans_le h
  have hlog : 1024 ≤ Int.log 2 x := by
    refine (Int.zpow_le_iff_le_log one_lt_two hx).mp ?_
    rw [Nat.cast_ofNat]
    exact (zpow_natCast (2 : ℚ) 1024).trans_le h
  have hlow : (2 : ℚ) ^ Int.log 2 x ≤ x := Int.zpow_log_le_self one_lt_two hx
  have hspacing : spacing x = Int.log 2 x - 52 := by
    unfold spacing
    omega
  have hpos := two_zpow_pos (spacing x)
  have hpow := two_pow_mul_spacing hspacing
  have hle : (2 ^ 52 : ℤ) ≤ roundEven (x / 2 ^ spacing x) :=
    le_roundEven ((le_div_iff₀ hpos).mpr (hpow ▸ hlow))
  have hbig : (2 : ℚ) ^ 1024 ≤ roundEven (x / 2 ^ spacing x) * 2 ^ spacing x :=
    calc (2 : ℚ) ^ 1024 = 2 ^ ((1024 : ℕ) : ℤ) := (zpow_natCast 2 1024).symm
      _ ≤ 2 ^ Int.log 2 x := zpow_le_zpow_right₀ one_le_two hlog
      _ = ((2 ^ 52 : ℤ) : ℚ) * 2 ^ spacing x := hpow.symm
      _ ≤ roundEven (x / 2 ^ spacing x) * 2 ^ spacing x :=
          mul_le_mul_of_nonneg_right (by exact_mod_cast hle) hpos.le
  rw [round, if_pos hx, roundPos]
  exact if_neg hbig.not_gt

/-! ### Rounding near an integer -/

/-- Between `2 ^ 52` and `2 ^ 53`, rounding is to an integer. -/
theorem round_eq_roundEven {x : ℚ} (hlo : 2 ^ 52 ≤ x) (hhi : x < 2 ^ 53) :
    round x = .finite (roundEven x) := by
  have hpos : 0 < x := by linarith
  have hlog : Int.log 2 x = 52 := by
    refine le_antisymm ?_ ((Int.zpow_le_iff_le_log one_lt_two hpos).mp (by exact_mod_cast hlo))
    exact Int.lt_add_one_iff.mp
      ((Int.lt_zpow_iff_log_lt one_lt_two hpos).mp (by exact_mod_cast hhi))
  have hspacing : spacing x = 0 := by
    unfold spacing
    omega
  have hle : roundEven x ≤ 2 ^ 53 := roundEven_le (by exact_mod_cast hhi.le)
  have hlt : (roundEven x : ℚ) < 2 ^ 1024 := by
    refine lt_of_le_of_lt (b := (2 : ℚ) ^ 53) (by exact_mod_cast hle) ?_
    exact pow_lt_pow_right₀ one_lt_two (by norm_num)
  rw [round, if_pos hpos, roundPos, hspacing]
  simp only [zpow_zero, div_one, mul_one, if_pos hlt]

end EmailPlatform.Double

namespace EmailPlatform.JsNumber

/-! ### Operators -/

/-- The operator `a + b`. -/
def add : JsNumber → JsNumber → JsNumber
  | finite a, finite b => Double.round (a + b)
  | nan, _ | _, nan => nan
  | infinity, negInfinity | negInfinity, infinity => nan
  | infinity, _ | _, infinity => infinity
  | negInfinity, _ | _, negInfinity => negInfinity

/-- The operator `a * b`. -/
def mul : JsNumber → JsNumber → JsNumber
  | finite a, finite b => Double.round (a * b)
  | nan, _ | _, nan => nan
  | infinity, b | b, infinity =>
    if b = finite 0 then nan else if le (finite 0) b then infinity else negInfinity
  | negInfinity, b | b, negInfinity =>
    if b = finite 0 then nan else if le (finite 0) b then negInfinity else infinity

/-- The operator `2 ** n`. -/
def twoPow (n : ℕ) : JsNumber := Double.round (2 ^ n)

/-- `Math.min(a, b)` -/
def min (a b : JsNumber) : JsNumber :=
  if a = nan ∨ b = nan then nan else if le a b then a else b

/-- `Math.floor(a)` -/
def floor : JsNumber → JsNumber
  | finite a => finite ⌊a⌋
  | a => a

theorem min_finite (a b : ℚ) : min (finite a) (finite b) = finite (Min.min a b) := by
  unfold min
  simp only [reduceCtorEq, or_self, if_false, le, decide_eq_true_eq]
  split
  · next h => rw [min_eq_left h]
  · next h => rw [min_eq_right (not_le.mp h).le]

end EmailPlatform.JsNumber
