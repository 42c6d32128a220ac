import Mathlib.Data.Rat.Cast.Order
import Mathlib.Data.Rat.Cast.CharZero

/-!
# EmailPlatform.Js.Number

JavaScript numbers, as far as the code compares them. Finite values are exact
rationals (every finite double is one), so a statement over all `JsNumber`s
covers every value the runtime can hold. Only the comparison operators are
modelled: the loops of this code compare counters with caller-supplied numbers,
and there `NaN` and the infinities behave unlike any integer.
-/

namespace EmailPlatform

/-- A JavaScript number value. -/
inductive JsNumber
  | nan
  | negInfinity
  | infinity
  | finite (q : ℚ)
  deriving DecidableEq, Repr

namespace JsNumber

instance : NatCast JsNumber := ⟨fun n => finite n⟩

/-- The operator `a <= b`; also `b >= a`. False as soon as one side is `NaN`. -/
def le : JsNumber → JsNumber → Bool
  | nan, _ => false
  | _, nan => false
  | negInfinity, _ => true
  | _, infinity => true
  | finite a, finite b => decide (a ≤ b)
  | _, _ => false

/-- On whole numbers the operator is the order of the naturals. -/
@[simp] theorem le_natCast (m n : ℕ) : le m n = decide (m ≤ n) := by
  simp [le]

/-- A counter whose successor is let through has not reached the bound. -/
theorem not_le_natCast_of_succ {n : ℕ} {b : JsNumber} (hb : le (n + 1 : ℕ) b = true) :
    le b n = false := by
  cases b with
  | nan => rfl
  | negInfinity => simp [le] at hb
  | infinity => rfl
  | finite q =>
      simp only [le, decide_eq_true_eq, decide_eq_false_iff_not] at hb ⊢
      have hlt : (n : ℚ) < (n + 1 : ℕ) := by exact_mod_cast Nat.lt_succ_self n
      exact not_le.mpr (lt_of_lt_of_le hlt hb)

end JsNumber

end EmailPlatform
