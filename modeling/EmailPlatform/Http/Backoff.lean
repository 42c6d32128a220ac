import EmailPlatform.Http.Retry
import Mathlib.Tactic.Ring

/-!
# EmailPlatform.Http.Backoff

**How long a retry waits.** The delay doubles with each attempt, is clamped to the policy's
two bounds, and equal jitter takes off up to half of it. `jitterRatio` is never read: a
policy with a ratio of at least a half gets what the ratio says, one with a smaller ratio
waits less than it allows (`backoffWithin_iff`).
-/

namespace EmailPlatform.Http

/-- `clamp(backoffMinMs * 2^(k-1), backoffMinMs, backoffMaxMs)` -/
def RetryPolicy.clampedDelay (policy : RetryPolicy) (k : Nat) : ℚ :=
  max policy.backoffMinMs (min (policy.backoffMinMs * 2 ^ (k - 1)) policy.backoffMaxMs)

/-- A policy that makes sense. -/
structure RetryPolicy.Sensible (policy : RetryPolicy) : Prop where
  min_pos : 0 < policy.backoffMinMs
  min_le_max : policy.backoffMinMs ≤ policy.backoffMaxMs
  ratio_nonneg : 0 ≤ policy.jitterRatio
  ratio_le_one : policy.jitterRatio ≤ 1

/-- Jitter takes off at most the fraction `ratio` of the delay, at every attempt and for
every value of `Math.random()`. -/
structure BackoffWithin (policy : RetryPolicy) (ratio : ℚ) : Prop where
  interval : ∀ k u, 1 ≤ k → 0 ≤ u → u < 1 →
    (1 - ratio) * policy.clampedDelay k ≤ backoffWithJitter k policy u ∧
      backoffWithJitter k policy u ≤ policy.clampedDelay k
  bounded : ∀ k u, 1 ≤ k → 0 ≤ u → u < 1 →
    0 ≤ backoffWithJitter k policy u ∧ backoffWithJitter k policy u ≤ policy.backoffMaxMs
  /-- Both bounds are non-decreasing. -/
  mono : ∀ k l, 1 ≤ k → k ≤ l →
    (1 - ratio) * policy.clampedDelay k ≤ (1 - ratio) * policy.clampedDelay l ∧
      policy.clampedDelay k ≤ policy.clampedDelay l

theorem backoffWithJitter_eq (k : Nat) (policy : RetryPolicy) (u : ℚ) :
    backoffWithJitter k policy u = (1 + u) / 2 * policy.clampedDelay k := by
  show policy.clampedDelay k / 2 + u * (policy.clampedDelay k / 2) = _
  ring

section

variable {policy : RetryPolicy}

theorem clampedDelay_pos (h : policy.Sensible) (k : Nat) : 0 < policy.clampedDelay k :=
  lt_max_of_lt_left h.min_pos

/-- The clamp keeps the growth of the power. -/
theorem clampedDelay_mono (h : policy.Sensible) {k l : Nat} (hkl : k ≤ l) :
    policy.clampedDelay k ≤ policy.clampedDelay l := by
  have hpow : (2 : ℚ) ^ (k - 1) ≤ 2 ^ (l - 1) :=
    pow_le_pow_right₀ (by norm_num) (Nat.sub_le_sub_right hkl 1)
  exact max_le_max le_rfl (min_le_min (mul_le_mul_of_nonneg_left hpow h.min_pos.le) le_rfl)

/-- With half the delay taken off at most, the wait is within the fraction. -/
theorem backoffWithin_of_half_le (h : policy.Sensible) {ratio : ℚ} (hhalf : 1 / 2 ≤ ratio)
    (hone : ratio ≤ 1) : BackoffWithin policy ratio := by
  refine ⟨fun k u _ hu0 hu1 => ?_, fun k u _ hu0 hu1 => ?_, fun k l _ hkl => ?_⟩
  · have hpos := (clampedDelay_pos h k).le
    rw [backoffWithJitter_eq]
    refine ⟨mul_le_mul_of_nonneg_right (by linarith) hpos, ?_⟩
    calc (1 + u) / 2 * policy.clampedDelay k ≤ 1 * policy.clampedDelay k :=
          mul_le_mul_of_nonneg_right (by linarith) hpos
      _ = policy.clampedDelay k := one_mul _
  · obtain ⟨hlow, hhigh⟩ :=
      backoffWithJitter_mem k h.min_pos.le h.min_le_max ⟨hu0, hu1⟩
    exact ⟨le_trans (div_nonneg h.min_pos.le (by norm_num)) hlow, hhigh⟩
  · have hmono := clampedDelay_mono h hkl
    exact ⟨mul_le_mul_of_nonneg_left hmono (by linarith), hmono⟩

/-- A wait of half the delay shows that the fraction is no less. -/
theorem half_le_of_backoffWithin (h : policy.Sensible) {ratio : ℚ}
    (hwithin : BackoffWithin policy ratio) : 1 / 2 ≤ ratio := by
  have hlow := (hwithin.interval 1 0 le_rfl le_rfl one_pos).1
  rw [backoffWithJitter_eq] at hlow
  have hratio := le_of_mul_le_mul_right hlow (clampedDelay_pos h 1)
  linarith

/-- The wait keeps at least half of the clamped delay. A policy's own ratio is kept exactly
when it is a half or more. -/
theorem backoffWithin_iff (h : policy.Sensible) :
    BackoffWithin policy (1 / 2) ∧
      (BackoffWithin policy policy.jitterRatio ↔ 1 / 2 ≤ policy.jitterRatio) :=
  ⟨backoffWithin_of_half_le h le_rfl (by norm_num),
    half_le_of_backoffWithin h, fun hhalf => backoffWithin_of_half_le h hhalf h.ratio_le_one⟩

end

/-- The default policy, with another ratio. -/
def policyWithRatio (ratio : ℚ) : RetryPolicy :=
  ⟨RETRY_MAX_ATTEMPTS, RETRY_BACKOFF_MIN_MS, RETRY_BACKOFF_MAX_MS, ratio⟩

theorem backoffWithin_iff_default :
    BackoffWithin (policyWithRatio RETRY_JITTER_RATIO) (1 / 2) ∧
      (BackoffWithin (policyWithRatio RETRY_JITTER_RATIO) RETRY_JITTER_RATIO ↔
        1 / 2 ≤ RETRY_JITTER_RATIO) :=
  @backoffWithin_iff (policyWithRatio RETRY_JITTER_RATIO)
    ⟨by decide +kernel, by decide +kernel, by decide +kernel, by decide +kernel⟩

/-- Without jitter, the first wait would be 200 ms; it may be 100 ms. -/
theorem not_backoffWithin_zero :
    (policyWithRatio 0).Sensible ∧ ¬ BackoffWithin (policyWithRatio 0) 0 ∧
      backoffWithJitter 1 (policyWithRatio 0) 0 = 100 := by
  have hsensible : (policyWithRatio 0).Sensible :=
    ⟨by decide +kernel, by decide +kernel, by decide +kernel, by decide +kernel⟩
  refine ⟨hsensible, fun h => ?_, by decide +kernel⟩
  have hhalf := half_le_of_backoffWithin hsensible h
  norm_num at hhalf

end EmailPlatform.Http
