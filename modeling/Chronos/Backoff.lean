import Chronos.SchedulerService
import Mathlib.Tactic.Positivity
import Mathlib.Tactic.GCongr

namespace Chronos.Backoff

open Chronos.Domain
open Chronos.SchedulerService

def baseDelay (p : RetryPolicy) : Duration :=
  if p.initialDelay ≤ 0 then second else p.initialDelay

theorem baseDelay_pos (p : RetryPolicy) : 0 < baseDelay p := by
  unfold baseDelay
  split
  · decide
  · exact not_le.mp ‹_›

/-- The exact delay before an attempt, with neither the conversion nor the cap. -/
def exactDelay (p : RetryPolicy) (multiplier attempt : Int) : Int :=
  baseDelay p * multiplier ^ (attempt - 1).toNat

theorem floatToInt64_intCast (n : Int) :
    floatToInt64 n = if -2 ^ 63 ≤ n ∧ n < 2 ^ 63 then n else -2 ^ 63 := by
  rw [floatToInt64, Rat.num_intCast, Rat.den_intCast, Int.ofNat_one, Int.tdiv_one]

section Exponential

variable {p : RetryPolicy} {multiplier attempt : Int}

theorem exactDelay_pos (p : RetryPolicy) (attempt : Int) (hmultiplier : 1 ≤ multiplier) :
    0 < exactDelay p multiplier attempt := by
  have hbase := baseDelay_pos p
  unfold exactDelay
  positivity

theorem exactDelay_mono (hmultiplier : 1 ≤ multiplier) {earlier : Int}
    (hearlier : earlier ≤ attempt) :
    exactDelay p multiplier earlier ≤ exactDelay p multiplier attempt := by
  have hbase := baseDelay_pos p
  have hexponent : (earlier - 1).toNat ≤ (attempt - 1).toNat := by omega
  unfold exactDelay
  gcongr

variable (hstrategy : p.backoffStrategy = "exponential") (hjitter : p.jitter = false)
  (hcap : 0 < p.maxDelay) (hmultiplier : 1 ≤ multiplier) (hexact : p.multiplier = multiplier)
  (hattempt : 1 ≤ attempt)

include hstrategy hjitter hcap hmultiplier hexact hattempt

theorem computeBackoff_exponential (rand : ℚ) :
    computeBackoff p attempt rand =
      if exactDelay p multiplier attempt < 2 ^ 63 then
        min (exactDelay p multiplier attempt) p.maxDelay
      else -2 ^ 63 := by
  have hpow : (p.multiplier : ℚ) ^ (attempt - 1) =
      ((multiplier ^ (attempt - 1).toNat : Int) : ℚ) := by
    rw [hexact, Int.cast_pow, ← zpow_natCast, Int.toNat_of_nonneg (by omega)]
  have hmult : ¬ p.multiplier < 1 := by
    rw [hexact, not_lt]
    exact_mod_cast hmultiplier
  have hproduct : ((baseDelay p : Int) : ℚ) * p.multiplier ^ (attempt - 1) =
      ((exactDelay p multiplier attempt : Int) : ℚ) := by
    rw [hpow, exactDelay, Int.cast_mul]
  have hpos := exactDelay_pos p attempt hmultiplier
  simp only [computeBackoff, hstrategy, hjitter, hmult, if_true, if_false, Bool.false_eq_true]
  rw [show (if p.initialDelay ≤ 0 then second else p.initialDelay) = baseDelay p from rfl,
    hproduct, floatToInt64_intCast]
  split
  · rename_i hrange
    rw [if_pos hrange.2]
    split
    · rename_i habove
      exact (min_eq_right habove.2.le).symm
    · rename_i habove
      exact (min_eq_left (not_lt.mp fun h => habove ⟨hcap, h⟩)).symm
  · rename_i hrange
    have hlow : (-2 ^ 63 : Int) ≤ 0 := by decide
    rw [if_neg fun habove => (hcap.trans habove.2).not_ge hlow,
      if_neg fun hlt => hrange ⟨hlow.trans hpos.le, hlt⟩]

/-- The delay before an attempt is positive, within the cap and not less than any delay
before, if and only if the exact delay fits into 64 bits: the cap comes after the
conversion. -/
theorem backoff_within_cap_iff (rand : ℚ) :
    (0 < computeBackoff p attempt rand ∧ computeBackoff p attempt rand ≤ p.maxDelay ∧
      ∀ earlier, 1 ≤ earlier → earlier ≤ attempt →
        computeBackoff p earlier rand ≤ computeBackoff p attempt rand) ↔
      exactDelay p multiplier attempt < 2 ^ 63 := by
  have hdelay : ∀ {n : Int}, 1 ≤ n → computeBackoff p n rand =
      if exactDelay p multiplier n < 2 ^ 63 then min (exactDelay p multiplier n) p.maxDelay
      else -2 ^ 63 :=
    fun hn => computeBackoff_exponential hstrategy hjitter hcap hmultiplier hexact hn rand
  have hpos := exactDelay_pos p attempt hmultiplier
  constructor
  · rintro ⟨hpositive, -, -⟩
    rw [hdelay hattempt] at hpositive
    by_contra hlarge
    rw [if_neg hlarge] at hpositive
    exact absurd hpositive (by decide)
  · intro hfits
    rw [hdelay hattempt, if_pos hfits]
    refine ⟨lt_min hpos hcap, min_le_right _ _, fun earlier hone hearlier => ?_⟩
    have hmono := exactDelay_mono (p := p) hmultiplier hearlier
    rw [hdelay hone, if_pos (hmono.trans_lt hfits)]
    exact min_le_min_right _ hmono

end Exponential

/-- The default policy without jitter. -/
def steadyRetry : RetryPolicy := { defaultRetryPolicy with jitter := false }

/-- One second doubled 34 times leaves the 64-bit range. -/
theorem doubled_second_overflows :
    0 < steadyRetry.maxDelay ∧ computeBackoff steadyRetry 34 0 = steadyRetry.maxDelay ∧
      computeBackoff steadyRetry 35 0 = -2 ^ 63 := by
  have hdelay : ∀ {n : Int}, 1 ≤ n → computeBackoff steadyRetry n 0 =
      if exactDelay steadyRetry 2 n < 2 ^ 63 then
        min (exactDelay steadyRetry 2 n) steadyRetry.maxDelay
      else -2 ^ 63 :=
    fun hn => computeBackoff_exponential rfl rfl (by decide) (by decide) rfl hn 0
  refine ⟨by decide, ?_, ?_⟩
  · rw [hdelay (by decide)]
    decide
  · rw [hdelay (by decide)]
    decide

theorem fifth_delay_within_cap :
    0 < computeBackoff steadyRetry 5 0 ∧ computeBackoff steadyRetry 5 0 ≤ steadyRetry.maxDelay ∧
      ∀ earlier, 1 ≤ earlier → earlier ≤ 5 →
        computeBackoff steadyRetry earlier 0 ≤ computeBackoff steadyRetry 5 0 := by
  have hexact : steadyRetry.multiplier = (2 : Int) := rfl
  exact (backoff_within_cap_iff rfl rfl (by decide) (by decide) hexact (by decide) 0).mpr
    (by decide)

end Chronos.Backoff
