import Xyberos.Execution.Models
import Mathlib.Algebra.Order.Field.Rat
import Mathlib.Tactic.Linarith
import Mathlib.Tactic.NormNum

/-!
# Xyberos.Execution.Policies — what the policies promise

`Backoff.delay_for` caps an exponential after it has computed it, so its promises hold as far as the power is a float.
-/

set_option autoImplicit false

namespace Xyberos

namespace Backoff

variable (b : Backoff)

/-- The delay after an attempt before jitter: the exponential, capped. -/
def capped (attempt : ℕ) : ℚ := min (b.initial * b.multiplier ^ (attempt - 1)) b.maxDelay

/-- The delay is between the capped exponential and the share of it that jitter leaves, and without jitter it is no
shorter than the delays after earlier attempts. -/
structure Bounds (attempt : ℕ) (delay : ℚ) : Prop where
  lower : (1 - b.jitter) * b.capped attempt ≤ delay
  upper : delay ≤ b.capped attempt
  mono : b.jitter = 0 → ∀ earlier, 1 ≤ earlier → earlier ≤ attempt → ∀ draw delay',
    b.delayFor earlier draw = .ok delay' → delay' ≤ delay

variable {b} {attempt : ℕ} {draw delay : ℚ}

theorem capped_nonneg (attempt : ℕ) : 0 ≤ b.capped attempt :=
  le_min (mul_nonneg b.initial_nonneg (pow_nonneg (zero_le_one.trans b.one_le_multiplier) _)) b.maxDelay_nonneg

theorem capped_mono {m n : ℕ} (h : m ≤ n) : b.capped m ≤ b.capped n := by
  have hpow : b.multiplier ^ (m - 1) ≤ b.multiplier ^ (n - 1) :=
    pow_le_pow_right₀ b.one_le_multiplier (Nat.sub_le_sub_right h 1)
  exact min_le_min (mul_le_mul_of_nonneg_left hpow b.initial_nonneg) le_rfl

theorem delayFor_eq_ok (hattempt : 1 ≤ attempt) : b.delayFor attempt draw = .ok delay ↔
    b.multiplier ^ (attempt - 1) ≤ floatMax ∧
      delay = max (if b.jitter = 0 then b.capped attempt else b.capped attempt * (1 - b.jitter * draw)) 0 := by
  unfold delayFor
  rw [if_neg (by omega)]
  by_cases h : floatMax < b.multiplier ^ (attempt - 1)
  · simp [h]
  · rw [if_neg h]
    constructor
    · intro he
      exact ⟨not_lt.mp h, (Except.ok.inj he).symm⟩
    · rintro ⟨-, rfl⟩
      rfl

/-- A draw takes away at most the share of the delay that jitter may remove. -/
theorem jittered_mem (b : Backoff) (attempt : ℕ) (h0 : 0 ≤ draw) (h1 : draw < 1) :
    (1 - b.jitter) * b.capped attempt ≤ b.capped attempt * (1 - b.jitter * draw) ∧
      b.capped attempt * (1 - b.jitter * draw) ≤ b.capped attempt := by
  have hcapped := b.capped_nonneg attempt
  have htake : 0 ≤ b.jitter * draw := mul_nonneg b.jitter_nonneg h0
  have hleave : b.jitter * draw ≤ b.jitter := by
    have := mul_le_mul_of_nonneg_left h1.le b.jitter_nonneg
    rwa [mul_one] at this
  constructor
  · rw [mul_comm]
    exact mul_le_mul_of_nonneg_left (by linarith) hcapped
  · have := mul_le_mul_of_nonneg_left (show 1 - b.jitter * draw ≤ 1 by linarith) hcapped
    rwa [mul_one] at this

theorem bounds_of_delayFor (hattempt : 1 ≤ attempt) (h0 : 0 ≤ draw) (h1 : draw < 1)
    (h : b.delayFor attempt draw = .ok delay) : b.Bounds attempt delay := by
  obtain ⟨-, rfl⟩ := (delayFor_eq_ok hattempt).mp h
  have hcapped := b.capped_nonneg attempt
  obtain ⟨hlower, hupper⟩ := jittered_mem b attempt h0 h1
  have hpart : 0 ≤ (1 - b.jitter) * b.capped attempt := mul_nonneg (by linarith [b.jitter_le_one]) hcapped
  by_cases hj : b.jitter = 0
  · rw [if_pos hj, max_eq_left hcapped]
    refine ⟨by rw [hj, sub_zero, one_mul], le_rfl, ?_⟩
    intro _ earlier hearlier hle draw' delay' h'
    obtain ⟨-, rfl⟩ := (delayFor_eq_ok hearlier).mp h'
    rw [if_pos hj, max_eq_left (b.capped_nonneg earlier)]
    exact capped_mono hle
  · rw [if_neg hj, max_eq_left (hpart.trans hlower)]
    exact ⟨hlower, hupper, fun h => absurd h hj⟩

/-- **Delays stay within their bounds** as far as the power is a float. -/
theorem delay_bounds_iff (b : Backoff) {attempt : ℕ} (hattempt : 1 ≤ attempt) {draw : ℚ} (h0 : 0 ≤ draw)
    (h1 : draw < 1) :
    (∃ delay, b.delayFor attempt draw = .ok delay ∧ b.Bounds attempt delay) ↔
      b.multiplier ^ (attempt - 1) ≤ floatMax := by
  constructor
  · rintro ⟨delay, h, -⟩
    exact ((delayFor_eq_ok hattempt).mp h).1
  · intro hfits
    exact ⟨_, (delayFor_eq_ok hattempt).mpr ⟨hfits, rfl⟩,
      bounds_of_delayFor hattempt h0 h1 ((delayFor_eq_ok hattempt).mpr ⟨hfits, rfl⟩)⟩

/-- `Backoff()` -/
def default : Backoff where
  initial := 1 / 10
  multiplier := 2
  maxDelay := 5
  jitter := 0
  initial_nonneg := by norm_num
  one_le_multiplier := by norm_num
  maxDelay_nonneg := by norm_num
  jitter_nonneg := le_rfl
  jitter_le_one := zero_le_one

/-- After the third attempt. -/
theorem delay_bounds_third : ∃ delay, default.delayFor 3 (1 / 2) = .ok delay ∧ default.Bounds 3 delay :=
  (delay_bounds_iff default (by norm_num) (by norm_num) (by norm_num)).mpr (by decide +kernel)

/-- After attempt 1025 the default policy asks for `2.0 ** 1024`. -/
theorem delay_overflows : ¬ ∃ delay, default.delayFor 1025 0 = .ok delay ∧ default.Bounds 1025 delay := by
  rintro ⟨delay, h, -⟩
  have hfits := ((delayFor_eq_ok (by norm_num)).mp h).1
  have hover : ¬ default.multiplier ^ (1025 - 1) ≤ floatMax := by decide +kernel
  exact hover hfits

end Backoff

end Xyberos
