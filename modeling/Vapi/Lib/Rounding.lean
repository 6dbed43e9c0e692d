import Vapi.Lib.Binary32
import Mathlib.Tactic.Linarith
import Mathlib.Tactic.Ring

/-!
# Rounding to single precision

The nearest number of the binary32 format, ties to the even significand. What
lies past the format's range is not looked at.
-/

namespace Binary32

/-- The nearest integer, ties to even. -/
def roundEven (x : ℚ) : Int :=
  if x - ⌊x⌋ < 1 / 2 then ⌊x⌋
  else if 1 / 2 < x - ⌊x⌋ then ⌊x⌋ + 1
  else if ⌊x⌋ % 2 = 0 then ⌊x⌋ else ⌊x⌋ + 1

/-- The nearest number of the format. -/
def round (q : ℚ) : ℚ := roundEven (q / unit (exponent q)) * unit (exponent q)

theorem roundEven_close (x : ℚ) : |(roundEven x : ℚ) - x| ≤ 1 / 2 := by
  have below := Int.floor_le x
  have above := Int.lt_floor_add_one x
  unfold roundEven
  split
  · rw [abs_le]
    constructor <;> linarith
  · split
    · push_cast
      rw [abs_le]
      constructor <;> linarith
    · split
      · rw [abs_le]
        constructor <;> linarith
      · push_cast
        rw [abs_le]
        constructor <;> linarith

theorem roundEven_intCast (n : Int) : roundEven n = n := by
  rw [roundEven, Int.floor_intCast, sub_self, if_pos (by norm_num)]

theorem round_close (q : ℚ) : |round q - q| ≤ unit (exponent q) / 2 := by
  have pos := unit_pos (exponent q)
  have scaled : round q - q = (roundEven (q / unit (exponent q)) - q / unit (exponent q)) * unit (exponent q) := by
    rw [round, sub_mul, div_mul_cancel₀ _ pos.ne']
  rw [scaled, abs_mul, abs_of_pos pos]
  have close := mul_le_mul_of_nonneg_right (roundEven_close (q / unit (exponent q))) pos.le
  linarith

/-- A number's field is no greater than one whose numbers reach as far. -/
theorem exponent_le {q : ℚ} {e : Nat} (range : e < 255) (reaches : |q| < magnitude e (2 ^ 23)) : exponent q ≤ e := by
  unfold exponent
  cases found : (List.range 255).find? fun e => decide (|q| < magnitude e (2 ^ 23)) with
  | none =>
    have all := List.find?_eq_none.mp found e (List.mem_range.mpr range)
    exact absurd (decide_eq_true reaches) all
  | some d =>
    rw [List.find?_range_eq_some] at found
    rw [Option.getD_some]
    by_contra beyond
    have past := found.2.2 e (by omega)
    simp only [Bool.not_eq_true', decide_eq_false_iff_not] at past
    exact past reaches

theorem unit_le {d e : Nat} (le : d ≤ e) : unit d ≤ unit e := by
  unfold unit
  exact div_le_div_of_nonneg_right (pow_le_pow_right₀ (by norm_num) (by omega)) (by positivity)

/-- Rounding is off by half a last place at most. -/
theorem round_within {q : ℚ} {e : Nat} (range : e < 255) (reaches : |q| < magnitude e (2 ^ 23)) :
    |round q - q| ≤ unit e / 2 :=
  (round_close q).trans (div_le_div_of_nonneg_right (unit_le (exponent_le range reaches)) (by norm_num))

/-- Twenty-four bits are kept as they are. -/
theorem round_scaled {n : Int} {j : Nat} (small : |n| < 2 ^ 24) (range : j < 254) :
    round (n * 2 ^ j / 2 ^ 149) = n * 2 ^ j / 2 ^ 149 := by
  have top : magnitude (j + 1) (2 ^ 23) = 2 ^ 24 * 2 ^ j / 2 ^ 149 := by
    norm_num [magnitude, hidden, unit]
    ring
  have reaches : |(n * 2 ^ j / 2 ^ 149 : ℚ)| < magnitude (j + 1) (2 ^ 23) := by
    rw [top, abs_div, abs_mul, abs_of_pos
      (by positivity : (0 : ℚ) < 2 ^ j), abs_of_pos (by positivity : (0 : ℚ) < 2 ^ 149)]
    have small : |(n : ℚ)| < 2 ^ 24 := by exact_mod_cast small
    gcongr
  have le := exponent_le (by omega) reaches
  obtain ⟨more, is⟩ : ∃ more, j = more + (exponent (n * 2 ^ j / 2 ^ 149 : ℚ) - 1) :=
    ⟨_, (Nat.sub_add_cancel (by omega)).symm⟩
  have whole : (n * 2 ^ j / 2 ^ 149 : ℚ) = ((n * 2 ^ more : Int) : ℚ) * unit (exponent (n * 2 ^ j / 2 ^ 149 : ℚ)) := by
    have power : (2 : ℚ) ^ j = 2 ^ more * 2 ^ (exponent (n * 2 ^ j / 2 ^ 149 : ℚ) - 1) := by
      rw [← pow_add, ← is]
    rw [unit]
    push_cast
    rw [mul_div_assoc', mul_assoc, ← power]
  have pos := unit_pos (exponent (n * 2 ^ j / 2 ^ 149 : ℚ))
  have quotient : (n * 2 ^ j / 2 ^ 149 : ℚ) / unit (exponent (n * 2 ^ j / 2 ^ 149 : ℚ)) = ((n * 2 ^ more : Int) : ℚ) :=
    (div_eq_iff pos.ne').mpr whole
  rw [round, quotient, roundEven_intCast]
  exact whole.symm

example : round (1 / 3) = 11184811 / 2 ^ 25 ∧ round (2 ^ 24 + 1) = 2 ^ 24 := by decide +kernel

end Binary32
