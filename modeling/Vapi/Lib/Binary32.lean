import Mathlib.Algebra.Order.Floor.Ring
import Mathlib.Data.Rat.Floor
import Mathlib.Tactic.Positivity
import Mathlib.Tactic.FieldSimp

/-!
# Single precision numbers by their bits

A finite number of IEEE 754's binary32 format as the rational it denotes, and
the word that spells it. No two numbers are spelled the same.
-/

namespace Binary32

/-- The value of a significand's last place under an exponent field; the two least fields share one. -/
def unit (e : Nat) : ℚ := 2 ^ (e - 1) / 2 ^ 149

/-- The digit a significand begins with and its field leaves out. -/
def hidden (e : Nat) : Nat := if e = 0 then 0 else 2 ^ 23

def magnitude (e m : Nat) : ℚ := (hidden e + m : Nat) * unit e

/-- A finite number of the format. -/
def Finite (q : ℚ) : Prop := ∃ e m, e < 255 ∧ m < 2 ^ 23 ∧ |q| = magnitude e m

/-- The exponent field: the least one whose numbers reach that far. -/
def exponent (q : ℚ) : Nat := ((List.range 255).find? fun e => |q| < magnitude e (2 ^ 23)).getD 255

def mantissa (q : ℚ) : Nat := ⌊|q| / unit (exponent q)⌋.toNat - hidden (exponent q)

/-- The word that spells a number; zero has no sign. -/
def bits (q : ℚ) : Nat := (if q < 0 then 2 ^ 31 else 0) + (exponent q * 2 ^ 23 + mantissa q)

theorem unit_pos (e : Nat) : 0 < unit e := by
  unfold unit
  positivity

/-- Numbers of a lower field are less than those of a higher one. -/
theorem magnitude_le {d e : Nat} (lt : d < e) : magnitude d (2 ^ 23) ≤ magnitude e 0 := by
  have split : magnitude e 0 = 2 ^ 23 * (2 ^ (e - 1) / 2 ^ 149) := by
    norm_num [magnitude, hidden, Nat.ne_zero_of_lt lt, unit]
  rw [split]
  unfold magnitude hidden unit
  rw [mul_div_assoc', mul_div_assoc']
  refine div_le_div_of_nonneg_right ?_ (by positivity)
  cases d with
  | zero =>
    have one : (1 : ℚ) ≤ 2 ^ (e - 1) := one_le_pow₀ (by norm_num)
    norm_num
    linarith
  | succ d =>
    have twice : (2 : ℚ) ^ (d + 1) ≤ 2 ^ (e - 1) := pow_le_pow_right₀ (by norm_num) (by omega)
    rw [pow_succ] at twice
    norm_num
    linarith

theorem magnitude_lt {e m n : Nat} (lt : m < n) : magnitude e m < magnitude e n := by
  unfold magnitude
  have more : ((hidden e + m : Nat) : ℚ) < (hidden e + n : Nat) := by exact_mod_cast Nat.add_lt_add_left lt _
  exact mul_lt_mul_of_pos_right more (unit_pos e)

theorem exponent_spec {q : ℚ} {e m : Nat} (range : e < 255) (fits : m < 2 ^ 23) (is : |q| = magnitude e m) :
    exponent q = e := by
  have found : (List.range 255).find? (fun e => decide (|q| < magnitude e (2 ^ 23))) = some e := by
    rw [List.find?_range_eq_some]
    refine ⟨decide_eq_true (is ▸ magnitude_lt fits), List.mem_range.mpr range, fun d lt => ?_⟩
    have least : magnitude e 0 ≤ magnitude e m := by
      cases m with
      | zero => exact le_rfl
      | succ m => exact (magnitude_lt m.succ_pos).le
    simp only [is, Bool.not_eq_true', decide_eq_false_iff_not, not_lt]
    exact (magnitude_le lt).trans least
  rw [exponent, found, Option.getD_some]

theorem mantissa_spec {q : ℚ} {e m : Nat} (range : e < 255) (fits : m < 2 ^ 23) (is : |q| = magnitude e m) :
    mantissa q = m := by
  rw [mantissa, exponent_spec range fits is, is, magnitude, mul_div_assoc, div_self (unit_pos e).ne', mul_one,
    Int.floor_natCast]
  omega

/-- A number is its sign, its exponent and its mantissa. -/
theorem bits_injOn : Set.InjOn bits {q | Finite q} := by
  rintro a ⟨e, m, range, fits, is⟩ b ⟨e', m', range', fits', is'⟩ same
  simp only [bits, exponent_spec range fits is, mantissa_spec range fits is, exponent_spec range' fits' is',
    mantissa_spec range' fits' is'] at same
  have sign : a < 0 ↔ b < 0 := by
    by_cases na : a < 0 <;> by_cases nb : b < 0 <;> simp only [na, nb, ↓reduceIte, iff_self] at same ⊢ <;> omega
  rw [if_congr sign rfl rfl] at same
  have fields := Nat.add_left_cancel same
  obtain ⟨rfl, rfl⟩ : e = e' ∧ m = m' := by omega
  have size : |a| = |b| := is.trans is'.symm
  by_cases neg : a < 0
  · rw [abs_of_neg neg, abs_of_neg (sign.mp neg)] at size
    exact neg_inj.mp size
  · rwa [abs_of_nonneg (not_lt.mp neg), abs_of_nonneg (not_lt.mp (sign.not.mp neg))] at size

theorem bits_lt {q : ℚ} (finite : Finite q) : bits q < 2 ^ 32 := by
  obtain ⟨e, m, range, fits, is⟩ := finite
  rw [bits, exponent_spec range fits is, mantissa_spec range fits is]
  split <;> omega

example : bits 1 = 0x3F800000 ∧ bits (-3 / 4) = 0xBF400000 ∧ bits 0 = 0 := by decide +kernel

end Binary32
