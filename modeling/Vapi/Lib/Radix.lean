import Mathlib.Data.List.Basic
import Mathlib.Tactic.IntervalCases

/-!
# Unsigned numbers as text

A number is written with the digits 0 to 9 and a to z, padded with zeros. The
reader takes more than the writer writes: upper case, and a plus sign in front.
-/

namespace Radix

/-- The value of a digit, in either case. -/
def digit? (radix : Nat) (c : Char) : Option Nat :=
  let d :=
    if c.isDigit then c.toNat - 0x30
    else if c.isLower then c.toNat - 0x61 + 10
    else if c.isUpper then c.toNat - 0x41 + 10
    else radix
  if d < radix then some d else none

/-- Further digits of a number, as long as it stays below the bound. -/
def digits (radix bound : Nat) : Nat → List Char → Option Nat
  | n, [] => some n
  | n, c :: s => do
    let d ← digit? radix c
    if n * radix + d < bound then digits radix bound (n * radix + d) s else none

/-- At least one digit, behind a plus sign or not. -/
def fromStr (radix bound : Nat) : List Char → Option Nat
  | [] => none
  | c :: s => if c = '+' then (if s = [] then none else digits radix bound 0 s) else digits radix bound 0 (c :: s)

/-- The digits of a number, zeros in front up to a width. -/
def padded (radix width n : Nat) : List Char := List.leftpad width '0' (Nat.toDigits radix n)

/-- A character the writer has no use for. -/
def Foreign (c : Char) : Prop := c = '+' ∨ c.isUpper

instance (c : Char) : Decidable (Foreign c) := inferInstanceAs (Decidable (_ ∨ _))

variable {c : Char} {d : Nat}

theorem digit_lt {radix : Nat} (h : digit? radix c = some d) : d < radix := by
  unfold digit? at h
  simp only [Option.ite_none_right_eq_some, Option.some.injEq] at h
  obtain ⟨small, rfl⟩ := h
  exact small

theorem digit_digitChar (h : d < 16) : digit? 16 (Nat.digitChar d) = some d := by
  interval_cases d <;> rfl

theorem digitChar_own (h : d < 16) : ¬Foreign (Nat.digitChar d) := by
  interval_cases d <;> decide

theorem isLower_toNat : c.isLower ↔ 0x61 ≤ c.toNat ∧ c.toNat ≤ 0x7A := by
  change (decide _ && decide _) = true ↔ _
  rw [Bool.and_eq_true, decide_eq_true_eq, decide_eq_true_eq]
  exact Iff.rfl

theorem isUpper_toNat : c.isUpper ↔ 0x41 ≤ c.toNat ∧ c.toNat ≤ 0x5A := by
  change decide (_ ∧ _) = true ↔ _
  rw [decide_eq_true_eq]
  exact Iff.rfl

/-- The three ranges a digit is in. -/
theorem digit_cases {radix : Nat} (h : digit? radix c = some d) :
    (0x30 ≤ c.toNat ∧ c.toNat ≤ 0x39 ∧ d = c.toNat - 0x30) ∨
      (0x61 ≤ c.toNat ∧ c.toNat ≤ 0x7A ∧ d = c.toNat - 0x61 + 10) ∨
      (0x41 ≤ c.toNat ∧ c.toNat ≤ 0x5A ∧ d = c.toNat - 0x41 + 10) := by
  have small := digit_lt h
  unfold digit? at h
  simp only [Option.ite_none_right_eq_some, Option.some.injEq] at h
  obtain ⟨-, rfl⟩ := h
  split at small
  · rename_i digit
    obtain ⟨least, most⟩ := (Char.isDigit_iff_toNat).mp digit
    rw [if_pos digit]
    exact .inl ⟨least, most, rfl⟩
  · rename_i digit
    rw [if_neg digit]
    split at small
    · rename_i lower
      obtain ⟨least, most⟩ := isLower_toNat.mp lower
      rw [if_pos lower]
      exact .inr (.inl ⟨least, most, rfl⟩)
    · rename_i lower
      rw [if_neg lower]
      split at small
      · rename_i upper
        obtain ⟨least, most⟩ := isUpper_toNat.mp upper
        rw [if_pos upper]
        exact .inr (.inr ⟨least, most, rfl⟩)
      · exact absurd small (Nat.lt_irrefl _)

/-- A digit that is read is the one that is written, unless it is foreign. -/
theorem digitChar_of_digit (h : digit? 16 c = some d) (own : ¬Foreign c) : Nat.digitChar d = c := by
  have small := digit_lt h
  apply Char.toNat_inj.mp
  rcases digit_cases h with ⟨least, most, same⟩ | ⟨least, most, same⟩ | ⟨least, most, -⟩
  · rw [Nat.toNat_digitChar_of_lt_ten (by omega)]
    omega
  · have letter : c.toNat = 0x61 + (d - 10) := by omega
    have past : 10 ≤ d := by omega
    rw [letter]
    interval_cases d <;> rfl
  · exact absurd (.inr (isUpper_toNat.mpr ⟨least, most⟩)) own

/-- A digit is one byte long. -/
theorem digit_utf8Size {radix : Nat} (h : digit? radix c = some d) : c.utf8Size = 1 := by
  rw [Char.utf8Size_eq_one_iff, UInt32.le_iff_toNat_le]
  change c.toNat ≤ 127
  rcases digit_cases h with ⟨-, most, -⟩ | ⟨-, most, -⟩ | ⟨-, most, -⟩ <;> omega

section Pairs

variable {a b : Char} {n : Nat}

/-- Two digits of base 16, or one behind a plus sign. -/
theorem fromStr_pair : fromStr 16 256 [a, b] = some n ↔
    ∃ d e, (a = '+' ∧ d = 0 ∨ a ≠ '+' ∧ digit? 16 a = some d) ∧ digit? 16 b = some e ∧ n = d * 16 + e := by
  rw [fromStr]
  constructor
  · intro read
    split at read
    · rename_i plus
      rw [if_neg (List.cons_ne_nil _ _)] at read
      obtain ⟨e, second, read⟩ := Option.bind_eq_some_iff.mp read
      split at read
      · obtain rfl := Option.some.inj read
        exact ⟨0, e, .inl ⟨plus, rfl⟩, second, rfl⟩
      · cases read
    · rename_i plus
      obtain ⟨d, first, read⟩ := Option.bind_eq_some_iff.mp read
      split at read
      · obtain ⟨e, second, read⟩ := Option.bind_eq_some_iff.mp read
        split at read
        · obtain rfl := Option.some.inj read
          exact ⟨d, e, .inr ⟨plus, first⟩, second, by omega⟩
        · cases read
      · cases read
  · rintro ⟨d, e, first, second, rfl⟩
    have high : d < 16 := by
      rcases first with ⟨-, rfl⟩ | ⟨-, first⟩
      · decide
      · exact digit_lt first
    have low := digit_lt second
    rcases first with ⟨plus, rfl⟩ | ⟨plus, first⟩
    · rw [if_pos plus, if_neg (List.cons_ne_nil _ _), digits, second]
      simp only [Option.bind_eq_bind, Option.bind_some]
      rw [if_pos (by omega), digits]
    · rw [if_neg plus, digits, first]
      simp only [Option.bind_eq_bind, Option.bind_some]
      rw [if_pos (by omega), digits, second]
      simp only [Option.bind_eq_bind, Option.bind_some]
      rw [if_pos (by omega), digits, Nat.zero_mul, Nat.zero_add]

/-- A byte is written as two digits. -/
theorem padded_pair (h : n < 256) : padded 16 2 n = [Nat.digitChar (n / 16), Nat.digitChar (n % 16)] := by
  unfold padded
  by_cases small : n < 16
  · rw [Nat.toDigits_of_lt_base small, Nat.div_eq_of_lt small, Nat.mod_eq_of_lt small]
    rfl
  · have whole : 16 * (n / 16) + n % 16 = n := Nat.div_add_mod n 16
    have digits := Nat.toDigits_append_toDigits (b := 16) (n := n / 16) (d := n % 16) (by decide) (by omega) (Nat.mod_lt _ (by decide))
    rw [whole, Nat.toDigits_of_lt_base (by omega), Nat.toDigits_of_lt_base (Nat.mod_lt _ (by decide))] at digits
    rw [← digits]
    rfl

/-- What is written for a byte is read back. -/
theorem fromStr_padded (h : n < 256) : fromStr 16 256 (padded 16 2 n) = some n := by
  rw [padded_pair h, fromStr_pair]
  have high : n / 16 < 16 := by omega
  have low : n % 16 < 16 := Nat.mod_lt _ (by decide)
  refine ⟨n / 16, n % 16, .inr ⟨fun plus => digitChar_own high (.inl plus), digit_digitChar high⟩, digit_digitChar low, ?_⟩
  exact (Nat.div_add_mod' n 16).symm

/-- What is read of two characters is written with them, unless one is foreign. -/
theorem padded_of_fromStr (read : fromStr 16 256 [a, b] = some n) (first : ¬Foreign a) (second : ¬Foreign b) :
    padded 16 2 n = [a, b] := by
  obtain ⟨d, e, high, low, rfl⟩ := fromStr_pair.mp read
  have high : digit? 16 a = some d := (high.resolve_left fun plus => first (.inl plus.1)).2
  have small := digit_lt high
  have less := digit_lt low
  rw [padded_pair (by omega)]
  have quotient : (d * 16 + e) / 16 = d := by omega
  have rest : (d * 16 + e) % 16 = e := by omega
  rw [quotient, rest, digitChar_of_digit high first, digitChar_of_digit low second]

end Pairs

end Radix
