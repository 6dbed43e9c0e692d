import Mathlib.Data.List.Basic

/-!
# Base64

The standard alphabet, with padding: three bytes are four digits, and what is
left of the bytes is padded with equality signs. Unused bits must be nought.
-/

namespace Base64

/-- Capitals, small letters, figures, and two signs. -/
def digit (n : Nat) : Char :=
  if n < 26 then Char.ofNat (n + 65)
  else if n < 52 then Char.ofNat (n + 71)
  else if n < 62 then Char.ofNat (n - 4)
  else if n = 62 then '+' else '/'

def value (c : Char) : Option Nat :=
  if c.isUpper then some (c.toNat - 65)
  else if c.isLower then some (c.toNat - 71)
  else if c.isDigit then some (c.toNat + 4)
  else if c = '+' then some 62 else if c = '/' then some 63 else none

/-- Three bytes as one number. -/
def group (a b c : UInt8) : Nat := (a.toNat * 256 + b.toNat) * 256 + c.toNat

def encode : List UInt8 → List Char
  | [] => []
  | [a] => [digit (group a 0 0 / 262144), digit (group a 0 0 / 4096 % 64), '=', '=']
  | [a, b] => [digit (group a b 0 / 262144), digit (group a b 0 / 4096 % 64), digit (group a b 0 / 64 % 64), '=']
  | a :: b :: c :: rest =>
    digit (group a b c / 262144) :: digit (group a b c / 4096 % 64) :: digit (group a b c / 64 % 64) ::
      digit (group a b c % 64) :: encode rest

/-- A group of which one byte is there. -/
def lastOne (n : Nat) : Option (List UInt8) := if n % 65536 = 0 then some [UInt8.ofNat (n / 65536)] else none

def lastTwo (n : Nat) : Option (List UInt8) :=
  if n % 256 = 0 then some [UInt8.ofNat (n / 65536), UInt8.ofNat (n / 256)] else none

def bytesOf (n : Nat) : List UInt8 := [UInt8.ofNat (n / 65536), UInt8.ofNat (n / 256), UInt8.ofNat n]

def decode : List Char → Option (List UInt8)
  | [] => some []
  | w :: x :: y :: z :: rest =>
    if z = '=' then
      if rest ≠ [] then none
      else if y = '=' then do lastOne (((← value w) * 64 + (← value x)) * 4096)
      else do lastTwo ((((← value w) * 64 + (← value x)) * 64 + (← value y)) * 64)
    else do
      let group := bytesOf ((((← value w) * 64 + (← value x)) * 64 + (← value y)) * 64 + (← value z))
      return group ++ (← decode rest)
  | _ => none

theorem digits (n : Nat) (small : n < 64) : value (digit n) = some n ∧ digit n ≠ '=' := by
  have all : ∀ n : Fin 64, value (digit n) = some n.val ∧ digit n ≠ '=' := by decide +kernel
  exact all ⟨n, small⟩

theorem byte_ofNat {a : UInt8} {n : Nat} (is : n % 256 = a.toNat) : UInt8.ofNat n = a :=
  UInt8.toNat.inj (UInt8.toNat_ofNat'.trans is)

theorem sextets (n : Nat) : ((n / 262144 * 64 + n / 4096 % 64) * 64 + n / 64 % 64) * 64 + n % 64 = n := by
  omega

/-- The bytes of a group, and its first digit's range. -/
theorem group_bytes (a b c : UInt8) : UInt8.ofNat (group a b c / 65536) = a ∧ UInt8.ofNat (group a b c / 256) = b ∧
    UInt8.ofNat (group a b c) = c ∧ group a b c / 262144 < 64 := by
  have first := a.toNat_lt
  have second := b.toNat_lt
  have third := c.toNat_lt
  unfold group
  generalize is : a.toNat = x at first
  generalize is' : b.toNat = y at second
  generalize is'' : c.toNat = z at third
  exact ⟨byte_ofNat (by omega), byte_ofNat (by omega), byte_ofNat (by omega), by omega⟩

/-- What is encoded is read back. -/
theorem decode_encode (bytes : List UInt8) : decode (encode bytes) = some bytes := by
  induction bytes using encode.induct with
  | case1 => rfl
  | case2 a =>
    obtain ⟨first, -, -, small⟩ := group_bytes a 0 0
    have unused : group a 0 0 % 65536 = 0 := by
      simp only [group, UInt8.toNat_zero]
      omega
    simp only [encode]
    generalize group a 0 0 = n at first small unused
    obtain ⟨w, -⟩ := digits (n / 262144) small
    obtain ⟨x, -⟩ := digits (n / 4096 % 64) (Nat.mod_lt _ (by decide))
    have whole : (n / 262144 * 64 + n / 4096 % 64) * 4096 = n := by omega
    simp only [decode, w, x, ↓reduceIte, ne_eq, not_true_eq_false, Option.bind_eq_bind, Option.bind_some]
    rw [whole, lastOne, if_pos unused, first]
  | case3 a b =>
    obtain ⟨first, second, -, small⟩ := group_bytes a b 0
    have unused : group a b 0 % 256 = 0 := by
      simp only [group, UInt8.toNat_zero]
      omega
    simp only [encode]
    generalize group a b 0 = n at first second small unused
    obtain ⟨w, -⟩ := digits (n / 262144) small
    obtain ⟨x, -⟩ := digits (n / 4096 % 64) (Nat.mod_lt _ (by decide))
    obtain ⟨y, some_⟩ := digits (n / 64 % 64) (Nat.mod_lt _ (by decide))
    have whole : ((n / 262144 * 64 + n / 4096 % 64) * 64 + n / 64 % 64) * 64 = n := by omega
    simp only [decode, w, x, y, some_, ↓reduceIte, ne_eq, not_true_eq_false, Option.bind_eq_bind, Option.bind_some]
    rw [whole, lastTwo, if_pos unused, first, second]
  | case4 a b c rest ih =>
    obtain ⟨first, second, third, small⟩ := group_bytes a b c
    simp only [encode]
    generalize group a b c = n at first second third small
    obtain ⟨w, -⟩ := digits (n / 262144) small
    obtain ⟨x, -⟩ := digits (n / 4096 % 64) (Nat.mod_lt _ (by decide))
    obtain ⟨y, -⟩ := digits (n / 64 % 64) (Nat.mod_lt _ (by decide))
    obtain ⟨z, some_⟩ := digits (n % 64) (Nat.mod_lt _ (by decide))
    simp only [decode, w, x, y, z, some_, ↓reduceIte, ih, Option.bind_eq_bind, Option.bind_some, Option.pure_def]
    rw [sextets, bytesOf, first, second, third]
    rfl

example : encode [0x00, 0x40] = "AEA=".toList ∧ decode "TWFu".toList = some [77, 97, 110] ∧
  decode "TWF".toList = none := by
  decide +kernel

end Base64
