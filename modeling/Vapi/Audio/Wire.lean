import Vapi.Audio.Chunks
import Vapi.Lib.Rounding

/-!
# Samples on the wire

`to_i16_le` and `from_i16_le` of `vapi-audio/src/wav.rs`: a gateway sends
samples as 16-bit integers. There and back no sample moves by more than a step
and a half.
-/

namespace Vapi.Audio

open Cache (leBytes leBytes_length)

/-- 32-bit floats by their numbers; what is none of them is nought. -/
def f32 : F32 ℚ where
  zero := 0
  ofInt n := Binary32.round n
  ofBits w :=
    if w / 2 ^ 23 % 2 ^ 8 = 255 then 0
    else (if w < 2 ^ 31 then 1 else -1) * Binary32.magnitude (w / 2 ^ 23 % 2 ^ 8) (w % 2 ^ 23)
  add a b := Binary32.round (a + b)
  sub a b := Binary32.round (a - b)
  div a b := Binary32.round (a / b)

def clamp (s : ℚ) : ℚ := max (-1) (min s 1)

/-- The nearest integer, halves away from nought. -/
def roundAway (x : ℚ) : Int := if 0 ≤ x then ⌊x + 1 / 2⌋ else -⌊-x + 1 / 2⌋

/-- The conversion saturates. -/
def toI16 (s : ℚ) : Int := max (-2 ^ 15) (min (roundAway (Binary32.round (clamp s * 32767))) (2 ^ 15 - 1))

/-- 16-bit little-endian PCM, for putting audio on the wire. -/
def toI16Le (samples : List ℚ) : List UInt8 := samples.flatMap fun s => leBytes 2 (BitVec.ofInt 16 (toI16 s)).toNat

/-- The inverse of what puts samples on the wire. -/
def fromI16Le {F : Type} (k : F32 F) (bytes : List UInt8) : List F :=
  (chunksExact 2 bytes).map fun c => k.div (k.ofInt (fromLe 16 c)) (k.ofInt 32768)

theorem clamp_range (s : ℚ) : -1 ≤ clamp s ∧ clamp s ≤ 1 :=
  ⟨le_max_left _ _, max_le (by norm_num) (min_le_right _ _)⟩

theorem roundAway_close (x : ℚ) : |(roundAway x : ℚ) - x| ≤ 1 / 2 := by
  unfold roundAway
  split
  · have below := Int.floor_le (x + 1 / 2)
    have above := Int.lt_floor_add_one (x + 1 / 2)
    rw [abs_le]
    constructor <;> linarith
  · have below := Int.floor_le (-x + 1 / 2)
    have above := Int.lt_floor_add_one (-x + 1 / 2)
    push_cast
    rw [abs_le]
    constructor <;> linarith

/-- The product is off by half a last place below 2¹⁵. -/
theorem scaled_close (s : ℚ) : |Binary32.round (clamp s * 32767) - clamp s * 32767| ≤ 1 / 2 ^ 10 := by
  obtain ⟨low, high⟩ := clamp_range s
  have reaches : |clamp s * 32767| < Binary32.magnitude 141 (2 ^ 23) := by
    have top : Binary32.magnitude 141 (2 ^ 23) =
      2 ^ 15 := by norm_num [Binary32.magnitude, Binary32.hidden, Binary32.unit]
    rw [top, abs_lt]
    constructor <;> linarith
  refine (Binary32.round_within (by omega) reaches).trans ?_
  norm_num [Binary32.unit]

theorem toI16_close (s : ℚ) : |(toI16 s : ℚ) - clamp s * 32767| ≤ 1 / 2 + 1 / 2 ^ 10 := by
  obtain ⟨low, high⟩ := clamp_range s
  have near := abs_le.mp (roundAway_close (Binary32.round (clamp s * 32767)))
  have product := abs_le.mp (scaled_close s)
  obtain ⟨least, most⟩ : -32767 ≤ roundAway (Binary32.round (clamp s * 32767)) ∧
      roundAway (Binary32.round (clamp s * 32767)) ≤ 32767 := by
    constructor
    · have lower : ((-32768 : Int) : ℚ) < roundAway (Binary32.round (clamp s * 32767)) := by
        push_cast
        linarith
      exact_mod_cast Int.add_one_le_iff.mpr (by exact_mod_cast lower : (-32768 : Int) < _)
    · have upper : (roundAway (Binary32.round (clamp s * 32767)) : ℚ) < ((32768 : Int) : ℚ) := by
        push_cast
        linarith
      have upper : roundAway (Binary32.round (clamp s * 32767)) < 32768 := by exact_mod_cast upper
      omega
  have unsaturated : toI16 s = roundAway (Binary32.round (clamp s * 32767)) := by
    unfold toI16
    omega
  rw [unsaturated, abs_le]
  constructor <;> linarith

theorem toI16_range (s : ℚ) : -2 ^ 15 ≤ toI16 s ∧ toI16 s < 2 ^ 15 := by
  unfold toI16
  omega

theorem fromLe_toI16 (s : ℚ) : fromLe 16 (leBytes 2 (BitVec.ofInt 16 (toI16 s)).toNat) = toI16 s := by
  obtain ⟨low, high⟩ := toI16_range s
  have short := (BitVec.ofInt 16 (toI16 s)).isLt
  rw [fromLe, leValue_leBytes, Nat.mod_eq_of_lt (by omega), BitVec.ofNat_toNat, BitVec.setWidth_eq, BitVec.toInt_ofInt,
    Int.bmod_eq_of_le (by omega) (by omega)]

/-- A 16-bit sample has a 32-bit float of its own. -/
theorem sample_exact {n : Int} (low : -2 ^ 15 ≤ n) (high : n < 2 ^ 15) :
    f32.div (f32.ofInt n) (f32.ofInt 32768) = n / 2 ^ 15 := by
  have small : |n| < 2 ^ 24 := by
    rw [abs_lt]
    omega
  have whole : ∀ n : Int, |n| < 2 ^ 24 → Binary32.round n = n := by
    intro n small
    have same := Binary32.round_scaled (j := 149) small (by omega)
    rwa [mul_div_assoc, div_self (by norm_num), mul_one] at same
  have part := Binary32.round_scaled (j := 134) small (by omega)
  change Binary32.round (Binary32.round n / Binary32.round ((32768 : Int) : ℚ)) = _
  rw [whole n small, whole 32768 (by norm_num)]
  have is : (n : ℚ) * 2 ^ 134 / 2 ^ 149 = n / 2 ^ 15 := by
    rw [show (2 : ℚ) ^ 149 = 2 ^ 15 * 2 ^ 134 by norm_num, mul_div_mul_right _ _ (by norm_num)]
  rw [is] at part
  rwa [show (((32768 : Int) : ℚ)) = 2 ^ 15 by norm_num]

/-- What comes back is each sample as its integer has it. -/
theorem fromI16Le_toI16Le (samples : List ℚ) : fromI16Le f32 (toI16Le samples) = samples.map fun s =>
    (toI16 s : ℚ) / 2 ^ 15 := by
  have groups : chunksExact 2 (toI16Le samples) = samples.map fun s => leBytes 2 (BitVec.ofInt 16 (toI16 s)).toNat := by
    have cut : chunksExact 2 ((samples.map fun s => leBytes 2 (BitVec.ofInt 16 (toI16 s)).toNat).flatten ++ []) = _ :=
      chunksExact_flatten (by simp [leBytes_length]) (by simp)
    rwa [List.append_nil, ← List.flatMap_def] at cut
  rw [fromI16Le, groups, List.map_map]
  refine List.map_congr_left fun s _ => ?_
  obtain ⟨low, high⟩ := toI16_range s
  rw [Function.comp_apply, fromLe_toI16, sample_exact low high]

/-- There and back a clip keeps its length, and no sample is off by more than a step and a half. -/
theorem wire_close (samples : List ℚ) :
    List.Forall₂ (fun s heard => |heard - clamp s| ≤ (3 / 2 + 1 / 2 ^ 10) / 2 ^ 15) samples
    (fromI16Le f32 (toI16Le samples)) := by
  rw [fromI16Le_toI16Le, List.forall₂_map_right_iff, List.forall₂_same]
  intro s _
  obtain ⟨low, high⟩ := clamp_range s
  have close := abs_le.mp (toI16_close s)
  have apart : (toI16 s : ℚ) / 2 ^ 15 - clamp s = (toI16 s - clamp s * 32767 - clamp s) / 2 ^ 15 := by
    ring
  rw [apart, abs_div, abs_of_pos (by norm_num : (0 : ℚ) < 2 ^ 15)]
  refine div_le_div_of_nonneg_right (abs_le.mpr ⟨?_, ?_⟩) (by norm_num) <;> linarith

end Vapi.Audio
