import Vapi.Engine.Plan
import Mathlib.Algebra.Order.BigOperators.Group.List
import Mathlib.Algebra.Order.Group.Nat

/-!
# When a batch is valid

A batch made of covered entries passes `validate` if no two of its tokens
share a slot and its cumulative lengths and slots fit the `u32` they are kept
in.
-/

namespace Vapi.Engine

open Vapi.Cache
open Ragged (offsets)

namespace ForwardBatch

theorem ensure_ok {ok : Bool} {message : String} (h : ok = true) : ensure ok message = .ok () := by
  rw [h]
  rfl

theorem checkAll_ok {α : Type} {check : α → Except Error Unit} {l : List α}
    (h : ∀ x ∈ l, check x = .ok ()) : checkAll check l = .ok () := by
  induction l with
  | nil => rfl
  | cons x l ih =>
    rw [checkAll, h x (by simp)]
    exact ih fun y hy => h y (by simp [hy])

end ForwardBatch

theorem toNat_ofNat {n : Nat} (h : n < 2 ^ 32) : (UInt32.ofNat n).toNat = n :=
  UInt32.toNat_ofNat_of_lt' h

theorem ofNat_le_ofNat {a b : Nat} (le : a ≤ b) (h : b < 2 ^ 32) : UInt32.ofNat a ≤ UInt32.ofNat b := by
  rw [UInt32.le_iff_toNat_le, toNat_ofNat h, toNat_ofNat (Nat.lt_of_le_of_lt le h)]
  exact le

theorem ofNat_sub_ofNat {a q : Nat} (h : a + q < 2 ^ 32) :
    (UInt32.ofNat (a + q) - UInt32.ofNat a).toNat = q := by
  rw [UInt32.toNat_sub_of_le _ _ (ofNat_le_ofNat (Nat.le_add_right a q) h), toNat_ofNat h,
    toNat_ofNat (Nat.lt_of_le_of_lt (Nat.le_add_right a q) h), Nat.add_sub_cancel_left]

/-- Neighbours in a list without duplicates differ. -/
theorem windows_ne {α : Type} {l : List α} (nodup : l.Nodup) : ∀ w ∈ windows l, w.1 ≠ w.2 := by
  induction l with
  | nil => simp [windows]
  | cons x l ih =>
    obtain ⟨out, nodup⟩ := List.nodup_cons.mp nodup
    cases l with
    | nil => simp [windows]
    | cons y l =>
      intro w hw
      rcases List.mem_cons.mp (show w ∈ (x, y) :: windows (y :: l) from hw) with rfl | hw
      · exact fun e => out (by simp [show x = y from e])
      · exact ih nodup w hw

theorem ForwardBatch.validateSlots_of {b : ForwardBatch} {numBlocks blockSize : Nat}
    (nodup : b.slotMapping.Nodup) (inside : ∀ s ∈ b.slotMapping, s.toNat < numBlocks * blockSize) :
    b.validateSlots numBlocks blockSize = .ok () := by
  have none_ : (windows (b.slotMapping.insertionSort (· ≤ ·))).find? (fun w => w.1 = w.2) = none := by
    rw [List.find?_eq_none]
    intro w mem
    simpa using windows_ne ((List.perm_insertionSort _ _).nodup_iff.mpr nodup) w mem
  unfold validateSlots
  simp only [none_]
  split
  · contradiction
  · rename_i s _ last
    exact ensure_ok (by simpa using inside s ((List.mem_insertionSort _).mp (List.mem_of_getLast? last)))
  · rfl

section Cumulative

variable {es : List Entry} {f : Entry → Nat}

/-- The cumulative lengths of a batch. -/
def cumulative (f : Entry → Nat) (es : List Entry) : List UInt32 :=
  if es.isEmpty then [] else (offsets 0 (es.map f)).map UInt32.ofNat

theorem cumulative_getD {i : Nat} (h : i ≤ es.length) :
    (cumulative f es).getD i 0 = UInt32.ofNat ((es.map f).take i).sum := by
  unfold cumulative
  cases es with
  | nil =>
    obtain rfl : i = 0 := Nat.le_zero.mp h
    rfl
  | cons e es =>
    rw [if_neg (by simp), List.getD_eq_getElem?_getD, List.getElem?_map,
      Ragged.offsets_getElem? 0 (by simpa using h), Nat.zero_add]
    rfl

/-- The difference around an entry is its own length. -/
theorem cumulative_sub {i : Nat} {e : Entry} (fits : (es.map f).sum < 2 ^ 32)
    (get : es[i]? = some e) :
    ((cumulative f es).getD (i + 1) 0 - (cumulative f es).getD i 0).toNat = f e := by
  have lt := (List.getElem?_eq_some_iff.mp get).1
  have next : ((es.map f).take (i + 1)).sum = ((es.map f).take i).sum + f e := by
    rw [List.take_add_one, List.getElem?_map, get]
    simp
  have le := Ragged.take_sum_le (es.map f) (i + 1)
  rw [cumulative_getD lt, cumulative_getD (Nat.le_of_lt lt), next]
  exact ofNat_sub_ofNat (by omega)

end Cumulative

section Batch

variable {es : List Entry} {bs n : Nat}

theorem sum_q_le (es : List Entry) : (es.map Entry.q).sum ≤ (es.map Entry.stop).sum :=
  List.sum_le_sum fun _ _ => Nat.le_add_left _ _

theorem slot_lt {e : Entry} (size : 0 < bs) (c : e.Covered bs) (valid : ∀ b ∈ e.seq.blocks, b < n) {i : Nat}
    (hi : i ∈ e.positions) : e.slot bs i < n * bs := by
  have lt : i / bs < e.seq.blocks.length := (Nat.div_lt_iff_lt_mul size).mpr
    (Nat.lt_of_lt_of_le (Entry.mem_positions.mp hi).2 c.blocks)
  rw [Entry.slot, List.getD_eq_getElem?_getD, List.getElem?_eq_getElem lt, Option.getD_some]
  have block := valid _ (List.getElem_mem lt)
  have off := Nat.mod_lt i size
  calc e.seq.blocks[i / bs] * bs + i % bs < e.seq.blocks[i / bs] * bs + bs :=
        Nat.add_lt_add_left off _
    _ = (e.seq.blocks[i / bs] + 1) * bs := by rw [Nat.succ_mul]
    _ ≤ n * bs := Nat.mul_le_mul_right bs block

/-- The slots of a batch, before they are cut to 32 bits. -/
def slotsOf (bs : Nat) (es : List Entry) : List Nat := es.flatMap fun e => e.positions.map (e.slot bs)

end Batch

end Vapi.Engine
