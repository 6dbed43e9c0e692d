import Vapi.Lib.Mirror
import Vapi.Lib.Paged

/-!
# Pages in a row

The first pages of a memory as one list of cells, by which cells that are kept
as a list can mirror it: what is written or copied in the one is in the other.
-/

namespace Paged

variable {V : Type}

/-- The cells of the first `n` pages. -/
def Memory.cells (m : Memory V) (n size : Nat) : List (Option V) :=
  (List.range (n * size)).map fun c => m (c / size) (c % size)

/-- One page's cells put over another's. -/
def copyPage {α : Type} (size : Nat) (cells : List α) (src dst : Nat) : List α :=
  cells.take (dst * size) ++ (cells.drop (src * size)).take size ++ cells.drop (dst * size + size)

variable {m : Memory V} {n size : Nat}

@[simp] theorem cells_length : (m.cells n size).length = n * size := by
  rw [Memory.cells, List.length_map, List.length_range]

theorem cells_at {c : Nat} (lt : c < n * size) : (m.cells n size)[c]? = some (m (c / size) (c % size)) := by
  rw [Memory.cells, List.getElem?_map, List.getElem?_range lt]
  rfl

theorem cells_empty : Memory.cells (fun _ _ => none : Memory V) n size = List.replicate (n * size) none := by
  rw [Memory.cells, List.map_const', List.length_range]

theorem cells_write (size_pos : 0 < size) (c : Nat) (v : V) :
    (m.write size c v).cells n size = (m.cells n size).set c (some v) := by
  refine List.ext_getElem? fun i => ?_
  rw [List.getElem?_set, cells_length]
  rcases Nat.lt_or_ge i (n * size) with lt | ge
  · have written : m.write size (c / size * size + c % size) v (i / size) (i % size) =
        if i / size = c / size ∧ i % size = c % size then some v else m (i / size) (i % size) :=
      write_apply (Nat.mod_lt c size_pos) ..
    rw [Nat.mul_comm, Nat.div_add_mod] at written
    rw [cells_at lt, written]
    by_cases here : c = i
    · rw [if_pos ⟨by rw [here], by rw [here]⟩, if_pos here, if_pos (here ▸ lt)]
    · rw [if_neg here, cells_at lt, if_neg]
      rintro ⟨page, offset⟩
      exact here (by rw [← Nat.div_add_mod c size, ← Nat.div_add_mod i size, page, offset])
  · have past {m : Memory V} : (m.cells n size)[i]? = none := List.getElem?_eq_none (by rw [cells_length]; exact ge)
    rw [past, past]
    by_cases here : c = i
    · rw [if_pos here, if_neg (by omega)]
    · rw [if_neg here]

/-- The cells of a page. -/
theorem cells_page {page : Nat} (lt : page < n) :
    ((m.cells n size).drop (page * size)).take size = (List.range size).map (m page) := by
  have fits : page * size + size ≤ n * size := by
    rw [← Nat.succ_mul]
    exact Nat.mul_le_mul_right size lt
  refine List.ext_getElem? fun i => ?_
  rw [List.getElem?_take]
  split
  · rename_i inside
    rw [List.getElem?_drop, cells_at (by omega), List.getElem?_map, List.getElem?_range inside, Option.map_some,
      Nat.add_comm, Nat.add_mul_div_right _ _ (Nat.zero_lt_of_lt inside), Nat.add_mul_mod_self_right,
      Nat.div_eq_of_lt inside, Nat.mod_eq_of_lt inside, Nat.zero_add]
  · rename_i past
    rw [List.getElem?_eq_none (by rw [List.length_map, List.length_range]; omega)]

theorem cells_copy {src dst : Nat} (source : src < n) (target : dst < n) :
    (m.copy src dst).cells n size = copyPage size (m.cells n size) src dst := by
  have fits : dst * size + size ≤ n * size := by
    rw [← Nat.succ_mul]
    exact Nat.mul_le_mul_right size target
  have before : ((m.cells n size).take (dst * size)).length = dst * size := by
    rw [List.length_take, cells_length]
    omega
  refine List.ext_getElem? fun i => ?_
  rw [copyPage, cells_page source, List.append_assoc]
  rcases Nat.lt_or_ge i (dst * size) with lt | ge
  · have page : i / size ≠ dst := fun here => by
      subst here
      exact absurd lt (Nat.not_lt.mpr (Nat.div_mul_le_self i size))
    rw [List.getElem?_append_left (by rw [before]; exact lt), List.getElem?_take, if_pos lt, cells_at (by omega), cells_at (by omega),
      Memory.copy, Function.update_of_ne page]
  · rw [List.getElem?_append_right (by rw [before]; exact ge), before]
    obtain ⟨j, rfl⟩ := Nat.exists_eq_add_of_le ge
    rw [Nat.add_sub_cancel_left]
    rcases Nat.lt_or_ge j size with inside | past
    · have page : (dst * size + j) / size = dst := by
        rw [Nat.add_comm, Nat.add_mul_div_right _ _ (Nat.zero_lt_of_lt inside), Nat.div_eq_of_lt inside, Nat.zero_add]
      have offset : (dst * size + j) % size = j := by
        rw [Nat.add_comm, Nat.add_mul_mod_self_right, Nat.mod_eq_of_lt inside]
      rw [List.getElem?_append_left (by simpa using inside), cells_at (by omega), page, offset, Memory.copy,
        Function.update_self, List.getElem?_map, List.getElem?_range inside]
      rfl
    · rw [List.getElem?_append_right (by simpa using past), List.getElem?_drop, List.length_map, List.length_range]
      obtain ⟨k, rfl⟩ := Nat.exists_eq_add_of_le past
      rw [Nat.add_sub_cancel_left, ← Nat.add_assoc]
      rcases Nat.lt_or_ge (dst * size + size + k) (n * size) with lt | ge
      · have size_pos : 0 < size := Nat.pos_of_ne_zero fun none => by simp [none] at lt
        have page : (dst * size + size + k) / size ≠ dst := fun here => by
          have le := Nat.div_mul_le_self (dst * size + size + k) size
          have lt := Nat.lt_div_mul_add size_pos (a := dst * size + size + k)
          rw [here] at lt
          omega
        rw [cells_at lt, cells_at lt, Memory.copy, Function.update_of_ne page]
      · rw [List.getElem?_eq_none (by rw [cells_length]; exact ge), List.getElem?_eq_none (by rw [cells_length]; exact ge)]

/-- Cells that mirror a memory's pages do so when a page of each is copied. -/
theorem copyPage_mirrors {K : Type} {value : K → V} {cells : List V} {keys : List (Option K)}
    (h : Slots.Mirrors value cells keys) (size src dst : Nat) :
    Slots.Mirrors value (copyPage size cells src dst) (copyPage size keys src dst) :=
  ((h.take _).append ((h.drop _).take _)).append (h.drop _)

end Paged
