import Mathlib.Logic.Function.Basic
import Mathlib.Data.List.Basic

/-!
# Rows in slots

A memory of cells in which sequences keep one row for each of their positions,
in a slot that the position has. The sequences grow by chunks, several of them
at a time, and what is written last of a cell is what it holds.
-/

namespace Slots

variable {ι V : Type}

/-- Cells written one after the other. -/
def setAll (cells : List V) (writes : List (Nat × V)) : List V :=
  writes.foldl (fun cells w => cells.set w.1 w.2) cells

@[simp] theorem setAll_nil (cells : List V) : setAll cells [] = cells := rfl

@[simp] theorem setAll_cons (cells : List V) (w : Nat × V) (writes : List (Nat × V)) :
    setAll cells (w :: writes) = setAll (cells.set w.1 w.2) writes := rfl

theorem setAll_append (cells : List V) (first second : List (Nat × V)) :
    setAll cells (first ++ second) = setAll (setAll cells first) second := List.foldl_append

@[simp] theorem setAll_length (cells : List V) (writes : List (Nat × V)) :
    (setAll cells writes).length = cells.length := by
  induction writes generalizing cells with
  | nil => rfl
  | cons w writes ih => rw [setAll_cons, ih, List.length_set]

/-- A cell that held a value, or was written, holds it if nothing else is written there. -/
theorem setAll_at {cells : List V} {writes : List (Nat × V)} {i : Nat} {v : V} (within : i < cells.length)
    (same : ∀ w ∈ writes, w.1 = i → w.2 = v) (there : cells[i]? = some v ∨ ∃ w ∈ writes, w.1 = i) :
    (setAll cells writes)[i]? = some v := by
  induction writes generalizing cells with
  | nil => exact there.resolve_right fun ⟨w, mem, _⟩ => absurd mem List.not_mem_nil
  | cons w writes ih =>
    rw [setAll_cons]
    refine ih (by rwa [List.length_set]) (fun w' mem => same w' (List.mem_cons_of_mem w mem)) ?_
    by_cases here : w.1 = i
    · left
      rw [here, List.getElem?_set_self within, same w List.mem_cons_self here]
    · rcases there with held | ⟨w', mem, is⟩
      · exact .inl (by rw [List.getElem?_set_ne here, held])
      · rcases List.mem_cons.mp mem with rfl | later
        · exact absurd is here
        · exact .inr ⟨w', later, is⟩

/-- Consecutive cells are written as one piece. -/
theorem setAll_run (cells : List V) (at_ : Nat) (src : List V) (within : at_ + src.length ≤ cells.length) :
    setAll cells ((List.range' at_ src.length).zip src) = cells.take at_ ++ src ++ cells.drop (at_ + src.length) := by
  induction src generalizing cells at_ with
  | nil => simp
  | cons v src ih =>
    rw [List.length_cons] at within
    have first : at_ < cells.length := by omega
    rw [List.length_cons, List.range'_succ, List.zip_cons_cons, setAll_cons,
      ih _ (at_ + 1) (by rw [List.length_set]; omega), List.take_set, List.drop_set_of_lt (by omega),
      List.take_add_one, List.getElem?_eq_getElem first, Option.toList_some,
      List.set_append_right _ _ (by rw [List.length_take]; omega), List.length_take,
      Nat.min_eq_left (by omega), Nat.sub_self, List.set_cons_zero, show at_ + 1 + src.length = at_ + (src.length + 1) by
        omega]
    simp

/-- The next positions of a sequence. -/
structure Chunk (ι : Type) where
  seq : ι
  start : Nat
  q : Nat

def Chunk.positions (c : Chunk ι) : List Nat := List.range' c.start c.q

section Growth

variable [DecidableEq ι]

/-- How far each sequence is after its chunks. -/
def advance (done : ι → Nat) : List (Chunk ι) → ι → Nat
  | [] => done
  | c :: rest => advance (Function.update done c.seq (c.start + c.q)) rest

/-- Each chunk begins where its sequence is, and ends within it. -/
def Follow (len done : ι → Nat) : List (Chunk ι) → Prop
  | [] => True
  | c :: rest => c.start = done c.seq ∧ c.start + c.q ≤ len c.seq ∧
      Follow len (Function.update done c.seq (c.start + c.q)) rest

variable {len done : ι → Nat} {chunks more : List (Chunk ι)}

theorem advance_append : advance done (chunks ++ more) = advance (advance done chunks) more := by
  induction chunks generalizing done with
  | nil => rfl
  | cons c rest ih => exact ih

theorem follow_append : Follow len done (chunks ++ more) ↔ Follow len done chunks ∧ Follow len (advance done chunks) more := by
  induction chunks generalizing done with
  | nil => exact ⟨fun h => ⟨trivial, h⟩, And.right⟩
  | cons c rest ih => simp only [List.cons_append, Follow, advance, ih, and_assoc]

theorem Follow.within (follow : Follow len done chunks) {c : Chunk ι} (mem : c ∈ chunks) : c.start + c.q ≤ len c.seq := by
  induction chunks generalizing done with
  | nil => cases mem
  | cons d rest ih =>
    rcases List.mem_cons.mp mem with rfl | later
    · exact follow.2.1
    · exact ih follow.2.2 later

theorem Follow.advance_le (follow : Follow len done chunks) (le : ∀ s, done s ≤ len s) (s : ι) :
    advance done chunks s ≤ len s := by
  induction chunks generalizing done with
  | nil => exact le s
  | cons c rest ih =>
    refine ih follow.2.2 fun t => ?_
    rw [Function.update_apply]
    split
    · rename_i same
      exact same ▸ follow.2.1
    · exact le t

/-- Positions that a sequence is past were so before, or are in a chunk. -/
theorem Follow.covered (follow : Follow len done chunks) {s : ι} {p : Nat} (lt : p < advance done chunks s) :
    p < done s ∨ ∃ c ∈ chunks, c.seq = s ∧ p ∈ c.positions := by
  induction chunks generalizing done with
  | nil => exact .inl lt
  | cons c rest ih =>
    rcases ih follow.2.2 lt with before | ⟨d, mem, is⟩
    · rw [Function.update_apply] at before
      split at before
      · rename_i same
        rcases Nat.lt_or_ge p c.start with old | new
        · exact .inl (by rw [same, ← follow.1]; exact old)
        · exact .inr ⟨c, List.mem_cons_self, same.symm, List.mem_range'_1.mpr ⟨new, before⟩⟩
      · exact .inl before
    · exact .inr ⟨d, List.mem_cons_of_mem c mem, is⟩

/-- A chunk of a step ends where its sequence is after the step or before. -/
theorem Follow.le_advance (follow : Follow len done chunks) (s : ι) : done s ≤ advance done chunks s := by
  induction chunks generalizing done with
  | nil => exact Nat.le_refl _
  | cons c rest ih =>
    refine Nat.le_trans ?_ (ih follow.2.2)
    rw [Function.update_apply]
    split
    · rename_i same
      rw [same, ← follow.1]
      exact Nat.le_add_right _ _
    · exact Nat.le_refl _

theorem Follow.end_le (follow : Follow len done chunks) {c : Chunk ι} (mem : c ∈ chunks) :
    c.start + c.q ≤ advance done chunks c.seq := by
  induction chunks generalizing done with
  | nil => cases mem
  | cons d rest ih =>
    rcases List.mem_cons.mp mem with rfl | later
    · have := follow.2.2.le_advance c.seq
      rwa [Function.update_self] at this
    · exact ih follow.2.2 later

end Growth

section Memory

variable (slot : ι → Nat → Nat) (row : ι → Nat → V)

/-- Positions that share a slot have the same row. -/
def Coherent (len : ι → Nat) : Prop :=
  ∀ s p t q, p < len s → q < len t → slot s p = slot t q → row s p = row t q

/-- The sequences' rows are in their slots, as far as the sequences are. -/
def Holds (cells : List V) (done : ι → Nat) : Prop := ∀ s p, p < done s → cells[slot s p]? = some (row s p)

/-- What the chunks of a step write. -/
def writes (chunks : List (Chunk ι)) : List (Nat × V) :=
  chunks.flatMap fun c => c.positions.map fun p => (slot c.seq p, row c.seq p)

variable {slot} {row} {len done : ι → Nat} {cells : List V} {chunks : List (Chunk ι)}

theorem Holds.step [DecidableEq ι] (coherent : Coherent slot row len)
    (inside : ∀ s p, p < len s → slot s p < cells.length) (le : ∀ s, done s ≤ len s) (holds : Holds slot row cells done)
    (follow : Follow len done chunks) :
    Holds slot row (setAll cells (writes slot row chunks)) (advance done chunks) := by
  intro s p lt
  have within : p < len s := Nat.lt_of_lt_of_le lt (follow.advance_le le s)
  refine setAll_at (inside s p within) (fun w mem is => ?_) ?_
  · obtain ⟨c, chunk, mem⟩ := List.mem_flatMap.mp mem
    obtain ⟨q, at_, rfl⟩ := List.mem_map.mp mem
    have := (List.mem_range'_1.mp at_).2
    exact coherent _ _ _ _ (Nat.lt_of_lt_of_le this (follow.within chunk)) within is
  · rcases follow.covered lt with before | ⟨c, chunk, rfl, at_⟩
    · exact .inl (holds s p before)
    · exact .inr ⟨_, List.mem_flatMap.mpr ⟨c, chunk, List.mem_map_of_mem at_⟩, rfl⟩

end Memory

end Slots
