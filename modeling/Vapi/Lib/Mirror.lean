import Vapi.Lib.Slots
import Mathlib.Data.List.Forall2

/-!
# Cells that mirror keys

Some cells of a memory are to hold the value of a key. What is done to the keys
and to the cells alike keeps the one the image of the other, whatever the values
are; so several memories can follow one list of keys, each with values of its own.
-/

namespace Slots

variable {ι K V : Type}

/-- Each cell that has a key holds its value. -/
def Mirrors (value : K → V) (cells : List V) (keys : List (Option K)) : Prop :=
  List.Forall₂ (fun v key => ∀ k ∈ key, v = value k) cells keys

namespace Mirrors

variable {value : K → V} {cells : List V} {keys : List (Option K)}

theorem length (h : Mirrors value cells keys) : cells.length = keys.length := List.Forall₂.length_eq h

/-- Where there are no keys yet, anything does. -/
theorem blank (value : K → V) (cells : List V) : Mirrors value cells (List.replicate cells.length none) := by
  induction cells with
  | nil => exact .nil
  | cons v cells ih => exact .cons (fun _ none => by cases none) ih

theorem at_ (h : Mirrors value cells keys) {i : Nat} {k : K} (here : keys[i]? = some (some k)) :
    cells[i]? = some (value k) := by
  obtain ⟨within, is⟩ := List.getElem?_eq_some_iff.mp here
  have inside : i < cells.length := h.length ▸ within
  have held := List.Forall₂.get h inside within
  rw [List.get_eq_getElem, List.get_eq_getElem, is] at held
  rw [List.getElem?_eq_getElem inside, held k rfl]

theorem set (h : Mirrors value cells keys) (i : Nat) (k : K) :
    Mirrors value (cells.set i (value k)) (keys.set i (some k)) := by
  induction h generalizing i with
  | nil => exact .nil
  | cons first rest ih =>
    cases i with
    | zero => exact .cons (fun k' is => by rw [Option.some.inj is]) rest
    | succ i => exact .cons first (ih i)

/-- A key put in a cell, and its value with it. -/
theorem setAll (h : Mirrors value cells keys) (puts : List (Nat × K)) :
    Mirrors value (Slots.setAll cells (puts.map fun w => (w.1, value w.2)))
      (Slots.setAll keys (puts.map fun w => (w.1, some w.2))) := by
  induction puts generalizing cells keys with
  | nil => exact h
  | cons w puts ih => exact ih (h.set w.1 w.2)

theorem take (h : Mirrors value cells keys) (n : Nat) : Mirrors value (cells.take n) (keys.take n) :=
  List.forall₂_take n h

theorem drop (h : Mirrors value cells keys) (n : Nat) : Mirrors value (cells.drop n) (keys.drop n) :=
  List.forall₂_drop n h

theorem append {cells' : List V} {keys' : List (Option K)} (h : Mirrors value cells keys)
    (h' : Mirrors value cells' keys') : Mirrors value (cells ++ cells') (keys ++ keys') :=
  List.rel_append h h'

end Mirrors

/-- What the chunks of a step put in their slots. -/
theorem writes_value (slot : ι → Nat → Nat) (key : ι → Nat → K) (value : K → V) (chunks : List (Chunk ι)) :
    writes slot (fun s p => value (key s p)) chunks = (writes slot key chunks).map fun w => (w.1, value w.2) := by
  simp only [writes, List.map_flatMap, List.map_map, Function.comp_def]

end Slots
