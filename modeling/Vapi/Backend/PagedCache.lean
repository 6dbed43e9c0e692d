import Vapi.Lib.Slots
import Vapi.Backend.Modernbert
import Vapi.Engine.Layout
import Mathlib.Data.List.Forall2
import Mathlib.Data.List.Range

/-!
# The paged cache

`vapi-backend-candle/src/cache.rs`: a layer's buffer is its rows, block after
block. A step's rows are written to their slots, and a sequence's rows are
gathered through its block table.
-/

namespace Vapi.Backend

open Vapi.Engine Vapi.Cache Slots

/-- An entry a loop indexes; past the end it panics. -/
def entry {α : Type} (xs : List α) (i : Nat) : Except String α := (xs[i]?).elim (.error "index out of bounds") .ok

theorem mapM_forall₂ {α β γ ε : Type} {f : α → Except ε β} {g : γ → β} {xs : List α} {ys : List γ}
    (each : List.Forall₂ (fun x y => f x = .ok (g y)) xs ys) : xs.mapM f = .ok (ys.map g) := by
  induction each with
  | nil => rfl
  | cons first _ ih =>
    rw [List.mapM_cons, first, ih]
    rfl

theorem ok_bind {α β ε : Type} (a : α) (f : α → Except ε β) : (Except.ok a >>= f) = f a := rfl

theorem entry_eq {α : Type} {xs : List α} {i : Nat} {x : α} (here : xs[i]? = some x) : entry xs i = .ok x := by
  rw [entry, here]
  rfl

variable {V : Type}

/-- `Tensor::slice_set` on the rows. -/
def sliceSet (cells src : List V) (at_ : Nat) : Except String (List V) :=
  if at_ + src.length ≤ cells.length then .ok (cells.take at_ ++ src ++ cells.drop (at_ + src.length))
  else .error "slice-set out of range"

/-- `Tensor::scatter_set` on the rows. -/
def scatterSet (cells : List V) : List (UInt32 × V) → Except String (List V)
  | [] => .ok cells
  | w :: writes =>
    if w.1.toNat < cells.length then scatterSet (cells.set w.1.toNat w.2) writes else .error "index out of range"

/-- How many slots follow on from one, each the next. -/
def following (last : UInt32) : List UInt32 → Nat
  | [] => 0
  | slot :: rest => if slot = last + 1 then following slot rest + 1 else 0

/-- Runs of consecutive slots, each with its start and its end. There are no more than there are slots. -/
def runs : Nat → Nat → List UInt32 → List (Nat × Nat)
  | _, _, [] => []
  | 0, _, _ => []
  | fuel + 1, start, slot :: rest =>
    let more := following slot rest
    (start, start + 1 + more) :: runs fuel (start + 1 + more) (rest.drop more)

/-- Above this many runs a step is written as one scatter. -/
def scatterAboveRuns : Nat := 4

def writeRows (cells src : List V) (slotMapping : List UInt32) : Except String (List V) :=
  if src.length ≠ slotMapping.length then
    .error (toString src.length ++ " tokens but " ++ toString slotMapping.length ++ " cache slots")
  else match (slotMapping.map UInt32.toNat).max? with
    | some s =>
      if cells.length ≤ s then .error ("slot " ++ toString s ++ " is past the end of the cache")
      else
        let runs := runs src.length 0 slotMapping
        if runs.length ≤ scatterAboveRuns then
          runs.foldlM (fun cells run =>
            sliceSet cells ((src.drop run.1).take (run.2 - run.1)) (slotMapping.getD run.1 0).toNat) cells
        else scatterSet cells (slotMapping.zip src)
    | none => .ok cells

/-- One sequence's rows, in logical order. -/
def gatherKv (numBlocks blockSize : Nat) (cells : List V) (blockTable : List BlockId) (lenK : Nat) :
    Except String (List V) := do
  let blocks ← blockTable.mapM fun block =>
    if block < numBlocks then .ok ((cells.drop (block * blockSize)).take blockSize) else .error "index out of range"
  let rows := blocks.flatten
  if lenK ≤ rows.length then .ok (rows.take lenK) else .error "narrow out of range"

section Written

variable {cells : List V}

theorem scatterSet_eq {writes : List (UInt32 × V)} (inside : ∀ w ∈ writes, w.1.toNat < cells.length) :
    scatterSet cells writes = .ok (setAll cells (writes.map fun w => (w.1.toNat, w.2))) := by
  induction writes generalizing cells with
  | nil => rfl
  | cons w writes ih =>
    rw [scatterSet, if_pos (inside w List.mem_cons_self), List.map_cons, setAll_cons]
    exact ih fun w' mem => by rw [List.length_set]; exact inside w' (List.mem_cons_of_mem w mem)

theorem following_le (last : UInt32) (rest : List UInt32) : following last rest ≤ rest.length := by
  induction rest generalizing last with
  | nil => exact Nat.le_refl 0
  | cons slot rest ih =>
    rw [following, List.length_cons]
    split
    · exact Nat.succ_le_succ (ih slot)
    · exact Nat.zero_le _

/-- The slots of a run are consecutive numbers, where none is the last there is. -/
theorem following_range {last : UInt32} {rest : List UInt32} (bound : last.toNat + 1 < 2 ^ 32)
    (bounds : ∀ s ∈ rest, s.toNat + 1 < 2 ^ 32) :
    (rest.take (following last rest)).map UInt32.toNat = List.range' (last.toNat + 1) (following last rest) := by
  induction rest generalizing last with
  | nil => rfl
  | cons slot rest ih =>
    rw [following]
    split
    · rename_i next
      have number : slot.toNat = last.toNat + 1 := by
        rw [next, UInt32.toNat_add]
        exact Nat.mod_eq_of_lt bound
      rw [List.take_succ_cons, List.map_cons, List.range'_succ, ← number,
        ih (bounds slot List.mem_cons_self) fun s mem => bounds s (List.mem_cons_of_mem slot mem)]
    · rfl

theorem runs_eq {src : List V} (fuel start : Nat) {slots all : List UInt32} (enough : slots.length ≤ fuel)
    (suffix : all.drop start = slots) (lengths : src.length = all.length)
    (bounds : ∀ s ∈ slots, s.toNat + 1 < 2 ^ 32) (inside : ∀ s ∈ slots, s.toNat < cells.length) :
    (runs fuel start slots).foldlM (fun cells run =>
        sliceSet cells ((src.drop run.1).take (run.2 - run.1)) (all.getD run.1 0).toNat) cells =
      .ok (setAll cells ((slots.map UInt32.toNat).zip (src.drop start))) := by
  induction fuel generalizing start slots cells with
  | zero =>
    obtain rfl := List.length_eq_zero_iff.mp (Nat.le_zero.mp enough)
    rfl
  | succ fuel ih =>
    cases slots with
    | nil => rfl
    | cons slot rest =>
      have more := following_le slot rest
      have numbers := following_range (bounds slot List.mem_cons_self)
        fun s mem => bounds s (List.mem_cons_of_mem slot mem)
      rw [runs]
      generalize following slot rest = k at more numbers
      have long : rest.length + 1 = src.length - start := by
        rw [lengths, ← List.length_drop, suffix, List.length_cons]
      have piece : ((src.drop start).take (start + 1 + k - start)).length = k + 1 := by
        rw [List.length_take, List.length_drop]
        omega
      have at_ : all.getD start 0 = slot := by
        rw [List.getD_eq_getElem?_getD, ← List.head?_drop, suffix]
        rfl
      have last : slot.toNat + (k + 1) ≤ cells.length := by
        cases k with
        | zero => exact inside slot List.mem_cons_self
        | succ k =>
          have mem : slot.toNat + 1 + k ∈ (rest.take (k + 1)).map UInt32.toNat := by
            rw [numbers]
            exact List.mem_range'_1.mpr (by omega)
          obtain ⟨s, mem, is⟩ := List.mem_map.mp mem
          have := inside s (List.mem_cons_of_mem slot (List.mem_of_mem_take mem))
          omega
      have split : (slot :: rest).map UInt32.toNat =
          List.range' slot.toNat (k + 1) ++ (rest.drop k).map UInt32.toNat := by
        rw [List.range'_succ, ← numbers, List.map_cons, List.cons_append, ← List.map_append, List.take_append_drop]
      have whole : src.drop start = (src.drop start).take (start + 1 + k - start) ++ src.drop (start + 1 + k) := by
        have rest := (List.take_append_drop (start + 1 + k - start) (src.drop start)).symm
        rwa [List.drop_drop, show start + (start + 1 + k - start) = start + 1 + k by omega] at rest
      have zipped : ((slot :: rest).map UInt32.toNat).zip (src.drop start) =
          (List.range' slot.toNat (k + 1)).zip ((src.drop start).take (start + 1 + k - start)) ++
            ((rest.drop k).map UInt32.toNat).zip (src.drop (start + 1 + k)) := by
        conv_lhs => rw [whole, split]
        exact List.zip_append (by rw [List.length_range', piece])
      rw [List.foldlM_cons, at_, sliceSet, if_pos (by rwa [piece]), zipped, setAll_append, ← piece,
        setAll_run cells slot.toNat _ (by rwa [piece])]
      refine ih (start + 1 + k) (by rw [List.length_drop]; rw [List.length_cons] at enough; omega) ?_
        (fun s mem => bounds s (List.mem_cons_of_mem slot (List.mem_of_mem_drop mem))) fun s mem => ?_
      · rw [show start + 1 + k = start + (1 + k) by omega, ← List.drop_drop, suffix, Nat.add_comm 1 k,
          List.drop_succ_cons]
      · have := inside s (List.mem_cons_of_mem slot (List.mem_of_mem_drop mem))
        rw [piece]
        simp only [List.length_append, List.length_take, List.length_drop]
        omega

/-- Slot for slot, whichever way. None may be the last number there is, which no slot follows. -/
theorem writeRows_paths {src : List V} {slotMapping : List UInt32} (bounds : ∀ s ∈ slotMapping, s.toNat + 1 < 2 ^ 32)
    (lengths : src.length = slotMapping.length) (inside : ∀ s ∈ slotMapping, s.toNat < cells.length) :
    (runs src.length 0 slotMapping).foldlM (fun cells run =>
        sliceSet cells ((src.drop run.1).take (run.2 - run.1)) (slotMapping.getD run.1 0).toNat) cells =
        .ok (setAll cells ((slotMapping.map UInt32.toNat).zip src)) ∧
      scatterSet cells (slotMapping.zip src) = .ok (setAll cells ((slotMapping.map UInt32.toNat).zip src)) := by
  constructor
  · have all := runs_eq src.length 0 (Nat.le_of_eq lengths.symm) (List.drop_zero) lengths bounds inside
    rwa [List.drop_zero] at all
  · rw [scatterSet_eq fun w mem => inside w.1 (List.of_mem_zip mem).1, List.zip_map_left]
    rfl

theorem writeRows_eq {src : List V} {slotMapping : List UInt32} (bounds : ∀ s ∈ slotMapping, s.toNat + 1 < 2 ^ 32)
    (lengths : src.length = slotMapping.length) (inside : ∀ s ∈ slotMapping, s.toNat < cells.length) :
    writeRows cells src slotMapping = .ok (setAll cells ((slotMapping.map UInt32.toNat).zip src)) := by
  obtain ⟨byRuns, byScatter⟩ := writeRows_paths bounds lengths inside
  rw [writeRows, if_neg (fun other => other lengths)]
  split
  · rename_i s most
    obtain ⟨slot, mem, rfl⟩ := List.mem_map.mp (List.max?_mem most)
    rw [if_neg (Nat.not_le.mpr (inside slot mem))]
    dsimp only
    split
    · exact byRuns
    · exact byScatter
  · rename_i none
    obtain rfl := List.map_eq_nil_iff.mp (List.max?_eq_none_iff.mp none)
    rfl

/-- Row for row at its slot. -/
def pointwise (cells src : List V) (slotMapping : List UInt32) : List V :=
  (slotMapping.zip src).foldl (fun cells w => cells.set w.1.toNat w.2) cells

theorem pointwise_eq (src : List V) (slotMapping : List UInt32) :
    pointwise cells src slotMapping = setAll cells ((slotMapping.map UInt32.toNat).zip src) := by
  rw [pointwise, setAll, List.zip_map_left, List.foldl_map]
  rfl

/-- A step's rows are written each at its slot, by runs or by one scatter, and nothing else is. -/
theorem write_rows_pointwise {src : List V} {slotMapping : List UInt32} (lengths : src.length = slotMapping.length)
    (distinct : slotMapping.Nodup) (inside : ∀ s ∈ slotMapping, s.toNat < cells.length)
    (bounds : ∀ s ∈ slotMapping, s.toNat + 1 < 2 ^ 32) :
    writeRows cells src slotMapping = .ok (pointwise cells src slotMapping) ∧
      (runs src.length 0 slotMapping).foldlM (fun cells run =>
        sliceSet cells ((src.drop run.1).take (run.2 - run.1)) (slotMapping.getD run.1 0).toNat) cells =
        .ok (pointwise cells src slotMapping) ∧
      scatterSet cells (slotMapping.zip src) = .ok (pointwise cells src slotMapping) ∧
      (∀ (i : Nat) slot row, slotMapping[i]? = some slot → src[i]? = some row →
        (pointwise cells src slotMapping)[slot.toNat]? = some row) ∧
      ∀ s : Nat, (∀ slot ∈ slotMapping, slot.toNat ≠ s) → (pointwise cells src slotMapping)[s]? = cells[s]? := by
  obtain ⟨byRuns, byScatter⟩ := writeRows_paths bounds lengths inside
  have whole := writeRows_eq bounds lengths inside
  rw [← pointwise_eq] at byRuns byScatter whole
  refine ⟨whole, byRuns, byScatter, fun i slot row at_ given => ?_, fun s other => ?_⟩
  · have mem := List.mem_of_getElem? at_
    have together : ∀ w ∈ (slotMapping.map UInt32.toNat).zip src, w.1 = slot.toNat → w.2 = row := by
      intro w mem same
      obtain ⟨j, pair⟩ := List.mem_iff_getElem?.mp mem
      obtain ⟨left, right⟩ := List.getElem?_zip_eq_some.mp pair
      rw [List.getElem?_map] at left
      obtain ⟨slot', at', is⟩ := Option.map_eq_some_iff.mp left
      obtain rfl : slot' = slot := UInt32.toNat_inj.mp (is.trans same)
      obtain rfl : j = i :=
        (List.getElem?_inj (List.getElem?_eq_some_iff.mp at').1 distinct).mp (at'.trans at_.symm)
      exact Option.some.inj (right.symm.trans given)
    rw [pointwise_eq]
    refine setAll_at (inside slot mem) together (.inr ⟨(slot.toNat, row), ?_, rfl⟩)
    refine List.mem_iff_getElem?.mpr ⟨i, List.getElem?_zip_eq_some.mpr ⟨?_, given⟩⟩
    rw [List.getElem?_map, at_, Option.map_some]
  · rw [pointwise_eq]
    cases held : cells[s]? with
    | none =>
      rw [List.getElem?_eq_none_iff] at held ⊢
      rwa [setAll_length]
    | some v =>
      refine setAll_at (List.getElem?_eq_some_iff.mp held).1 (fun w mem is => ?_) (.inl held)
      obtain ⟨slot, known, same⟩ := List.mem_map.mp (List.of_mem_zip mem).1
      exact absurd (same.trans is) (other slot known)

theorem write_rows_pointwise_five :
    let cells := List.replicate 8 0
    let src := [1, 2, 3, 4, 5, 6]
    let slots : List UInt32 := [5, 1, 3, 7, 0, 6]
    writeRows cells src slots = .ok (pointwise cells src slots) ∧
      (runs src.length 0 slots).foldlM (fun cells run =>
        sliceSet cells ((src.drop run.1).take (run.2 - run.1)) (slots.getD run.1 0).toNat) cells =
        .ok (pointwise cells src slots) ∧
      scatterSet cells (slots.zip src) = .ok (pointwise cells src slots) ∧
      (∀ (i : Nat) slot row, slots[i]? = some slot → src[i]? = some row →
        (pointwise cells src slots)[slot.toNat]? = some row) ∧
      ∀ s : Nat, (∀ slot ∈ slots, slot.toNat ≠ s) → (pointwise cells src slots)[s]? = cells[s]? :=
  write_rows_pointwise (by decide) (by decide) (by simp) (by simp)

/-- The last slot of the largest cache and its first are taken for a run. -/
theorem last_slot_runs_on : ¬∀ (cells src : List Unit) (slotMapping : List UInt32), src.length = slotMapping.length →
    slotMapping.Nodup → (∀ s ∈ slotMapping, s.toNat < cells.length) →
    writeRows cells src slotMapping = .ok (pointwise cells src slotMapping) := by
  intro agrees
  have size : (List.replicate (2 ^ 32) ()).length = 2 ^ 32 := List.length_replicate
  have found := agrees (List.replicate (2 ^ 32) ()) [(), ()] [2 ^ 32 - 1, 0] rfl (by decide)
    (List.forall_mem_cons.mpr ⟨by rw [size]; decide, List.forall_mem_singleton.mpr (by rw [size]; decide)⟩)
  have most : (([2 ^ 32 - 1, 0] : List UInt32).map UInt32.toNat).max? = some (2 ^ 32 - 1) := by decide
  have one : runs 2 0 [2 ^ 32 - 1, 0] = [(0, 2)] := by decide
  have out : sliceSet (List.replicate (2 ^ 32) ()) [(), ()] (2 ^ 32 - 1) = .error "slice-set out of range" :=
    if_neg (by rw [size]; decide)
  rw [writeRows, if_neg (fun other => other rfl), most] at found
  dsimp only at found
  rw [if_neg (by rw [size]; decide), List.length_cons, List.length_singleton, one, if_pos (by decide),
    List.foldlM_cons] at found
  cases (congrArg (· >>= _) out).symm.trans found

/-- A sequence's rows come back in the order of its positions. -/
theorem gatherKv_eq {numBlocks blockSize lenK : Nat} {table : List BlockId} {f : Nat → V}
    (size : cells.length = numBlocks * blockSize) (blocks : ∀ block ∈ table, block < numBlocks)
    (covers : lenK ≤ table.length * blockSize)
    (rows : ∀ p, p < lenK → cells[table.getD (p / blockSize) 0 * blockSize + p % blockSize]? = some (f p)) :
    gatherKv numBlocks blockSize cells table lenK = .ok ((List.range lenK).map f) := by
  let piece : BlockId → List V := fun block => (cells.drop (block * blockSize)).take blockSize
  have pieces : table.mapM (fun block =>
      if block < numBlocks then .ok ((cells.drop (block * blockSize)).take blockSize) else .error "index out of range") =
        Except.ok (ε := String) (table.map piece) :=
    mapM_ok fun block mem => if_pos (blocks block mem)
  have lens : ∀ block ∈ table, (piece block).length = blockSize := by
    intro block mem
    have := Nat.mul_le_mul_right blockSize (Nat.succ_le_of_lt (blocks block mem))
    rw [Nat.succ_mul] at this
    simp only [piece, List.length_take, List.length_drop]
    omega
  have total : (table.map piece).flatten.length = table.length * blockSize := by
    rw [← List.flatMap_def, List.length_flatMap, List.map_congr_left lens, List.map_const', List.sum_replicate_nat]
  rw [gatherKv, pieces]
  show (if lenK ≤ (table.map piece).flatten.length then _ else _) = _
  rw [if_pos (total ▸ covers)]
  congr 1
  refine List.ext_getElem? fun p => ?_
  rcases Nat.lt_or_ge p lenK with inside | past
  · rw [List.getElem?_take_of_lt inside, List.getElem?_map, List.getElem?_range inside, Option.map_some, ← rows p inside]
    have size_pos : 0 < blockSize := Nat.pos_of_ne_zero fun none => by simp [none] at covers; omega
    have at_ : p / blockSize < table.length := (Nat.div_lt_iff_lt_mul size_pos).mpr (Nat.lt_of_lt_of_le inside covers)
    have off := Nat.mod_lt p size_pos
    have first : ((table.take (p / blockSize)).map fun block => (piece block).length).sum = p / blockSize * blockSize := by
      rw [List.map_congr_left fun block mem => lens block (List.mem_of_mem_take mem), List.map_const',
        List.sum_replicate_nat, List.length_take, Nat.min_eq_left (Nat.le_of_lt at_)]
    have found := Ragged.flatMap_getElem? (f := piece) (List.getElem?_eq_getElem at_)
      (k := p % blockSize) (by rwa [lens _ (List.getElem_mem at_)])
    rw [first, Nat.mul_comm, Nat.div_add_mod] at found
    rw [← List.flatMap_def, found, List.getElem?_take_of_lt off, List.getElem?_drop, List.getD_eq_getElem?_getD,
      List.getElem?_eq_getElem at_, Option.getD_some]
  · rw [List.getElem?_eq_none (by rw [List.length_take]; omega), List.getElem?_eq_none (by simpa using past)]

end Written

end Vapi.Backend
