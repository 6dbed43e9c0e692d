import Vapi.Backend.PagedCache
import Vapi.Lib.Paged
import Mathlib.Data.List.Forall2

/-!
# Batches of chunks

A batch lays out the next chunks of several sequences, each through its block
table. Where a token is in the batch says which position of which sequence it
is, and which slot that has.
-/

namespace Vapi.Backend

open Vapi.Engine Vapi.Cache Slots

variable {ι : Type}

/-- The slot that a sequence's table gives for a position. -/
def slotOf (blockSize : Nat) (table : ι → List BlockId) (s : ι) (p : Nat) : Nat :=
  (table s).getD (p / blockSize) 0 * blockSize + p % blockSize

/-- Where the rows of the sequences are: in blocks of the cache that are theirs, or that hold the same rows. -/
structure Placement {V : Type} (numBlocks blockSize : Nat) (table : ι → List BlockId) (len : ι → Nat)
    (row : ι → Nat → V) : Prop where
  blocks : ∀ s, ∀ block ∈ table s, block < numBlocks
  covers : ∀ s, len s ≤ (table s).length * blockSize
  coherent : Coherent (slotOf blockSize table) row len

section Placement

variable {V : Type} {numBlocks blockSize : Nat} {table : ι → List BlockId} {len : ι → Nat} {row : ι → Nat → V}

theorem slotOf_lt (blocks : ∀ s, ∀ block ∈ table s, block < numBlocks)
    (covers : ∀ s, len s ≤ (table s).length * blockSize) {s : ι} {p : Nat} (within : p < len s) :
    slotOf blockSize table s p < numBlocks * blockSize := by
  have covered := Nat.lt_of_lt_of_le within (covers s)
  have size : 0 < blockSize := Nat.pos_of_ne_zero fun none => by simp [none] at covered
  have at_ : p / blockSize < (table s).length := (Nat.div_lt_iff_lt_mul size).mpr covered
  refine ForwardBatch.row_lt size (blocks s _ ?_)
  rw [List.getD_eq_getElem?_getD, List.getElem?_eq_getElem at_, Option.getD_some]
  exact List.getElem_mem at_

/-- Where no block is in two places, no two positions share a slot. -/
theorem coherent_of_apart (covers : ∀ s, len s ≤ (table s).length * blockSize)
    (apart : ∀ s t (i j : Nat) block, (table s)[i]? = some block → (table t)[j]? = some block → s = t ∧ i = j) :
    Coherent (slotOf blockSize table) row len := by
  intro s p t q inside inside' same
  have covered := Nat.lt_of_lt_of_le inside (covers s)
  have covered' := Nat.lt_of_lt_of_le inside' (covers t)
  have size : 0 < blockSize := Nat.pos_of_ne_zero fun none => by simp [none] at covered
  have block : ∀ {s : ι} {p : Nat}, p < (table s).length * blockSize →
      (table s)[p / blockSize]? = some ((table s).getD (p / blockSize) 0) := fun {s p} covered => by
    rw [List.getD_eq_getElem?_getD, List.getElem?_eq_getElem ((Nat.div_lt_iff_lt_mul size).mpr covered), Option.getD_some]
  obtain ⟨blocks, offsets⟩ := Paged.cell_inj (Nat.mod_lt p size) (Nat.mod_lt q size) same
  obtain ⟨rfl, index⟩ := apart s t _ _ _ (block covered) (blocks ▸ block covered')
  rw [← Nat.div_add_mod p blockSize, ← Nat.div_add_mod q blockSize, index, offsets]

end Placement

/-- The positions in the order of the batch. -/
def tokensOf (chunks : List (Chunk ι)) : List (ι × Nat) := chunks.flatMap fun c => c.positions.map (c.seq, ·)

/-- The batch lays out these chunks; a table may have its later blocks still to come. -/
structure Lays (b : ForwardBatch) (blockSize : Nat) (table : ι → List BlockId) (chunks : List (Chunk ι)) : Prop where
  queries : b.cuSeqlensQ.map UInt32.toNat = Ragged.offsets 0 (chunks.map Chunk.q) ∨ b.cuSeqlensQ = [] ∧ chunks = []
  keys : b.cuSeqlensK.map UInt32.toNat = Ragged.offsets 0 (chunks.map fun c => c.start + c.q) ∨
    b.cuSeqlensK = [] ∧ chunks = []
  tokens : b.tokens.length = (tokensOf chunks).length
  positions : b.positions.map UInt32.toNat = (tokensOf chunks).map Prod.snd
  slots : b.slotMapping.map UInt32.toNat = (tokensOf chunks).map fun t => slotOf blockSize table t.1 t.2
  tables : List.Forall₂ (fun blocks c => blocks <+: table c.seq ∧ c.start + c.q ≤ blocks.length * blockSize)
    b.blockTables chunks

/-- Where the tokens of chunk `i` begin. -/
def offset (chunks : List (Chunk ι)) (i : Nat) : Nat := ((chunks.take i).map Chunk.q).sum

theorem tokensOf_at {chunks : List (Chunk ι)} {i j : Nat} {c : Chunk ι} (here : chunks[i]? = some c) (inside : j < c.q) :
    (tokensOf chunks)[offset chunks i + j]? = some (c.seq, c.start + j) := by
  have found := Ragged.flatMap_getElem? (f := fun c : Chunk ι => c.positions.map (c.seq, ·)) here (k := j)
    (by simpa [Chunk.positions] using inside)
  simp only [List.length_map, Chunk.positions, List.length_range'] at found
  rw [tokensOf, offset]
  simp only [Chunk.positions]
  rw [found, List.getElem?_map, List.getElem?_range' inside]
  simp

/-- A cumulative column says where a chunk begins and ends. -/
theorem bounds_at {column : List UInt32} {lens : List Nat} {i l : Nat}
    (is : column.map UInt32.toNat = Ragged.offsets 0 lens) (here : lens[i]? = some l) :
    ∃ from_ until_, column[i]? = some from_ ∧ column[i + 1]? = some until_ ∧ from_.toNat = (lens.take i).sum ∧
      until_.toNat = from_.toNat + l := by
  have within := (List.getElem?_eq_some_iff.mp here).1
  have first := Ragged.offsets_getElem? 0 (Nat.le_of_lt within)
  have second := Ragged.offsets_getElem? 0 (Nat.succ_le_of_lt within)
  rw [← is, List.getElem?_map, Nat.zero_add] at first second
  obtain ⟨from_, at_, is_from⟩ := Option.map_eq_some_iff.mp first
  obtain ⟨until_, at', is_until⟩ := Option.map_eq_some_iff.mp second
  refine ⟨from_, until_, at_, at', is_from, ?_⟩
  rw [is_until, is_from, List.take_add_one, List.sum_append, here]
  simp

theorem block_at {blocks all : List BlockId} {blockSize p : Nat} (first : blocks <+: all)
    (within : p < blocks.length * blockSize) : blocks[p / blockSize]? = some (all.getD (p / blockSize) 0) := by
  have size : 0 < blockSize := Nat.pos_of_ne_zero fun none => by simp [none] at within
  have at_ : p / blockSize < blocks.length := (Nat.div_lt_iff_lt_mul size).mpr within
  obtain ⟨more, rfl⟩ := first
  rw [List.getD_eq_getElem?_getD, List.getElem?_append_left at_, List.getElem?_eq_getElem at_, Option.getD_some]

namespace Lays

variable {b : ForwardBatch} {blockSize : Nat} {table : ι → List BlockId} {chunks : List (Chunk ι)}
  (lays : Lays b blockSize table chunks)
include lays

theorem batchSize : b.batchSize = chunks.length := by
  rw [ForwardBatch.batchSize]
  rcases lays.queries with is | ⟨none, rfl⟩
  · rw [← List.length_map, is, Ragged.offsets_length, List.length_map, Nat.add_sub_cancel]
  · rw [none]
    rfl

theorem queries_at {i : Nat} {c : Chunk ι} (here : chunks[i]? = some c) :
    ∃ from_ until_, b.cuSeqlensQ[i]? = some from_ ∧ b.cuSeqlensQ[i + 1]? = some until_ ∧
      from_.toNat = offset chunks i ∧ until_.toNat = from_.toNat + c.q := by
  rcases lays.queries with is | ⟨-, rfl⟩
  · have found := bounds_at is (i := i) (l := c.q) (by rw [List.getElem?_map, here]; rfl)
    rwa [← List.map_take] at found
  · cases here

theorem keys_at {i : Nat} {c : Chunk ι} (here : chunks[i]? = some c) :
    ∃ from_ until_, b.cuSeqlensK[i]? = some from_ ∧ b.cuSeqlensK[i + 1]? = some until_ ∧
      until_.toNat = from_.toNat + (c.start + c.q) := by
  rcases lays.keys with is | ⟨-, rfl⟩
  · obtain ⟨from_, until_, at_, at', -, is⟩ := bounds_at is (i := i) (l := c.start + c.q)
      (by rw [List.getElem?_map, here]; rfl)
    exact ⟨from_, until_, at_, at', is⟩
  · cases here

theorem position_at {k : Nat} {t : ι × Nat} (here : (tokensOf chunks)[k]? = some t) :
    ∃ p, b.positions[k]? = some p ∧ p.toNat = t.2 := by
  have found := congrArg (·[k]?) lays.positions
  simp only [List.getElem?_map, here, Option.map_some] at found
  exact Option.map_eq_some_iff.mp found

theorem slot_at {k : Nat} {t : ι × Nat} (here : (tokensOf chunks)[k]? = some t) :
    ∃ s, b.slotMapping[k]? = some s ∧ s.toNat = slotOf blockSize table t.1 t.2 := by
  have found := congrArg (·[k]?) lays.slots
  simp only [List.getElem?_map, here, Option.map_some] at found
  exact Option.map_eq_some_iff.mp found

theorem table_at {i : Nat} {c : Chunk ι} (here : chunks[i]? = some c) :
    ∃ blocks, b.blockTables[i]? = some blocks ∧ blocks <+: table c.seq ∧ c.start + c.q ≤ blocks.length * blockSize := by
  have within := (List.getElem?_eq_some_iff.mp here).1
  have same := lays.tables.length_eq
  have both := lays.tables.get (i := i) (by omega) within
  refine ⟨b.blockTables[i], List.getElem?_eq_getElem _, ?_⟩
  rw [(List.getElem?_eq_some_iff.mp here).2.symm]
  exact both

end Lays

section Example

def twoTables (s : Fin 2) : List BlockId := if s.val = 0 then [1, 0] else [2]

def twoLens (s : Fin 2) : Nat := if s.val = 0 then 3 else 2

def firstBatch : ForwardBatch where
  tokens := [7, 7, 7]
  positions := [0, 1, 0]
  cuSeqlensQ := [0, 2, 3]
  cuSeqlensK := [0, 2, 3]
  slotMapping := [2, 3, 4]
  blockTables := [[1], [2]]

def secondBatch : ForwardBatch where
  tokens := [7, 7]
  positions := [1, 2]
  cuSeqlensQ := [0, 1, 2]
  cuSeqlensK := [0, 2, 5]
  slotMapping := [5, 0]
  blockTables := [[2], [1, 0]]

/-- Three tokens of one sequence and two of another, in two steps. -/
def twoSteps : List (List (Chunk (Fin 2)) × ForwardBatch) :=
  [([⟨0, 0, 2⟩, ⟨1, 0, 1⟩], firstBatch), ([⟨1, 1, 1⟩, ⟨0, 2, 1⟩], secondBatch)]

theorem twoSteps_lays : ∀ s ∈ twoSteps, Lays s.2 2 twoTables s.1 := by
  intro s mem
  rcases List.mem_pair.mp mem with rfl | rfl
  · exact ⟨.inl (by decide), .inl (by decide), by decide, by decide, by decide,
      .cons ⟨by decide, by decide⟩ (.cons ⟨by decide, by decide⟩ .nil)⟩
  · exact ⟨.inl (by decide), .inl (by decide), by decide, by decide, by decide,
      .cons ⟨by decide, by decide⟩ (.cons ⟨by decide, by decide⟩ .nil)⟩

theorem twoSteps_follow : Follow twoLens (fun _ => 0) (twoSteps.flatMap Prod.fst) := by
  show Follow twoLens (fun _ => 0) [⟨0, 0, 2⟩, ⟨1, 0, 1⟩, ⟨1, 1, 1⟩, ⟨0, 2, 1⟩]
  simp only [Follow]
  decide

end Example

end Vapi.Backend
