import Vapi.Engine.Layout
import Mathlib.Data.List.GetD
import Mathlib.Data.Nat.Log

/-!
# Padding for captured graphs

A graph is captured for a batch of a power of two of rows. A smaller decode
batch is filled up with rows that write to blocks no sequence is given.
-/

namespace Vapi.Backend

open Engine Engine.ForwardBatch
open Cache (BlockId)

namespace GraphRunner

/-- Tokens of a block. -/
def blockSize : Nat := 32

def reservedBlocks : Nat := 2

def maxBucket : Nat := 64

/-- Block-table widths are rounded up to this many blocks. -/
def tableBucket : Nat := 8

/-- A pure decode step that every sequence samples. -/
def isPureDecode (batch : ForwardBatch) : Bool :=
  let b := batch.batchSize
  0 < b && b ≤ maxBucket && batch.tokens.length = b && batch.logitsIndices.length = b &&
    batch.logitsIndices.zipIdx.all fun (x, i) => x.toNat = i

/-- The least power of two from `b` on. -/
def bucketOf (b : Nat) : Nat := 2 ^ Nat.clog 2 b

/-- The block table widths of the captured graph. -/
def tableWidth (batch : ForwardBatch) : Nat :=
  let widest := (batch.blockTables.map List.length).max?.getD 1
  (widest + tableBucket - 1) / tableBucket * tableBucket

/-- `resize` with the last block, of a table that is not empty. -/
def resize (blocks : Nat) (table : List BlockId) : Option (List BlockId) := do
  let last ← table.getLast?
  some (table.take blocks ++ List.replicate (blocks - table.length) last)

def rowBlock (reserved : UInt32) (j : Nat) : UInt32 := reserved + UInt32.ofNat (j / blockSize)

def rowSlot (reserved : UInt32) (j : Nat) : UInt32 :=
  rowBlock reserved j * UInt32.ofNat blockSize + UInt32.ofNat (j % blockSize)

/-- Padding row `j`: token 0 at position 0, with a table of one key. -/
def pushRow (reserved : UInt32) (b blocks : Nat) (p : ForwardBatch) (j : Nat) : Option ForwardBatch := do
  let q ← p.cuSeqlensQ.getLast?
  let k ← p.cuSeqlensK.getLast?
  some { p with
    tokens := p.tokens ++ [0]
    positions := p.positions ++ [0]
    slotMapping := p.slotMapping ++ [rowSlot reserved j]
    cuSeqlensQ := p.cuSeqlensQ ++ [q + 1]
    cuSeqlensK := p.cuSeqlensK ++ [k + 1]
    blockTables := p.blockTables ++ [List.replicate blocks (rowBlock reserved j).toNat]
    logitsIndices := p.logitsIndices ++ [UInt32.ofNat (b + j)] }

/-- The batch filled up to its bucket, with the rows and the table width of the
graph. -/
def padded (batch : ForwardBatch) (numBlocks : Nat) : Option (ForwardBatch × Nat × Nat) := do
  let b := batch.batchSize
  let bucket := bucketOf b
  let blocks := tableWidth batch
  -- cast to 32 bits
  let reserved := UInt32.ofNat (numBlocks - reservedBlocks)
  let blockTables ← batch.blockTables.mapM (resize blocks)
  let p ← (List.range (bucket - b)).foldlM (pushRow reserved b blocks) { batch with blockTables }
  some ({ p with maxSeqlenQ := 1, maxSeqlenK := blocks * blockSize }, bucket, blocks)

/-- The batch with `n` rows behind it, after cumulative lengths `q` and `k`. -/
def rows (reserved : UInt32) (b blocks : Nat) (p : ForwardBatch) (q k : UInt32) (n : Nat) : ForwardBatch :=
  { p with
    tokens := p.tokens ++ List.replicate n 0
    positions := p.positions ++ List.replicate n 0
    slotMapping := p.slotMapping ++ (List.range n).map (rowSlot reserved)
    cuSeqlensQ := p.cuSeqlensQ ++ (List.range n).map fun j => q + UInt32.ofNat (j + 1)
    cuSeqlensK := p.cuSeqlensK ++ (List.range n).map fun j => k + UInt32.ofNat (j + 1)
    blockTables := p.blockTables ++ (List.range n).map fun j => List.replicate blocks (rowBlock reserved j).toNat
    logitsIndices := p.logitsIndices ++ (List.range n).map fun j => UInt32.ofNat (b + j) }

variable {reserved : UInt32} {b blocks : Nat} {p : ForwardBatch} {q k : UInt32}

/-- Each cumulative length is one past the one before. -/
theorem last_rows {cu : List UInt32} (last : cu.getLast? = some q) (n : Nat) :
    (cu ++ (List.range n).map fun j => q + UInt32.ofNat (j + 1)).getLast? = some (q + UInt32.ofNat n) := by
  cases n with
  | zero => simpa using last
  | succ n => simp [List.range_succ]

variable (reserved b blocks) in
theorem pushRows_eq (lastQ : p.cuSeqlensQ.getLast? = some q) (lastK : p.cuSeqlensK.getLast? = some k) (n : Nat) :
    (List.range n).foldlM (pushRow reserved b blocks) p = some (rows reserved b blocks p q k n) := by
  induction n with
  | zero => simp [rows]
  | succ n ih =>
    have next : ∀ q : UInt32, q + UInt32.ofNat n + 1 = q + UInt32.ofNat (n + 1) := fun q => by
      rw [UInt32.ofNat_add, ← UInt32.add_assoc]
      rfl
    rw [List.range_succ, List.foldlM_append, ih]
    show (pushRow reserved b blocks (rows reserved b blocks p q k n) n >>= pure) = _
    rw [bind_pure, pushRow]
    have q' : (rows reserved b blocks p q k n).cuSeqlensQ.getLast? = some (q + UInt32.ofNat n) := last_rows lastQ n
    have k' : (rows reserved b blocks p q k n).cuSeqlensK.getLast? = some (k + UInt32.ofNat n) := last_rows lastK n
    rw [q', k']
    simp [rows, List.range_succ, List.replicate_succ', next]

theorem bucketOf_bounds {b : Nat} (small : b ≤ maxBucket) : b ≤ bucketOf b ∧ bucketOf b ≤ maxBucket :=
  ⟨Nat.le_pow_clog Nat.one_lt_two b,
    Nat.pow_le_pow_right Nat.two_pos (Nat.clog_le_of_le_pow (show b ≤ 2 ^ 6 from small))⟩

/-- A table at its new width. -/
def widened (blocks : Nat) (table : List BlockId) : List BlockId :=
  table ++ List.replicate (blocks - table.length) (table.getLast?.getD 0)

section Widened

variable {table : List BlockId}

theorem resize_eq (some_ : table ≠ []) (fits : table.length ≤ blocks) :
    resize blocks table = some (widened blocks table) := by
  rw [resize, widened, List.getLast?_eq_some_getLast some_, List.take_of_length_le fits]
  rfl

theorem widened_length (fits : table.length ≤ blocks) : (widened blocks table).length = blocks := by
  rw [widened, List.length_append, List.length_replicate, Nat.add_sub_cancel' fits]

/-- What is put behind a table is its own. -/
theorem widened_mem (some_ : table ≠ []) :
    ∀ block ∈ List.replicate (blocks - table.length) (table.getLast?.getD 0), block ∈ table := by
  intro block mem
  rw [List.eq_of_mem_replicate mem, List.getLast?_eq_some_getLast some_]
  exact List.getLast_mem some_

end Widened

section Width

variable {batch : ForwardBatch}

/-- The widest table fits, and a table of one block does. -/
theorem le_tableWidth : (∀ table ∈ batch.blockTables, table.length ≤ tableWidth batch) ∧
    ((∀ table ∈ batch.blockTables, table ≠ []) → 1 ≤ tableWidth batch) := by
  have up : ∀ n : Nat, n ≤ (n + tableBucket - 1) / tableBucket * tableBucket := fun n => by
    simp only [tableBucket]
    omega
  unfold tableWidth
  cases most : (batch.blockTables.map List.length).max? with
  | none =>
    have none_ : batch.blockTables = [] := List.map_eq_nil_iff.mp (List.max?_eq_none_iff.mp most)
    refine ⟨fun table mem => ?_, fun _ => up 1⟩
    rw [none_] at mem
    cases mem
  | some widest =>
    obtain ⟨known, least⟩ := List.max?_eq_some_iff.mp most
    refine ⟨fun table mem => (least _ (List.mem_map_of_mem mem)).trans (up widest), fun some_ => ?_⟩
    obtain ⟨table, mem, rfl⟩ := List.mem_map.mp known
    exact (List.length_pos_iff.mpr (some_ table mem)).trans_le (up table.length)

end Width

section Rows

variable {R j : Nat}

theorem rowBlock_toNat (fits : R * blockSize + j < 2 ^ 32) :
    (rowBlock (UInt32.ofNat R) j).toNat = R + j / blockSize := by
  simp only [blockSize] at fits ⊢
  rw [rowBlock, UInt32.toNat_add, toNat_ofNat (by omega), toNat_ofNat (by simp only [blockSize]; omega),
    Nat.mod_eq_of_lt (by simp only [blockSize]; omega), blockSize]

/-- The rows' slots follow on each other. -/
theorem rowSlot_toNat (fits : R * blockSize + j < 2 ^ 32) :
    (rowSlot (UInt32.ofNat R) j).toNat = R * blockSize + j := by
  have block := rowBlock_toNat fits
  simp only [blockSize] at fits block ⊢
  rw [rowSlot, UInt32.toNat_add, UInt32.toNat_mul, block, toNat_ofNat (by decide),
    toNat_ofNat (by simp only [blockSize]; omega), Nat.mod_eq_of_lt (a := (R + j / 32) * blockSize)]
  · simp only [blockSize]
    rw [Nat.mod_eq_of_lt (by omega)]
    omega
  · simp only [blockSize]
    omega

/-- The cumulative lengths go on from the last, one for each row. -/
theorem cu_rows {cu : List UInt32} (last : cu.getLast? = some q) {n : Nat} (within : j ≤ n)
    (fits : q.toNat + j < 2 ^ 32) :
    ((cu ++ (List.range n).map fun j => q + UInt32.ofNat (j + 1)).getD (cu.length - 1 + j) 0).toNat = q.toNat + j := by
  have positive : 0 < cu.length := by
    refine List.length_pos_iff.mpr fun none_ => ?_
    rw [none_] at last
    cases last
  cases j with
  | zero =>
    rw [Nat.add_zero, List.getD_append _ _ _ _ (by omega), List.getD_eq_getElem?_getD, ← List.getLast?_eq_getElem?,
      last]
    rfl
  | succ j =>
    rw [List.getD_append_right _ _ _ _ (by omega), show cu.length - 1 + (j + 1) - cu.length = j by omega,
      List.getD_eq_getElem?_getD, List.getElem?_map, List.getElem?_range (by omega), Option.map_some, Option.getD_some,
      UInt32.toNat_add, toNat_ofNat (by omega), Nat.mod_eq_of_lt fits]

end Rows

section Padding

variable {batch : ForwardBatch} {numBlocks : Nat}

/-- How many rows are put behind the batch. -/
def rowsOf (batch : ForwardBatch) : Nat := bucketOf batch.batchSize - batch.batchSize

/-- What `padded` gives of a batch that has tables and cumulative lengths. -/
def filled (batch : ForwardBatch) (numBlocks : Nat) : ForwardBatch :=
  { rows (UInt32.ofNat (numBlocks - reservedBlocks)) batch.batchSize (tableWidth batch)
      { batch with blockTables := batch.blockTables.map (widened (tableWidth batch)) }
      (batch.cuSeqlensQ.getLast?.getD 0) (batch.cuSeqlensK.getLast?.getD 0) (rowsOf batch) with
    maxSeqlenQ := 1
    maxSeqlenK := tableWidth batch * blockSize }

/-- A decode step: one query of each sequence, on blocks that are not
reserved. -/
structure Decode (batch : ForwardBatch) (numBlocks : Nat) : Prop where
  checked : batch.Checked (numBlocks - reservedBlocks) blockSize
  single : ∀ i, i < batch.batchSize → batch.lenQ i = 1
  some_ : 0 < batch.batchSize
  few : batch.batchSize ≤ maxBucket
  distinct : batch.slotMapping.Nodup
  slotsFit : ∀ j, j < rowsOf batch → (numBlocks - reservedBlocks) * blockSize + j < 2 ^ 32
  keysFit : ∀ j, j < rowsOf batch → batch.cuK batch.batchSize + j + 1 < 2 ^ 32

namespace Decode

variable (decode : Decode batch numBlocks)

include decode

theorem cuQ_eq {i : Nat} (within : i ≤ batch.batchSize) : batch.cuQ i = i := by
  induction i with
  | zero => exact decode.checked.starts
  | succ i ih => rw [decode.checked.end_eq within, ih (Nat.le_of_succ_le within), decode.single i within]

theorem tokens_length : batch.tokens.length = batch.batchSize := by
  have some_ : batch.cuSeqlensQ ≠ [] := fun none_ => by
    have := decode.some_
    rw [batchSize, none_] at this
    cases this
  rw [← decode.checked.ends some_, decode.cuQ_eq (Nat.le_refl _)]

theorem lengths : batch.cuSeqlensQ.length = batch.batchSize + 1 ∧ batch.cuSeqlensK.length = batch.batchSize + 1 := by
  have some_ := decode.some_
  have same := decode.checked.cumulative
  unfold batchSize at some_ ⊢
  omega

theorem lasts : batch.cuSeqlensQ.getLast? = some (batch.cuSeqlensQ.getLast?.getD 0) ∧
    batch.cuSeqlensK.getLast? = some (batch.cuSeqlensK.getLast?.getD 0) := by
  obtain ⟨queries, keys⟩ := decode.lengths
  have q : batch.cuSeqlensQ ≠ [] := List.ne_nil_of_length_eq_add_one queries
  have k : batch.cuSeqlensK ≠ [] := List.ne_nil_of_length_eq_add_one keys
  rw [List.getLast?_eq_some_getLast q, List.getLast?_eq_some_getLast k]
  exact ⟨rfl, rfl⟩

theorem last_eq : (batch.cuSeqlensQ.getLast?.getD 0).toNat = batch.batchSize ∧
    (batch.cuSeqlensK.getLast?.getD 0).toNat = batch.cuK batch.batchSize := by
  have q := decode.cuQ_eq (Nat.le_refl _)
  obtain ⟨-, keys⟩ := decode.lengths
  rw [cuQ, List.getD_eq_getElem?_getD] at q
  rw [cuK, List.getD_eq_getElem?_getD, List.getLast?_eq_getElem?, List.getLast?_eq_getElem?, keys, Nat.add_sub_cancel]
  exact ⟨q, rfl⟩

theorem tables_some : ∀ table ∈ batch.blockTables, table ≠ [] := by
  intro table mem none_
  obtain ⟨i, at_⟩ := List.mem_iff_getElem?.mp mem
  have hi : i < batch.batchSize := decode.checked.tables ▸ (List.getElem?_eq_some_iff.mp at_).1
  have covers := decode.checked.covers i hi
  have fewer := decode.checked.lengths i hi
  rw [decode.single i hi] at fewer
  rw [ForwardBatch.table, List.getD_eq_getElem?_getD, at_, none_] at covers
  simp only [Option.getD_some, List.length_nil, Nat.zero_mul] at covers
  omega

theorem bucket_eq : batch.batchSize + rowsOf batch = bucketOf batch.batchSize :=
  Nat.add_sub_cancel' (bucketOf_bounds decode.few).1

theorem padded_eq :
    padded batch numBlocks = some (filled batch numBlocks, bucketOf batch.batchSize, tableWidth batch) := by
  have tables : batch.blockTables.mapM (resize (tableWidth batch)) =
      some (batch.blockTables.map (widened (tableWidth batch))) :=
    mapM_of_forall fun table mem => resize_eq (decode.tables_some table mem) (le_tableWidth.1 table mem)
  let wide : ForwardBatch := { batch with blockTables := batch.blockTables.map (widened (tableWidth batch)) }
  have pushed := pushRows_eq (UInt32.ofNat (numBlocks - reservedBlocks)) batch.batchSize (tableWidth batch)
    (show wide.cuSeqlensQ.getLast? = _ from decode.lasts.1) decode.lasts.2 (rowsOf batch)
  unfold padded
  dsimp only
  rw [tables, Option.bind_eq_bind, Option.bind_some]
  unfold rowsOf at pushed
  rw [pushed]
  rfl

theorem rows_few {j : Nat} (within : j ≤ rowsOf batch) : batch.batchSize + j ≤ maxBucket := by
  have := decode.bucket_eq
  have := (bucketOf_bounds decode.few).2
  omega

theorem filled_batchSize : (filled batch numBlocks).batchSize = batch.batchSize + rowsOf batch := by
  have queries := decode.lengths.1
  show (batch.cuSeqlensQ ++ _).length - 1 = _
  rw [List.length_append, List.length_map, List.length_range, queries]
  omega

theorem filled_cuQ {i : Nat} (within : i ≤ batch.batchSize + rowsOf batch) : (filled batch numBlocks).cuQ i = i := by
  have queries := decode.lengths.1
  show ((batch.cuSeqlensQ ++ _).getD i 0).toNat = i
  rcases Nat.lt_or_ge i batch.cuSeqlensQ.length with first | row
  · rw [List.getD_append _ _ _ _ first]
    exact decode.cuQ_eq (by omega)
  · obtain ⟨j, rfl⟩ : ∃ j, i = batch.cuSeqlensQ.length - 1 + j := ⟨i - (batch.cuSeqlensQ.length - 1), by omega⟩
    have few := decode.rows_few (j := j) (by omega)
    simp only [maxBucket] at few
    rw [cu_rows decode.lasts.1 (by omega) (by rw [decode.last_eq.1]; omega), decode.last_eq.1, queries]
    rfl

theorem filled_cuK_first {i : Nat} (within : i ≤ batch.batchSize) : (filled batch numBlocks).cuK i = batch.cuK i := by
  have keys := decode.lengths.2
  show ((batch.cuSeqlensK ++ _).getD i 0).toNat = _
  rw [List.getD_append _ _ _ _ (by omega)]
  rfl

theorem filled_cuK_row {j : Nat} (within : j ≤ rowsOf batch) :
    (filled batch numBlocks).cuK (batch.batchSize + j) = batch.cuK batch.batchSize + j := by
  have keys := decode.lengths.2
  have fits : batch.cuK batch.batchSize + j < 2 ^ 32 := by
    cases j with
    | zero => exact UInt32.toNat_lt _
    | succ j => exact decode.keysFit j within
  have row := cu_rows decode.lasts.2 within (by rw [decode.last_eq.2]; exact fits)
  rw [decode.last_eq.2, keys] at row
  exact row

variable (numBlocks) in
theorem filled_table_first {i : Nat} (hi : i < batch.batchSize) :
    (filled batch numBlocks).table i = widened (tableWidth batch) (batch.table i) ∧
      batch.table i ∈ batch.blockTables := by
  have within : i < batch.blockTables.length := decode.checked.tables ▸ hi
  constructor
  · show (batch.blockTables.map _ ++ _).getD i [] = _
    rw [List.getD_append _ _ _ _ (by rwa [List.length_map]), List.getD_eq_getElem?_getD, List.getElem?_map,
      getD_some [] within]
    rfl
  · exact List.mem_of_getElem? (getD_some [] within)

theorem filled_table_row {j : Nat} (hj : j < rowsOf batch) : (filled batch numBlocks).table (batch.batchSize + j) =
    List.replicate (tableWidth batch) (numBlocks - reservedBlocks + j / blockSize) := by
  have length : (batch.blockTables.map (widened (tableWidth batch))).length = batch.batchSize := by
    rw [List.length_map, decode.checked.tables]
  show (batch.blockTables.map _ ++ _).getD (batch.batchSize + j) [] = _
  rw [List.getD_append_right _ _ _ _ (by omega), length, Nat.add_sub_cancel_left, List.getD_eq_getElem?_getD,
    List.getElem?_map, List.getElem?_range hj, Option.map_some, Option.getD_some, rowBlock_toNat (decode.slotsFit j hj)]

/-- A row's block is one of the reserved ones. -/
theorem row_block {j : Nat} (hj : j < rowsOf batch) : numBlocks - reservedBlocks + j / blockSize < numBlocks := by
  have few := decode.rows_few (Nat.le_of_lt hj)
  have some_ := decode.some_
  have unreserved : 0 < (numBlocks - reservedBlocks) * blockSize := by
    have here : 0 < batch.slotMapping.length := by rw [← decode.checked.slots, decode.tokens_length]; exact some_
    exact Nat.zero_lt_of_lt (decode.checked.writes _ (List.getElem_mem here))
  simp only [maxBucket, reservedBlocks, blockSize] at few unreserved ⊢
  omega

theorem mem_filled_slots {s : UInt32} (mem : s ∈ (filled batch numBlocks).slotMapping) : s ∈ batch.slotMapping ∨
    ∃ j, j < rowsOf batch ∧ s.toNat = (numBlocks - reservedBlocks) * blockSize + j := by
  rcases List.mem_append.mp mem with first | row
  · exact .inl first
  · obtain ⟨j, hj, rfl⟩ := List.mem_map.mp row
    exact .inr ⟨j, List.mem_range.mp hj, rowSlot_toNat (decode.slotsFit j (List.mem_range.mp hj))⟩

theorem filled_distinct : (filled batch numBlocks).slotMapping.Nodup := by
  refine List.nodup_append.mpr ⟨decode.distinct, ?_, fun s first s' row same => ?_⟩
  · refine List.Nodup.map_on (fun i hi j hj same => ?_) List.nodup_range
    have at_ := rowSlot_toNat (decode.slotsFit i (List.mem_range.mp hi))
    rw [same, rowSlot_toNat (decode.slotsFit j (List.mem_range.mp hj))] at at_
    omega
  · obtain ⟨j, hj, rfl⟩ := List.mem_map.mp row
    have inside := decode.checked.writes s first
    rw [same, rowSlot_toNat (decode.slotsFit j (List.mem_range.mp hj))] at inside
    omega

theorem first_or_row {i : Nat} (hi : i < (filled batch numBlocks).batchSize) :
    i < batch.batchSize ∨ ∃ j, j < rowsOf batch ∧ i = batch.batchSize + j := by
  rw [decode.filled_batchSize] at hi
  rcases Nat.lt_or_ge i batch.batchSize with first | row
  · exact .inl first
  · exact .inr ⟨i - batch.batchSize, by omega, by omega⟩

theorem filled_lenQ {i : Nat} (hi : i < (filled batch numBlocks).batchSize) : (filled batch numBlocks).lenQ i = 1 := by
  rw [decode.filled_batchSize] at hi
  rw [lenQ, decode.filled_cuQ hi, decode.filled_cuQ (Nat.le_of_lt hi)]
  exact Nat.add_sub_cancel_left i 1

theorem filled_lenK_first {i : Nat} (hi : i < batch.batchSize) : (filled batch numBlocks).lenK i = batch.lenK i := by
  rw [lenK, lenK, decode.filled_cuK_first hi, decode.filled_cuK_first (Nat.le_of_lt hi)]

theorem filled_lenK_row {j : Nat} (hj : j < rowsOf batch) :
    (filled batch numBlocks).lenK (batch.batchSize + j) = 1 := by
  rw [lenK, Nat.add_assoc, decode.filled_cuK_row hj, decode.filled_cuK_row (Nat.le_of_lt hj)]
  omega

theorem first_unreserved {i : Nat} (hi : i < batch.batchSize) :
    ∀ block ∈ (filled batch numBlocks).table i, block < numBlocks - reservedBlocks := by
  obtain ⟨is, known⟩ := decode.filled_table_first numBlocks hi
  intro block mem
  rw [is] at mem
  rcases List.mem_append.mp mem with own | more
  · exact decode.checked.blocks i hi block own
  · exact decode.checked.blocks i hi block (widened_mem (decode.tables_some _ known) block more)

theorem filled_columns : (filled batch numBlocks).tokens.length = batch.batchSize + rowsOf batch ∧
    (filled batch numBlocks).positions.length = batch.batchSize + rowsOf batch ∧
    (filled batch numBlocks).slotMapping.length = batch.batchSize + rowsOf batch ∧
    (filled batch numBlocks).cuSeqlensQ.length = (filled batch numBlocks).cuSeqlensK.length ∧
    (filled batch numBlocks).blockTables.length = batch.batchSize + rowsOf batch := by
  have tokens := decode.tokens_length
  obtain ⟨queries, keys⟩ := decode.lengths
  have positions := decode.checked.positions
  have slots := decode.checked.slots
  have tables := decode.checked.tables
  simp only [filled, rows, List.length_append, List.length_replicate, List.length_map, List.length_range]
  omega

theorem filled_checked : (filled batch numBlocks).Checked numBlocks blockSize where
  positions := by rw [decode.filled_columns.1, decode.filled_columns.2.1]
  slots := by rw [decode.filled_columns.1, decode.filled_columns.2.2.1]
  cumulative := decode.filled_columns.2.2.2.1
  starts := decode.filled_cuQ (Nat.zero_le _)
  tables := by rw [decode.filled_columns.2.2.2.2, decode.filled_batchSize]
  monoQ i hi := by
    rw [decode.filled_batchSize] at hi
    rw [decode.filled_cuQ hi, decode.filled_cuQ (Nat.le_of_lt hi)]
    exact Nat.le_succ i
  monoK i hi := by
    rcases decode.first_or_row hi with first | ⟨j, hj, rfl⟩
    · rw [decode.filled_cuK_first first, decode.filled_cuK_first (Nat.le_of_lt first)]
      exact decode.checked.monoK i first
    · rw [Nat.add_assoc, decode.filled_cuK_row hj, decode.filled_cuK_row (Nat.le_of_lt hj)]
      omega
  ends _ := by rw [decode.filled_batchSize, decode.filled_cuQ (Nat.le_refl _), decode.filled_columns.1]
  lengths i hi := by
    rw [decode.filled_lenQ hi]
    rcases decode.first_or_row hi with first | ⟨j, hj, rfl⟩
    · rw [decode.filled_lenK_first first, ← decode.single i first]
      exact decode.checked.lengths i first
    · exact (decode.filled_lenK_row hj).ge
  covers i hi := by
    rcases decode.first_or_row hi with first | ⟨j, hj, rfl⟩
    · obtain ⟨is, known⟩ := decode.filled_table_first numBlocks first
      rw [decode.filled_lenK_first first, is, widened_length (le_tableWidth.1 _ known)]
      exact (decode.checked.covers i first).trans (Nat.mul_le_mul_right _ (le_tableWidth.1 _ known))
    · rw [decode.filled_lenK_row hj, decode.filled_table_row hj, List.length_replicate]
      exact Nat.mul_pos (le_tableWidth.2 decode.tables_some) (by decide)
  blocks i hi block mem := by
    rcases decode.first_or_row hi with first | ⟨j, hj, rfl⟩
    · exact (decode.first_unreserved first block mem).trans_le (Nat.sub_le _ _)
    · rw [decode.filled_table_row hj] at mem
      rw [List.eq_of_mem_replicate mem]
      exact decode.row_block hj
  next i hi j after before := by
    -- no sequence has a second query
    rw [decode.filled_batchSize] at hi
    rw [decode.filled_cuQ (Nat.le_of_lt hi)] at after
    rw [decode.filled_cuQ hi] at before
    omega
  writes s mem := by
    rcases decode.mem_filled_slots mem with first | ⟨j, hj, is⟩
    · exact (decode.checked.writes s first).trans_le (Nat.mul_le_mul_right _ (Nat.sub_le _ _))
    · have block := decode.row_block hj
      rw [is]
      simp only [blockSize] at block ⊢
      omega
  logits i mem := by
    rw [decode.filled_columns.1]
    rcases List.mem_append.mp mem with first | row
    · have inside := decode.checked.logits i first
      rw [decode.tokens_length] at inside
      omega
    · obtain ⟨j, hj, rfl⟩ := List.mem_map.mp row
      have few := decode.rows_few (Nat.le_of_lt (List.mem_range.mp hj))
      simp only [maxBucket] at few
      rw [toNat_ofNat (by omega)]
      have := List.mem_range.mp hj
      omega

end Decode

/-- The batch is there first, and what comes behind it is kept to the blocks
that are reserved. -/
structure Filled (batch p : ForwardBatch) (numBlocks : Nat) : Prop where
  tokens : batch.tokens <+: p.tokens
  positions : batch.positions <+: p.positions
  slots : batch.slotMapping <+: p.slotMapping
  queries : batch.cuSeqlensQ <+: p.cuSeqlensQ
  keys : batch.cuSeqlensK <+: p.cuSeqlensK
  logits : batch.logitsIndices <+: p.logitsIndices
  tables : ∀ i, i < batch.batchSize → ∃ more, p.table i = batch.table i ++ more ∧ ∀ block ∈ more, block ∈ batch.table i
  /-- No sequence's table names a reserved block. -/
  unnamed : ∀ i, i < batch.batchSize → ∀ block ∈ p.table i, block < numBlocks - reservedBlocks
  rows : ∀ j, batch.tokens.length ≤ j → j < p.tokens.length →
    numBlocks - reservedBlocks ≤ p.slot j / blockSize ∧ p.slot j / blockSize < numBlocks
  distinct : p.slotMapping.Nodup

/-- A decode step of one query for each sequence stays valid when it is filled
up, and nothing that is put behind it writes where a sequence has its keys. -/
theorem padded_harmless (pure : isPureDecode batch) (single : ∀ i, i < batch.batchSize → batch.lenQ i = 1)
    (valid : batch.validate (numBlocks - reservedBlocks) blockSize = .ok ())
    (slotsFit : ∀ j, j < rowsOf batch → (numBlocks - reservedBlocks) * blockSize + j < 2 ^ 32)
    (keysFit : ∀ j, j < rowsOf batch → batch.cuK batch.batchSize + j + 1 < 2 ^ 32) :
    ∃ p, padded batch numBlocks = some (p, bucketOf batch.batchSize, tableWidth batch) ∧
      p.validate numBlocks blockSize = .ok () ∧ Filled batch p numBlocks := by
  simp only [isPureDecode, Bool.and_eq_true, decide_eq_true_eq] at pure
  have decode : Decode batch numBlocks :=
    { checked := checked_of_validate (by decide) valid
      single
      some_ := pure.1.1.1.1
      few := pure.1.1.1.2
      distinct := nodup_of_validate valid
      slotsFit
      keysFit }
  refine ⟨filled batch numBlocks, decode.padded_eq,
    validate_of_checked (by decide) decode.filled_checked decode.filled_distinct, ?_⟩
  exact {
    tokens := List.prefix_append _ _
    positions := List.prefix_append _ _
    slots := List.prefix_append _ _
    queries := List.prefix_append _ _
    keys := List.prefix_append _ _
    logits := List.prefix_append _ _
    tables := fun i hi => by
      obtain ⟨is, known⟩ := decode.filled_table_first numBlocks hi
      exact ⟨_, is, widened_mem (decode.tables_some _ known)⟩
    unnamed := fun i hi => decode.first_unreserved hi
    rows := fun j past within => by
      rw [decode.filled_columns.1] at within
      rw [decode.tokens_length] at past
      obtain ⟨i, rfl⟩ := Nat.exists_eq_add_of_le past
      have hi : i < rowsOf batch := by omega
      have length : batch.slotMapping.length = batch.batchSize := by
        rw [← decode.checked.slots, decode.tokens_length]
      have slot : (filled batch numBlocks).slot (batch.batchSize + i) =
          (numBlocks - reservedBlocks) * blockSize + i := by
        show ((batch.slotMapping ++ _).getD (batch.batchSize + i) 0).toNat = _
        rw [List.getD_append_right _ _ _ _ (by omega), length, Nat.add_sub_cancel_left, List.getD_eq_getElem?_getD,
          List.getElem?_map, List.getElem?_range hi, Option.map_some, Option.getD_some, rowSlot_toNat (slotsFit i hi)]
      have block := decode.row_block hi
      rw [slot]
      simp only [blockSize] at block ⊢
      omega
    distinct := decode.filled_distinct }

/-- Three sequences of one key, in their own blocks. -/
def three : ForwardBatch where
  tokens := [1, 2, 3]
  positions := [0, 0, 0]
  cuSeqlensQ := [0, 1, 2, 3]
  cuSeqlensK := [0, 1, 2, 3]
  slotMapping := [0, 32, 64]
  blockTables := [[0], [1], [2]]
  logitsIndices := [0, 1, 2]
  maxSeqlenQ := 1
  maxSeqlenK := 1

theorem padded_harmless_three : ∃ p, padded three 5 = some (p, 4, 8) ∧ p.validate 5 32 = .ok () ∧ Filled three p 5 :=
  padded_harmless (by decide +kernel) (by decide +kernel) (by decide +kernel)
    (by decide +kernel) (by decide +kernel)

example : (padded three 5).map (·.1.slotMapping) = some [0, 32, 64, 96] := by decide +kernel

/-- In a pool whose slots do not fit 32 bits, the first padding row is sent to
the slot of the first sequence. -/
theorem slot_wraps : isPureDecode three ∧ (∀ i, i < three.batchSize → three.lenQ i = 1) ∧
    three.validate (2 ^ 27 + 2 - reservedBlocks) blockSize = .ok () ∧
    ∃ p bucket blocks, padded three (2 ^ 27 + 2) = some (p, bucket, blocks) ∧
      p.validate (2 ^ 27 + 2) blockSize ≠ .ok () ∧ ¬p.slotMapping.Nodup := by
  refine ⟨by decide +kernel, by decide +kernel, by decide +kernel,
    (padded three (2 ^ 27 + 2)).get (by decide +kernel) |>.1, 4, 8, ?_⟩
  decide +kernel

end Padding

end GraphRunner

end Vapi.Backend
