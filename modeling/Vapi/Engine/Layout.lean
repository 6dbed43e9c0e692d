import Vapi.Engine.Validate

/-!
# What a valid batch leaves open

`validate` looks at a batch's slots and positions only by themselves. Which
batches it accepts are fit for paged attention: those laid out as `push_seq`
lays out sequences.
-/

namespace Vapi.Engine

open Vapi.Cache

namespace ForwardBatch

section Columns

variable (b : ForwardBatch)

/-- Where the queries of sequence `i` begin. -/
def cuQ (i : Nat) : Nat := (b.cuSeqlensQ.getD i 0).toNat

def cuK (i : Nat) : Nat := (b.cuSeqlensK.getD i 0).toNat

def lenQ (i : Nat) : Nat := b.cuQ (i + 1) - b.cuQ i

def lenK (i : Nat) : Nat := b.cuK (i + 1) - b.cuK i

def table (i : Nat) : List BlockId := b.blockTables.getD i []

def position (j : Nat) : Nat := (b.positions.getD j 0).toNat

def slot (j : Nat) : Nat := (b.slotMapping.getD j 0).toNat

end Columns

/-- What paged attention reads of a batch is what it should be, and in range. -/
structure Fit (b : ForwardBatch) (numBlocks blockSize : Nat) : Prop where
  /-- Each token is in the span of exactly one sequence. -/
  spans : ∀ j, j < b.tokens.length → ∃! i, i < b.batchSize ∧ b.cuQ i ≤ j ∧ j < b.cuQ (i + 1)
  /-- Each token's slot is where the table of its sequence has its position. -/
  slots : ∀ i, i < b.batchSize → ∀ j, b.cuQ i ≤ j → j < b.cuQ (i + 1) →
    ∃ block, (b.table i)[b.position j / blockSize]? = some block ∧
      b.slot j = block * blockSize + b.position j % blockSize
  /-- Queries end where the keys end. -/
  last : ∀ i, i < b.batchSize → b.cuQ i < b.cuQ (i + 1) → b.position (b.cuQ (i + 1) - 1) = b.lenK i - 1 ∧ 0 < b.lenK i
  /-- Every token has a position and a slot, every sequence its bounds and its table. -/
  columns : b.positions.length = b.tokens.length ∧ b.slotMapping.length = b.tokens.length ∧
    ∀ i, i < b.batchSize → i + 1 < b.cuSeqlensQ.length ∧ i + 1 < b.cuSeqlensK.length ∧ i < b.blockTables.length ∧
      b.cuQ (i + 1) ≤ b.tokens.length ∧ b.lenQ i ≤ b.lenK i
  /-- Every row of the cache that is read, of a key or of a value, is there. -/
  keys : ∀ i, i < b.batchSize → ∀ p, p < b.lenK i → ∃ block, (b.table i)[p / blockSize]? = some block ∧
    block < numBlocks ∧ block * blockSize + p % blockSize < numBlocks * blockSize
  /-- So is every block of a table, and every row that is written. -/
  blocks : ∀ i, i < b.batchSize → ∀ block ∈ b.table i, block < numBlocks
  writes : ∀ s ∈ b.slotMapping, s.toNat < numBlocks * blockSize
  logits : ∀ i ∈ b.logitsIndices, i.toNat < b.tokens.length

end ForwardBatch

/-- What `push_seq` reads of a sequence to lay it out. -/
structure Span where
  start : Nat
  q : Nat
  blocks : List BlockId

namespace Span

def positions (s : Span) : List Nat := List.range' s.start s.q

def slots (bs : Nat) (s : Span) : List Nat := s.positions.map fun p => s.blocks.getD (p / bs) 0 * bs + p % bs

end Span

/-- The batch is laid out as `push_seq` lays out sequences: each has its next `q` positions from `start` on, in the slots
of its table, and keys up to the last of them. -/
def ForwardBatch.Laid (b : ForwardBatch) (bs : Nat) : Prop :=
  ∃ spans : List Span, b.positions.map UInt32.toNat = spans.flatMap Span.positions ∧
    b.slotMapping.map UInt32.toNat = spans.flatMap (Span.slots bs) ∧ b.blockTables = spans.map Span.blocks ∧
    ∀ i s, spans[i]? = some s → b.lenQ i = s.q ∧ b.lenK i = s.start + s.q

namespace ForwardBatch

section Accepted

theorem of_ensure {ok : Bool} {message : String} (h : ensure ok message = .ok ()) : ok = true := by
  cases ok
  · cases h
  · rfl

theorem of_checkAll {α : Type} {check : α → Except Error Unit} {l : List α} (h : checkAll check l = .ok ()) :
    ∀ x ∈ l, check x = .ok () := by
  induction l with
  | nil => simp
  | cons x l ih =>
    rw [checkAll] at h
    cases here : check x with
    | error e =>
      rw [here] at h
      cases h
    | ok u =>
      rw [here] at h
      rintro y hy
      rcases List.mem_cons.mp hy with rfl | hy
      · exact here
      · exact ih h y hy

theorem bind_ok {check : Except Error Unit} {rest : Unit → Except Error Unit} (h : check >>= rest = .ok ()) :
    check = .ok () ∧ rest () = .ok () := by
  cases check with
  | error e => cases h
  | ok u => exact ⟨rfl, h⟩

/-- Neighbours of a list, by index. -/
theorem mem_windows {α : Type} {l : List α} {i : Nat} {x y : α} (here : l[i]? = some x) (next : l[i + 1]? = some y) :
    (x, y) ∈ windows l := by
  refine List.mem_iff_getElem?.mpr ⟨i, ?_⟩
  rw [windows, List.getElem?_zip_eq_some]
  exact ⟨here, by rwa [List.getElem?_tail]⟩

/-- What the checks of `validate` say. -/
structure Checked (b : ForwardBatch) (numBlocks blockSize : Nat) : Prop where
  positions : b.tokens.length = b.positions.length
  slots : b.tokens.length = b.slotMapping.length
  cumulative : b.cuSeqlensQ.length = b.cuSeqlensK.length
  starts : b.cuQ 0 = 0
  tables : b.blockTables.length = b.batchSize
  monoQ : ∀ i, i < b.batchSize → b.cuQ i ≤ b.cuQ (i + 1)
  monoK : ∀ i, i < b.batchSize → b.cuK i ≤ b.cuK (i + 1)
  ends : b.cuSeqlensQ ≠ [] → b.cuQ b.batchSize = b.tokens.length
  lengths : ∀ i, i < b.batchSize → b.lenQ i ≤ b.lenK i
  covers : ∀ i, i < b.batchSize → b.lenK i ≤ (b.table i).length * blockSize
  blocks : ∀ i, i < b.batchSize → ∀ block ∈ b.table i, block < numBlocks
  next : ∀ i, i < b.batchSize → ∀ j, b.cuQ i < j → j < b.cuQ (i + 1) →
    b.positions.getD j 0 = b.positions.getD (j - 1) 0 + 1
  writes : ∀ s ∈ b.slotMapping, s.toNat < numBlocks * blockSize
  logits : ∀ i ∈ b.logitsIndices, i.toNat < b.tokens.length

variable {b : ForwardBatch} {numBlocks blockSize : Nat}

theorem validateSlots_inside (ok : b.validateSlots numBlocks blockSize = .ok ()) :
    ∀ s ∈ b.slotMapping, s.toNat < numBlocks * blockSize := by
  intro s mem
  have mem' := (List.mem_insertionSort (· ≤ ·)).mpr mem
  have sorted := List.pairwise_insertionSort (· ≤ ·) b.slotMapping
  unfold validateSlots at ok
  simp only at ok
  split at ok
  · cases ok
  · rename_i last _ is
    obtain ⟨init, split⟩ := List.getLast?_eq_some_iff.mp is
    have most : s ≤ last := by
      rw [split] at mem' sorted
      rcases List.mem_append.mp mem' with earlier | same
      · exact (List.pairwise_append.mp sorted).2.2 s earlier last (by simp)
      · rw [List.mem_singleton.mp same]
        exact UInt32.le_refl last
    exact Nat.lt_of_le_of_lt (UInt32.le_iff_toNat_le.mp most) (by simpa using of_ensure ok)
  · rename_i _ none_
    rw [List.getLast?_eq_none_iff.mp none_] at mem'
    cases mem'

theorem getD_some {α : Type} {l : List α} {i : Nat} (d : α) (within : i < l.length) : l[i]? = some (l.getD i d) := by
  rw [List.getD_eq_getElem?_getD, List.getElem?_eq_getElem within, Option.getD_some]

theorem windows_le {l : List UInt32} {message : String}
    (ok : checkAll (fun w => ensure (w.1 ≤ w.2) message) (windows l) = .ok ()) {i : Nat} (within : i + 1 < l.length) :
    (l.getD i 0).toNat ≤ (l.getD (i + 1) 0).toNat := by
  have mem := mem_windows (getD_some 0 (Nat.lt_of_succ_lt within)) (getD_some 0 within)
  exact UInt32.le_iff_toNat_le.mp (by simpa using of_ensure (of_checkAll ok _ mem))

theorem checked_of_validate (size : 0 < blockSize) (ok : b.validate numBlocks blockSize = .ok ()) :
    b.Checked numBlocks blockSize := by
  unfold validate at ok
  obtain ⟨positions, ok⟩ := bind_ok ok
  obtain ⟨slots, ok⟩ := bind_ok ok
  obtain ⟨cumulative, ok⟩ := bind_ok ok
  obtain ⟨starts, ok⟩ := bind_ok ok
  obtain ⟨tables, ok⟩ := bind_ok ok
  obtain ⟨queries, ok⟩ := bind_ok ok
  obtain ⟨keys, ok⟩ := bind_ok ok
  obtain ⟨ends, ok⟩ := bind_ok ok
  obtain ⟨sequences, ok⟩ := bind_ok ok
  obtain ⟨writes, logits⟩ := bind_ok ok
  have cumulative : b.cuSeqlensQ.length = b.cuSeqlensK.length := by simpa using of_ensure cumulative
  have short : ∀ i, i < b.batchSize → i + 1 < b.cuSeqlensQ.length := fun i hi => by
    unfold batchSize at hi
    omega
  have monoQ : ∀ i, i < b.batchSize → b.cuQ i ≤ b.cuQ (i + 1) := fun i hi => windows_le queries (short i hi)
  have monoK : ∀ i, i < b.batchSize → b.cuK i ≤ b.cuK (i + 1) :=
    fun i hi => windows_le keys (cumulative ▸ short i hi)
  have starts : b.cuQ 0 = 0 := by
    have starts : b.cuSeqlensQ.head? = some 0 ∨ b.cuSeqlensQ = [] := by simpa using of_ensure starts
    rcases starts with first | none_
    · rw [cuQ, List.getD_eq_getElem?_getD, ← List.head?_eq_getElem?, first]
      rfl
    · rw [cuQ, none_]
      rfl
  have ends : b.cuSeqlensQ ≠ [] → b.cuQ b.batchSize = b.tokens.length := by
    intro some_
    have last := of_checkAll ends (b.cuSeqlensQ.getLast some_) (by simp [List.getLast?_eq_some_getLast some_])
    have last : (b.cuSeqlensQ.getLast some_).toNat = b.tokens.length := by simpa using of_ensure last
    have positive := List.length_pos_iff.mpr some_
    rw [cuQ, batchSize, List.getD_eq_getElem?_getD, ← List.getLast?_eq_getElem?, List.getLast?_eq_some_getLast some_,
      Option.getD_some, last]
  have each : ∀ i, i < b.batchSize → b.lenQ i ≤ b.lenK i ∧ b.lenK i ≤ (b.table i).length * blockSize ∧
      (∀ block ∈ b.table i, block < numBlocks) ∧ ∀ j, b.cuQ i < j → j < b.cuQ (i + 1) →
        b.positions.getD j 0 = b.positions.getD (j - 1) 0 + 1 := by
    intro i hi
    have here := of_checkAll sequences i (List.mem_range.mpr hi)
    unfold validateSequence at here
    have q : (b.cuSeqlensQ.getD (i + 1) 0 - b.cuSeqlensQ.getD i 0).toNat = b.lenQ i :=
      UInt32.toNat_sub_of_le _ _ (UInt32.le_iff_toNat_le.mpr (monoQ i hi))
    have k : (b.cuSeqlensK.getD (i + 1) 0 - b.cuSeqlensK.getD i 0).toNat = b.lenK i :=
      UInt32.toNat_sub_of_le _ _ (UInt32.le_iff_toNat_le.mpr (monoK i hi))
    simp only [q, k] at here
    obtain ⟨fewer, here⟩ := bind_ok here
    obtain ⟨need, here⟩ := bind_ok here
    obtain ⟨exist, next⟩ := bind_ok here
    refine ⟨by simpa using of_ensure fewer, ?_, fun block mem => ?_, fun j after before => ?_⟩
    · have need : (b.lenK i + blockSize - 1) / blockSize ≤ (b.table i).length :=
        of_decide_eq_true (of_ensure need)
      rw [Nat.div_le_iff_le_mul_add_pred size] at need
      rw [Nat.mul_comm]
      omega
    · simpa using of_ensure (of_checkAll exist block mem)
    · have mem : j ∈ List.range' ((b.cuSeqlensQ.getD i 0).toNat + 1) (b.lenQ i - 1) := by
        rw [List.mem_range'_1]
        unfold lenQ
        unfold cuQ at after before ⊢
        omega
      simpa using of_ensure (of_checkAll next j mem)
  exact {
    positions := by simpa using of_ensure positions
    slots := by simpa using of_ensure slots
    cumulative
    starts
    tables := by simpa using of_ensure tables
    monoQ
    monoK
    ends
    lengths := fun i hi => (each i hi).1
    covers := fun i hi => (each i hi).2.1
    blocks := fun i hi => (each i hi).2.2.1
    next := fun i hi => (each i hi).2.2.2
    writes := validateSlots_inside writes
    logits := fun i mem => by simpa using of_ensure (of_checkAll logits i mem) }

/-- A sorted list whose neighbours differ has no duplicates. -/
theorem nodup_of_windows {l : List UInt32} (sorted : l.Pairwise (· ≤ ·)) (differ : ∀ w ∈ windows l, w.1 ≠ w.2) :
    l.Nodup := by
  induction l with
  | nil => exact List.nodup_nil
  | cons x l ih =>
    obtain ⟨least, sorted⟩ := List.pairwise_cons.mp sorted
    cases l with
    | nil => exact List.nodup_singleton x
    | cons y l =>
      have rest := ih sorted fun w mem => differ w (List.mem_cons_of_mem _ mem)
      refine List.nodup_cons.mpr ⟨fun mem => differ (x, y) List.mem_cons_self ?_, rest⟩
      have back : y ≤ x := by
        rcases List.mem_cons.mp mem with rfl | later
        · exact UInt32.le_refl x
        · exact (List.pairwise_cons.mp sorted).1 x later
      exact UInt32.le_antisymm (least y List.mem_cons_self) back

theorem validateSlots_nodup (ok : b.validateSlots numBlocks blockSize = .ok ()) : b.slotMapping.Nodup := by
  have perm := List.perm_insertionSort (· ≤ ·) b.slotMapping
  refine perm.nodup_iff.mp (nodup_of_windows (List.pairwise_insertionSort (· ≤ ·) b.slotMapping) fun w mem same => ?_)
  unfold validateSlots at ok
  simp only at ok
  split at ok
  · cases ok
  · rename_i none_ _
    exact List.find?_eq_none.mp none_ w mem (by simpa using same)
  · rename_i none_ _
    exact List.find?_eq_none.mp none_ w mem (by simpa using same)

theorem nodup_of_validate (ok : b.validate numBlocks blockSize = .ok ()) : b.slotMapping.Nodup := by
  unfold validate at ok
  obtain ⟨-, ok⟩ := bind_ok ok
  obtain ⟨-, ok⟩ := bind_ok ok
  obtain ⟨-, ok⟩ := bind_ok ok
  obtain ⟨-, ok⟩ := bind_ok ok
  obtain ⟨-, ok⟩ := bind_ok ok
  obtain ⟨-, ok⟩ := bind_ok ok
  obtain ⟨-, ok⟩ := bind_ok ok
  obtain ⟨-, ok⟩ := bind_ok ok
  obtain ⟨-, ok⟩ := bind_ok ok
  obtain ⟨slots, -⟩ := bind_ok ok
  exact validateSlots_nodup slots

theorem of_mem_windows {l : List UInt32} {w : UInt32 × UInt32} (mem : w ∈ windows l) :
    ∃ i, i + 1 < l.length ∧ w.1 = l.getD i 0 ∧ w.2 = l.getD (i + 1) 0 := by
  obtain ⟨i, at_⟩ := List.mem_iff_getElem?.mp mem
  rw [windows, List.getElem?_zip_eq_some, List.getElem?_tail] at at_
  refine ⟨i, (List.getElem?_eq_some_iff.mp at_.2).1, ?_, ?_⟩ <;> rw [List.getD_eq_getElem?_getD]
  · rw [at_.1, Option.getD_some]
  · rw [at_.2, Option.getD_some]

/-- The checks say no more than that, and that no slot is taken twice. -/
theorem validate_of_checked (size : 0 < blockSize) (checked : b.Checked numBlocks blockSize)
    (nodup : b.slotMapping.Nodup) :
    b.validate numBlocks blockSize = .ok () := by
  have short : ∀ i, i + 1 < b.cuSeqlensQ.length → i < b.batchSize := fun i within => by
    unfold batchSize
    omega
  have starts : b.cuSeqlensQ.head? = some 0 ∨ b.cuSeqlensQ = [] := by
    have first := checked.starts
    unfold cuQ at first
    cases is : b.cuSeqlensQ with
    | nil => exact .inr rfl
    | cons x rest =>
      rw [is, List.getD_cons_zero] at first
      exact .inl (congrArg some (UInt32.toNat_inj.mp first))
  have monoQ : ∀ w ∈ windows b.cuSeqlensQ, w.1 ≤ w.2 := fun w mem => by
    obtain ⟨i, within, first, second⟩ := of_mem_windows mem
    rw [first, second]
    exact UInt32.le_iff_toNat_le.mpr (checked.monoQ i (short i within))
  have monoK : ∀ w ∈ windows b.cuSeqlensK, w.1 ≤ w.2 := fun w mem => by
    obtain ⟨i, within, first, second⟩ := of_mem_windows mem
    rw [first, second]
    exact UInt32.le_iff_toNat_le.mpr (checked.monoK i (short i (checked.cumulative ▸ within)))
  have ends : ∀ last ∈ b.cuSeqlensQ.getLast?.toList, last.toNat = b.tokens.length := by
    intro last mem
    rw [Option.mem_toList] at mem
    have some_ : b.cuSeqlensQ ≠ [] := fun none_ => by
      rw [none_] at mem
      cases mem
    rw [← checked.ends some_, cuQ, batchSize, List.getD_eq_getElem?_getD, ← List.getLast?_eq_getElem?, mem,
      Option.getD_some]
  have each : ∀ i ∈ List.range b.batchSize, b.validateSequence numBlocks blockSize i = .ok () := by
    intro i mem
    have hi := List.mem_range.mp mem
    have q : (b.cuSeqlensQ.getD (i + 1) 0 - b.cuSeqlensQ.getD i 0).toNat = b.lenQ i :=
      UInt32.toNat_sub_of_le _ _ (UInt32.le_iff_toNat_le.mpr (checked.monoQ i hi))
    have k : (b.cuSeqlensK.getD (i + 1) 0 - b.cuSeqlensK.getD i 0).toNat = b.lenK i :=
      UInt32.toNat_sub_of_le _ _ (UInt32.le_iff_toNat_le.mpr (checked.monoK i hi))
    have need : (b.lenK i + blockSize - 1) / blockSize ≤ (b.blockTables.getD i []).length := by
      have covers := checked.covers i hi
      rw [Nat.mul_comm] at covers
      rw [Nat.div_le_iff_le_mul_add_pred size]
      exact Nat.sub_le_of_le_add (by unfold table at covers; omega)
    have width := checked.monoQ i hi
    unfold validateSequence
    simp only [q, k]
    rw [ensure_ok (by simpa using checked.lengths i hi), ensure_ok (by simpa using need),
      checkAll_ok fun block mem => ensure_ok (by simpa using checked.blocks i hi block mem),
      checkAll_ok fun j mem => ensure_ok ?_]
    · rfl
    · obtain ⟨after, before⟩ := List.mem_range'_1.mp mem
      have next := checked.next i hi j after (by unfold lenQ cuQ at *; omega)
      simpa using next
  unfold validate
  rw [ensure_ok (by simpa using checked.positions), ensure_ok (by simpa using checked.slots),
    ensure_ok (by simpa using checked.cumulative), ensure_ok (by simpa using starts),
    ensure_ok (by simpa using checked.tables), checkAll_ok fun w mem => ensure_ok (by simpa using monoQ w mem),
    checkAll_ok fun w mem => ensure_ok (by simpa using monoK w mem),
    checkAll_ok fun last mem => ensure_ok (by simpa using ends last mem), checkAll_ok each,
    validateSlots_of nodup checked.writes, checkAll_ok fun i mem => ensure_ok (by simpa using checked.logits i mem)]
  rfl

namespace Checked

variable (checked : b.Checked numBlocks blockSize)

include checked

theorem mono {i k : Nat} (le : i ≤ k) (within : k ≤ b.batchSize) : b.cuQ i ≤ b.cuQ k := by
  induction k, le using Nat.le_induction with
  | base => exact Nat.le_refl _
  | succ k _ ih => exact (ih (Nat.le_of_succ_le within)).trans (checked.monoQ k within)

theorem bounds {i : Nat} (hi : i < b.batchSize) : i + 1 < b.cuSeqlensQ.length ∧ b.cuQ (i + 1) ≤ b.tokens.length := by
  have short : i + 1 < b.cuSeqlensQ.length := by
    unfold batchSize at hi
    omega
  refine ⟨short, ?_⟩
  rw [← checked.ends (List.ne_nil_of_length_pos (by omega))]
  exact checked.mono hi (Nat.le_refl _)

theorem covered (size : 0 < blockSize) {i : Nat} (hi : i < b.batchSize) {p : Nat} (key : p < b.lenK i) :
    p / blockSize < (b.table i).length :=
  (Nat.div_lt_iff_lt_mul size).mpr (Nat.lt_of_lt_of_le key (checked.covers i hi))

theorem end_eq {i : Nat} (hi : i < b.batchSize) : b.cuQ (i + 1) = b.cuQ i + b.lenQ i := by
  have := checked.monoQ i hi
  unfold lenQ
  omega

end Checked

/-- Where the batch's tokens are, if it has bounds for them: at the positions up to each sequence's last key, and in its
table's slots for these. -/
structure Placed (b : ForwardBatch) (blockSize : Nat) : Prop where
  bounded : b.cuSeqlensQ = [] → b.tokens = []
  positions : ∀ i, i < b.batchSize → ∀ t, t < b.lenQ i → b.position (b.cuQ i + t) = b.lenK i - b.lenQ i + t
  slots : ∀ i, i < b.batchSize → ∀ t, t < b.lenQ i → b.slot (b.cuQ i + t) =
    (b.table i).getD ((b.lenK i - b.lenQ i + t) / blockSize) 0 * blockSize + (b.lenK i - b.lenQ i + t) % blockSize

theorem row_lt {block p : Nat} (size : 0 < blockSize) (exists_ : block < numBlocks) :
    block * blockSize + p % blockSize < numBlocks * blockSize := by
  have off := Nat.mod_lt p size
  have next := Nat.mul_le_mul_right blockSize (Nat.succ_le_of_lt exists_)
  rw [Nat.succ_mul] at next
  omega

/-- A token lies between the bounds of one sequence. -/
theorem Checked.exists_span (checked : b.Checked numBlocks blockSize) (bounded : b.cuSeqlensQ = [] → b.tokens = [])
    {j : Nat} (hj : j < b.tokens.length) : ∃! i, i < b.batchSize ∧ b.cuQ i ≤ j ∧ j < b.cuQ (i + 1) := by
  have some_ : b.cuSeqlensQ ≠ [] := by
    intro none_
    rw [bounded none_] at hj
    exact absurd hj (Nat.not_lt_zero j)
  have found : ∀ k, k ≤ b.batchSize → j < b.cuQ k → ∃ i, i < b.batchSize ∧ b.cuQ i ≤ j ∧ j < b.cuQ (i + 1) := by
    intro k
    induction k with
    | zero =>
      intro _ before
      rw [checked.starts] at before
      exact absurd before (Nat.not_lt_zero j)
    | succ k ih =>
      intro within before
      by_cases earlier : j < b.cuQ k
      · exact ih (Nat.le_of_succ_le within) earlier
      · exact ⟨k, within, Nat.le_of_not_lt earlier, before⟩
  obtain ⟨i, hi, from_, before⟩ := found b.batchSize (Nat.le_refl _) (by rwa [checked.ends some_])
  refine ⟨i, ⟨hi, from_, before⟩, ?_⟩
  rintro k ⟨hk, from', before'⟩
  -- the bounds do not decrease
  rcases Nat.lt_trichotomy k i with less | same | more
  · have ordered : b.cuQ (k + 1) ≤ b.cuQ i := checked.mono less (Nat.le_of_lt hi)
    omega
  · exact same
  · have ordered : b.cuQ (i + 1) ≤ b.cuQ k := checked.mono more (Nat.le_of_lt hk)
    omega

theorem Checked.fit (checked : b.Checked numBlocks blockSize) (size : 0 < blockSize) (placed : b.Placed blockSize) :
    b.Fit numBlocks blockSize where
  spans j hj := checked.exists_span placed.bounded hj
  slots i hi j from_ before := by
    have width := checked.end_eq hi
    obtain ⟨t, rfl⟩ := Nat.exists_eq_add_of_le from_
    have inside : t < b.lenQ i := by omega
    have fewer := checked.lengths i hi
    have here := checked.covered size hi (p := b.lenK i - b.lenQ i + t) (by omega)
    rw [placed.positions i hi t inside, placed.slots i hi t inside]
    exact ⟨_, getD_some 0 here, rfl⟩
  last i hi some_ := by
    have width := checked.end_eq hi
    have fewer := checked.lengths i hi
    have last := placed.positions i hi (b.lenQ i - 1) (by omega)
    rw [show b.cuQ i + (b.lenQ i - 1) = b.cuQ (i + 1) - 1 by omega] at last
    rw [last]
    omega
  columns := ⟨checked.positions.symm, checked.slots.symm, fun i hi =>
    have short := (checked.bounds hi).1
    ⟨short, checked.cumulative ▸ short, checked.tables ▸ hi, (checked.bounds hi).2, checked.lengths i hi⟩⟩
  keys i hi p key := by
    have here := checked.covered size hi key
    have exists_ := checked.blocks i hi _ (List.mem_of_getElem? (getD_some 0 here))
    exact ⟨_, getD_some 0 here, exists_, row_lt size exists_⟩
  blocks := checked.blocks
  writes := checked.writes
  logits := checked.logits

theorem Checked.placed (checked : b.Checked numBlocks blockSize) (fit : b.Fit numBlocks blockSize) :
    b.Placed blockSize := by
  have positions : ∀ i, i < b.batchSize → ∀ d t, t + d + 1 = b.lenQ i →
      b.position (b.cuQ i + t) = b.lenK i - b.lenQ i + t := by
    intro i hi d
    have width := checked.end_eq hi
    have fewer := checked.lengths i hi
    -- from the last one back
    induction d with
    | zero =>
      intro t last
      have at_ := (fit.last i hi (by omega)).1
      rw [show b.cuQ (i + 1) - 1 = b.cuQ i + t by omega] at at_
      rw [at_]
      omega
    | succ d ih =>
      intro t inside
      have after := ih (t + 1) (by omega)
      have next := checked.next i hi (b.cuQ i + (t + 1)) (by omega) (by omega)
      rw [show b.cuQ i + (t + 1) - 1 = b.cuQ i + t by omega] at next
      unfold position at after ⊢
      rw [next] at after
      have wrapped := UInt32.toNat_add (b.positions.getD (b.cuQ i + t) 0) 1
      have small := (b.positions.getD (b.cuQ i + t) 0).toNat_lt
      rw [after, show (1 : UInt32).toNat = 1 from rfl] at wrapped
      omega
  refine ⟨fun none_ => ?_, fun i hi t inside => positions i hi (b.lenQ i - t - 1) t (by omega), fun i hi t inside => ?_⟩
  · by_contra some_
    obtain ⟨i, ⟨hi, -⟩, -⟩ := fit.spans 0 (List.length_pos_iff.mpr some_)
    rw [batchSize, none_] at hi
    exact absurd hi (Nat.not_lt_zero i)
  · have width := checked.end_eq hi
    obtain ⟨block, here, is⟩ := fit.slots i hi (b.cuQ i + t) (by omega) (by omega)
    rw [positions i hi (b.lenQ i - t - 1) t (by omega)] at here is
    rw [is, List.getD_eq_getElem?_getD, here, Option.getD_some]

/-- What a sequence of the batch was laid out from, read off its lengths. -/
def spanOf (b : ForwardBatch) (i : Nat) : Span := ⟨b.lenK i - b.lenQ i, b.lenQ i, b.table i⟩

theorem Checked.sum_lenQ (checked : b.Checked numBlocks blockSize) {k : Nat} (within : k ≤ b.batchSize) :
    ((List.range k).map b.lenQ).sum = b.cuQ k := by
  induction k with
  | zero => exact checked.starts.symm
  | succ k ih =>
    rw [List.range_succ, List.map_append, List.sum_append, ih (Nat.le_of_succ_le within), checked.end_eq within]
    simp

/-- A column that has one entry for each token, piece by piece. -/
theorem Checked.column_iff (checked : b.Checked numBlocks blockSize) (bounded : b.cuSeqlensQ = [] → b.tokens = [])
    {column : List Nat} (length : column.length = b.tokens.length) {f : Nat → List Nat}
    (lens : ∀ i, (f i).length = b.lenQ i) : column = (List.range b.batchSize).flatMap f ↔
      ∀ i, i < b.batchSize → ∀ t, t < b.lenQ i → column[b.cuQ i + t]? = (f i)[t]? := by
  have piece : ∀ i, i < b.batchSize → ∀ t, t < b.lenQ i →
      ((List.range b.batchSize).flatMap f)[b.cuQ i + t]? = (f i)[t]? := by
    intro i hi t inside
    have at_ := Ragged.flatMap_getElem? (f := f) (List.getElem?_range hi) (k := t) (by rwa [lens])
    rwa [List.take_range, Nat.min_eq_left (Nat.le_of_lt hi), List.map_congr_left fun i _ => lens i,
      checked.sum_lenQ (Nat.le_of_lt hi)] at at_
  constructor
  · intro same i hi t inside
    rw [same]
    exact piece i hi t inside
  · intro each
    have total : ((List.range b.batchSize).flatMap f).length = b.tokens.length := by
      rw [List.length_flatMap, List.map_congr_left fun i _ => lens i, checked.sum_lenQ (Nat.le_refl _)]
      by_cases none_ : b.cuSeqlensQ = []
      · rw [bounded none_, batchSize, none_]
        exact checked.starts
      · exact checked.ends none_
    refine List.ext_getElem? fun j => ?_
    by_cases hj : j < b.tokens.length
    · obtain ⟨i, ⟨hi, from_, before⟩, -⟩ := checked.exists_span bounded hj
      obtain ⟨t, rfl⟩ := Nat.exists_eq_add_of_le from_
      have inside : t < b.lenQ i := by
        have := checked.end_eq hi
        omega
      rw [each i hi t inside, piece i hi t inside]
    · rw [List.getElem?_eq_none (by omega), List.getElem?_eq_none (by omega)]

/-- The sequences a batch was laid out from are those its lengths tell. -/
theorem Checked.laid_iff (checked : b.Checked numBlocks blockSize) : b.Laid blockSize ↔
    b.positions.map UInt32.toNat = (List.range b.batchSize).flatMap (fun i => (b.spanOf i).positions) ∧
      b.slotMapping.map UInt32.toNat = (List.range b.batchSize).flatMap fun i => (b.spanOf i).slots blockSize := by
  have tables : b.blockTables = (List.range b.batchSize).map b.table := by
    refine List.ext_getElem (by simp [checked.tables]) fun i within _ => ?_
    rw [List.getElem_map, List.getElem_range]
    exact Option.some.inj ((List.getElem?_eq_getElem within).symm.trans (getD_some [] within))
  constructor
  · rintro ⟨spans, positions, slots, blocks, lengths⟩
    have many : spans.length = b.batchSize := by rw [← checked.tables, blocks, List.length_map]
    have told : spans = (List.range b.batchSize).map b.spanOf := by
      refine List.ext_getElem (by simp [many]) fun i within _ => ?_
      obtain ⟨queries, keys⟩ := lengths i _ (List.getElem?_eq_getElem within)
      have own : b.table i = spans[i].blocks := by
        rw [table, blocks, List.getD_eq_getElem?_getD, List.getElem?_map, List.getElem?_eq_getElem within]
        rfl
      rw [List.getElem_map, List.getElem_range, spanOf, queries, keys, own, Nat.add_sub_cancel]
    rw [told, List.flatMap_map] at positions slots
    exact ⟨positions, slots⟩
  · rintro ⟨positions, slots⟩
    refine ⟨(List.range b.batchSize).map b.spanOf, ?_, ?_, ?_, fun i s at_ => ?_⟩
    · rw [List.flatMap_map, positions]
    · rw [List.flatMap_map, slots]
    · rw [List.map_map]
      exact tables
    · obtain ⟨k, here, rfl⟩ := Option.map_eq_some_iff.mp (List.getElem?_map ▸ at_)
      obtain ⟨within, same⟩ := List.getElem?_eq_some_iff.mp here
      rw [List.getElem_range] at same
      subst same
      have fewer := checked.lengths i (by simpa using within)
      exact ⟨rfl, (Nat.sub_add_cancel fewer).symm⟩

theorem map_getD {column : List UInt32} {j : Nat} (within : j < column.length) :
    (column.map UInt32.toNat)[j]? = some (column.getD j 0).toNat := by
  rw [List.getElem?_map, getD_some 0 within]
  rfl

theorem Checked.placed_iff_laid (checked : b.Checked numBlocks blockSize) : b.Placed blockSize ↔ b.Laid blockSize := by
  rw [checked.laid_iff]
  have here : ∀ {i t : Nat}, t < b.lenQ i → (b.spanOf i).positions[t]? = some (b.lenK i - b.lenQ i + t) := by
    intro i t inside
    rw [Span.positions, spanOf, List.getElem?_range' inside, Nat.one_mul]
  have there : ∀ {i t : Nat}, t < b.lenQ i → ((b.spanOf i).slots blockSize)[t]? = some
      ((b.table i).getD ((b.lenK i - b.lenQ i + t) / blockSize) 0 * blockSize +
        (b.lenK i - b.lenQ i + t) % blockSize) := by
    intro i t inside
    rw [Span.slots, List.getElem?_map, here inside]
    rfl
  have inRange : ∀ {i t : Nat}, i < b.batchSize → t < b.lenQ i → b.cuQ i + t < b.tokens.length := by
    intro i t hi inside
    have := (checked.bounds hi).2
    have := checked.end_eq hi
    omega
  have rows : (b.positions.map UInt32.toNat).length = b.tokens.length ∧
      (b.slotMapping.map UInt32.toNat).length = b.tokens.length :=
    ⟨by rw [List.length_map, checked.positions], by rw [List.length_map, checked.slots]⟩
  have columns := fun bounded => And.intro
    (checked.column_iff bounded rows.1 (f := fun i => (b.spanOf i).positions) fun i => by simp [Span.positions, spanOf])
    (checked.column_iff bounded rows.2 (f := fun i => (b.spanOf i).slots blockSize)
      fun i => by simp [Span.slots, Span.positions, spanOf])
  constructor
  · intro placed
    rw [(columns placed.bounded).1, (columns placed.bounded).2]
    refine ⟨fun i hi t inside => ?_, fun i hi t inside => ?_⟩
    · rw [map_getD (checked.positions ▸ inRange hi inside), here inside]
      exact congrArg some (placed.positions i hi t inside)
    · rw [map_getD (checked.slots ▸ inRange hi inside), there inside]
      exact congrArg some (placed.slots i hi t inside)
  · rintro ⟨positions, slots⟩
    have bounded : b.cuSeqlensQ = [] → b.tokens = [] := by
      intro none_
      rw [batchSize, none_] at positions
      have empty : b.positions = [] := List.map_eq_nil_iff.mp positions
      exact List.length_eq_zero_iff.mp (by rw [checked.positions, empty]; rfl)
    rw [(columns bounded).1] at positions
    rw [(columns bounded).2] at slots
    refine ⟨bounded, fun i hi t inside => ?_, fun i hi t inside => ?_⟩
    · have at_ := positions i hi t inside
      rw [map_getD (checked.positions ▸ inRange hi inside), here inside] at at_
      exact Option.some.inj at_
    · have at_ := slots i hi t inside
      rw [map_getD (checked.slots ▸ inRange hi inside), there inside] at at_
      exact Option.some.inj at_

/-- A batch that `validate` accepts is fit for paged attention if and only if it is laid out as `push_seq` lays out
sequences. -/
theorem fit_iff_laid (size : 0 < blockSize) (ok : b.validate numBlocks blockSize = .ok ()) :
    b.Fit numBlocks blockSize ↔ b.Laid blockSize := by
  have checked := checked_of_validate size ok
  rw [← checked.placed_iff_laid]
  exact ⟨checked.placed, checked.fit size⟩

end Accepted

/-- The scheduler's batches are laid out so. -/
theorem laid_batchOf {es : List Entry} {bs n : Nat} (size : 0 < bs) (fits : (es.map Entry.stop).sum < 2 ^ 32)
    (fitsSlots : n * bs ≤ 2 ^ 32) (covered : ∀ e ∈ es, e.Covered bs)
    (valid : ∀ e ∈ es, ∀ block ∈ e.seq.blocks, block < n) :
    (batchOf bs es).Laid bs := by
  have least : ∀ e ∈ es, e.stop < 2 ^ 32 := fun e he =>
    Nat.lt_of_le_of_lt (List.single_le_sum (fun _ _ => Nat.zero_le _) _ (List.mem_map_of_mem he)) fits
  have fitsQ := Nat.lt_of_le_of_lt (sum_q_le es) fits
  have column : ∀ f : Entry → List Nat, (∀ e ∈ es, ∀ x ∈ f e, x < 2 ^ 32) →
      (es.flatMap fun e => (f e).map UInt32.ofNat).map UInt32.toNat = es.flatMap f := by
    intro f small
    rw [List.map_flatMap]
    refine List.flatMap_congr fun e he => ?_
    rw [List.map_map]
    exact (List.map_congr_left fun x hx => toNat_ofNat (small e he x hx)).trans (List.map_id _)
  refine ⟨es.map fun e => ⟨e.start, e.q, e.seq.blocks⟩, ?_, ?_, ?_, fun i s at_ => ?_⟩
  · rw [List.flatMap_map]
    exact column Entry.positions fun e he p hp => Nat.lt_trans (Entry.mem_positions.mp hp).2 (least e he)
  · rw [List.flatMap_map]
    have slots := column (fun e => e.positions.map (e.slot bs)) fun e he x hx => by
      obtain ⟨p, hp, rfl⟩ := List.mem_map.mp hx
      exact Nat.lt_of_lt_of_le (slot_lt size (covered e he) (valid e he) hp) fitsSlots
    simp only [List.map_map] at slots
    exact slots
  · rw [List.map_map]
    rfl
  · obtain ⟨e, get, rfl⟩ := Option.map_eq_some_iff.mp (List.getElem?_map ▸ at_)
    have lt := (List.getElem?_eq_some_iff.mp get).1
    have queries := cumulative_sub (f := Entry.q) fitsQ get
    have keys := cumulative_sub (f := Entry.stop) fits get
    have order : ∀ f : Entry → Nat, (es.map f).sum < 2 ^ 32 →
        (cumulative f es).getD i 0 ≤ (cumulative f es).getD (i + 1) 0 := by
      intro f fits
      rw [cumulative_getD lt, cumulative_getD (Nat.le_of_lt lt)]
      refine ofNat_le_ofNat ?_ (Nat.lt_of_le_of_lt (Ragged.take_sum_le _ _) fits)
      rw [List.take_add_one, List.sum_append]
      exact Nat.le_add_right _ _
    rw [UInt32.toNat_sub_of_le _ _ (order _ fitsQ)] at queries
    rw [UInt32.toNat_sub_of_le _ _ (order _ fits)] at keys
    exact ⟨queries, keys⟩

section Example

/-- Two tokens of one sequence, at positions 0 and 1 of its block 1. -/
def twoTokens : ForwardBatch where
  tokens := [7, 8]
  positions := [0, 1]
  cuSeqlensQ := [0, 2]
  cuSeqlensK := [0, 2]
  slotMapping := [4, 5]
  blockTables := [[1]]
  logitsIndices := [1]
  maxSeqlenQ := 2
  maxSeqlenK := 2

theorem fit_iff_laid_two : twoTokens.Fit 2 4 :=
  (fit_iff_laid (by decide) (by decide +kernel)).mpr ⟨[⟨0, 2, [1]⟩], by decide +kernel, by decide +kernel, rfl, by
    intro i s at_
    match i with
    | 0 =>
      cases at_
      decide +kernel
    | i + 1 => cases at_⟩

/-- The same tokens are accepted in the slots of a block that is not the sequence's. -/
theorem foreign_slots_accepted : ({ twoTokens with slotMapping := [0, 1] } : ForwardBatch).validate 2 4 = .ok () ∧
    ¬({ twoTokens with slotMapping := [0, 1] } : ForwardBatch).Fit 2 4 := by
  refine ⟨by decide +kernel, fun fit => ?_⟩
  obtain ⟨block, here, is⟩ := fit.slots 0 (by decide) 0 (by decide) (by decide)
  cases here
  cases is

/-- So are tokens that no sequence has, where there are no cumulative lengths. -/
example : ({ tokens := [7], positions := [0], slotMapping := [0] } : ForwardBatch).validate 2 4 = .ok () := by
  decide +kernel

end Example

end ForwardBatch

end Vapi.Engine
