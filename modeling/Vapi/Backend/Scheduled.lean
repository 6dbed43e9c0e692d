import Vapi.Engine.Routing
import Vapi.Engine.Content
import Vapi.Backend.Inference
import Vapi.Backend.Decoded

/-!
# What is scheduled, as the model is fed it

The batch of a plan lays out the plan's entries as chunks of the texts of their
sequences, over the tables the scheduler has for them; the rows it asks for are
those of the last tokens of the sequences that it samples.
-/

namespace Vapi.Backend

open Vapi.Engine Vapi.Cache Slots
open Paged (Memory)

variable {H : Type} {B : Blake3 H}

/-- Where a sequence's blocks are. -/
def tableOf (s : Scheduler B) (id : SeqId) : List BlockId := (s.seqs id).elim [] Sequence.blocks

def textOf (s : Scheduler B) (id : SeqId) : List Token := (s.seqs id).elim [] Sequence.tokens

/-- The positions of each entry. -/
def chunksOf (es : List Entry) : List (Slots.Chunk SeqId) := es.map fun e => ⟨e.id, e.start, e.q⟩

/-- The last token of each sequence that is sampled. -/
def askedOf (es : List Entry) : List (SeqId × Nat) := (es.filter Entry.samples).map fun e => (e.id, e.stop - 1)

/-- A memory whose rows are the texts they are for. -/
def texts : Kernel (List Token) := fun seq _ row => seq.content (fun _ ts => ts) row.position

theorem map_toNat_ofNat {l : List Nat} (small : ∀ x ∈ l, x < 2 ^ 32) : (l.map UInt32.ofNat).map UInt32.toNat = l := by
  rw [List.map_map]
  exact (List.map_congr_left fun x mem => toNat_ofNat (small x mem)).trans (List.map_id _)

section Batch

variable {es : List Entry}

theorem tokensOf_chunksOf : tokensOf (chunksOf es) = es.flatMap fun e => e.positions.map (e.id, ·) := by
  rw [tokensOf, chunksOf, List.flatMap_map]
  rfl

/-- The rows that a batch asks for, among the tokens from the `n`-th on. -/
theorem lastRows_tokens (covered : ∀ e ∈ es, 0 < e.q) (pre : List (SeqId × Nat)) :
    (lastRows pre.length es).map (fun i => (pre ++ tokensOf (chunksOf es))[i]?) = (askedOf es).map some := by
  induction es generalizing pre with
  | nil => rfl
  | cons e es ih =>
    have later := ih (fun x mem => covered x (List.mem_cons_of_mem e mem)) (pre ++ e.positions.map (e.id, ·))
    have own : tokensOf (chunksOf (e :: es)) = e.positions.map (e.id, ·) ++ tokensOf (chunksOf es) := by
      rw [tokensOf_chunksOf, List.flatMap_cons, tokensOf_chunksOf]
    rw [List.length_append, List.length_map, Entry.positions_length, List.append_assoc, ← own] at later
    rw [lastRows, List.map_append, later]
    have positive := covered e List.mem_cons_self
    have last : (pre ++ tokensOf (chunksOf (e :: es)))[pre.length + e.q - 1]? = some (e.id, e.stop - 1) := by
      rw [own, List.getElem?_append_right (by omega), Nat.add_sub_assoc positive, Nat.add_sub_cancel_left,
        List.getElem?_append_left (by rw [List.length_map, Entry.positions_length]; omega), List.getElem?_map,
        Entry.positions, List.getElem?_range' (by omega)]
      simp only [Option.map_some, Entry.start, Entry.stop]
      congr 2
      omega
    cases samples : e.samples with
    | false =>
      rw [if_neg (by simp), askedOf, askedOf, List.filter_cons_of_neg (by simp [samples])]
      rfl
    | true =>
      rw [if_pos rfl, askedOf, askedOf, List.filter_cons_of_pos samples, List.map_singleton, last]
      rfl

end Batch

section Scheduled

variable {base s t : Scheduler B} {plan : StepPlan} {es : List Entry} (h : Scheduled base s t plan es)
include h

theorem tableOf_entry {e : Entry} (mem : e ∈ es) : tableOf t e.id = e.seq.blocks := by
  rw [tableOf, h.current e mem]
  rfl

theorem textOf_entry {e : Entry} (mem : e ∈ es) : textOf t e.id = e.seq.tokens := by
  rw [textOf, h.current e mem]
  rfl

theorem slotOf_entry {e : Entry} (mem : e ∈ es) (i : Nat) :
    slotOf base.cfg.blockSize (tableOf t) e.id i = e.slot base.cfg.blockSize i := by
  rw [slotOf, tableOf_entry h mem]
  rfl

/-- A sequence that is sampled has its last token among those of the batch. -/
theorem stop_of_samples {e : Entry} (mem : e ∈ es) (samples : e.samples = true) : e.stop = e.seq.tokens.length :=
  Nat.le_antisymm (h.covered e mem).tokens (of_decide_eq_true samples)

/-- The batch of the plan, but for the lengths measured when it was complete. -/
theorem batch_of_scheduled : ∃ maxSeqlenQ maxSeqlenK,
    plan.batch = { batchOf base.cfg.blockSize es with maxSeqlenQ, maxSeqlenK } := by
  obtain ⟨core, planFor, rfl⟩ := h.planFor
  refine ⟨core.measured.batch.maxSeqlenQ, core.measured.batch.maxSeqlenK, ?_⟩
  rw [← h.sound.setup.cfg, ← planFor.batch]
  rfl

theorem lays_of_scheduled (cfg : s.cfg = base.cfg) (fits : Engine.Fits base) :
    Lays plan.batch base.cfg.blockSize (tableOf t) (chunksOf es) := by
  have stops := h.stops cfg fits
  have queries := Nat.lt_of_le_of_lt (sum_q_le es) stops
  have small := h.small cfg fits
  have offsets_small {ls : List Nat} (sum : ls.sum < 2 ^ 32) : ∀ x ∈ Ragged.offsets 0 ls, x < 2 ^ 32 := by
    intro x mem
    obtain ⟨i, lt, here⟩ := List.getElem_of_mem mem
    rw [Ragged.offsets_length] at lt
    have is := Ragged.offsets_getElem? 0 (Nat.lt_succ_iff.mp lt)
    rw [List.getElem?_eq_getElem (by rwa [Ragged.offsets_length]), here, Nat.zero_add] at is
    exact Option.some.inj is ▸ Nat.lt_of_le_of_lt (Ragged.take_sum_le ls i) sum
  have column (g : Entry → Nat → Nat) (lt : ∀ e ∈ es, ∀ i ∈ e.positions, g e i < 2 ^ 32) :
      (es.flatMap fun e => e.positions.map fun i => UInt32.ofNat (g e i)).map UInt32.toNat =
        es.flatMap fun e => e.positions.map (g e) := by
    rw [List.map_flatMap]
    refine List.flatMap_congr fun e mem => ?_
    rw [List.map_map]
    exact List.map_congr_left fun i at_ => toNat_ofNat (lt e mem i at_)
  obtain ⟨maxQ, maxK, batch⟩ := batch_of_scheduled h
  rw [batch]
  have none_or : es = [] ∨ es.isEmpty = false := by cases es <;> simp
  refine ⟨?_, ?_, ?_, ?_, ?_, ?_⟩
  · rcases none_or with rfl | some_
    · exact .inr ⟨rfl, rfl⟩
    · rw [batchOf, some_]
      exact .inl ((map_toNat_ofNat (offsets_small queries)).trans (by rw [chunksOf, List.map_map]; rfl))
  · rcases none_or with rfl | some_
    · exact .inr ⟨rfl, rfl⟩
    · rw [batchOf, some_]
      exact .inl ((map_toNat_ofNat (offsets_small stops)).trans (by rw [chunksOf, List.map_map]; rfl))
  · rw [batchOf_tokens_length, tokensOf_chunksOf, List.length_flatMap]
    simp only [List.length_map, Entry.positions_length]
  · rw [tokensOf_chunksOf, List.map_flatMap]
    refine (column (fun _ i => i) fun e mem i at_ => (small e mem i at_).1).trans ?_
    simp only [List.map_map, Function.comp_def]
  · rw [tokensOf_chunksOf, List.map_flatMap]
    refine (column (fun e i => e.slot base.cfg.blockSize i) fun e mem i at_ => (small e mem i at_).2).trans ?_
    refine List.flatMap_congr fun e mem => ?_
    rw [List.map_map]
    exact List.map_congr_left fun i _ => (slotOf_entry h mem i).symm
  · refine List.forall₂_map_left_iff.mpr (List.forall₂_map_right_iff.mpr (List.forall₂_same.mpr fun e mem => ⟨?_, ?_⟩))
    · rw [tableOf_entry h mem]
    · have covered := (h.covered e mem).blocks
      rwa [h.sound.setup.cfg] at covered

/-- What the batch's rows put in a memory of texts. -/
theorem forward_cells (cfg : s.cfg = base.cfg) (fits : Engine.Fits base) (n : Nat) (device : Memory (List Token)) :
    (Engine.forward texts t plan.rows device).cells n base.cfg.blockSize =
      Laying.after base.cfg.blockSize (tableOf t) (textOf t) (chunksOf es) (device.cells n base.cfg.blockSize) := by
  have each : ∀ (rows : List Row) (device : Memory (List Token)), (∀ row ∈ rows, ∃ e ∈ es, row.id = e.id) →
      (Engine.forward texts t rows device).cells n base.cfg.blockSize =
        setAll (device.cells n base.cfg.blockSize)
          (rows.map fun row => (row.slot, some (upTo (textOf t) (row.id, row.position)))) := by
    intro rows
    induction rows with
    | nil => exact fun _ _ => rfl
    | cons row rows ih =>
      intro device known
      obtain ⟨e, mem, same⟩ := known row List.mem_cons_self
      have live : t.seqs row.id = some e.seq := same ▸ h.current e mem
      have text : textOf t row.id = e.seq.tokens := same ▸ textOf_entry h mem
      have rest := ih (device.write base.cfg.blockSize row.slot (texts e.seq device row)) fun r later =>
        known r (List.mem_cons_of_mem row later)
      rw [Paged.cells_write fits.size] at rest
      rw [List.map_cons, setAll_cons, upTo, text]
      rw [Engine.forward, List.foldl_cons, live, h.sound.setup.cfg]
      dsimp only
      rw [Engine.forward, h.sound.setup.cfg] at rest
      exact rest
  rw [each plan.rows device, Laying.after, writes, chunksOf, h.rows cfg fits, List.map_flatMap, List.flatMap_map]
  · refine congrArg _ (List.flatMap_congr fun e mem => ?_)
    rw [List.map_map]
    exact List.map_congr_left fun i _ => congrArg (·, _) (slotOf_entry h mem i).symm
  · intro row mem
    rw [h.rows cfg fits] at mem
    obtain ⟨e, entry, mem⟩ := List.mem_flatMap.mp mem
    obtain ⟨i, -, rfl⟩ := List.mem_map.mp mem
    exact ⟨e, entry, rfl⟩

/-- Its batch lays out chunks of texts over a cache of as many blocks as the pool has, or more. -/
theorem laying_of_scheduled (cfg : s.cfg = base.cfg) (fits : Engine.Fits base) {n : Nat} (enough : base.pool.numBlocks ≤ n)
    (slots : n * base.cfg.blockSize < 2 ^ 32) {device : Memory (List Token)}
    (holds : ∀ e ∈ es, Paged.Holds (Engine.forward texts t plan.rows device) base.cfg.blockSize e.seq.blocks e.stop
      (e.seq.content fun _ ts => ts)) :
    Laying plan.batch n base.cfg.blockSize (tableOf t) (textOf t) (chunksOf es)
    (device.cells n base.cfg.blockSize) where
  lays := lays_of_scheduled h cfg fits
  blocks id block mem := by
    obtain ⟨extra, balanced⟩ := h.sound.balanced
    unfold tableOf at mem
    cases live : t.seqs id with
    | none => simp [live] at mem
    | some seq =>
      rw [live] at mem
      refine Nat.lt_of_lt_of_le ?_ enough
      rw [← h.sound.setup.shape.numBlocks]
      exact h.sound.wf.lt_of_pos (balanced.pos_refcount live mem)
  fits := slots
  size := Paged.cells_length
  inside c mem := by
    obtain ⟨e, entry, rfl⟩ := List.mem_map.mp mem
    rw [textOf_entry h entry]
    exact (h.covered e entry).tokens
  reads c mem p before := by
    obtain ⟨e, entry, rfl⟩ := List.mem_map.mp mem
    have held := holds e entry p before
    obtain ⟨block, here, is⟩ := Paged.lookup_some_page held
    have exists_ := h.isBlock e entry block (List.mem_of_getElem? here)
    have slot : e.slot base.cfg.blockSize p = block * base.cfg.blockSize + p % base.cfg.blockSize := by
      rw [Entry.slot, List.getD_eq_getElem?_getD, here]
      rfl
    have offset := Nat.mod_lt p fits.size
    have lt : block * base.cfg.blockSize + p % base.cfg.blockSize < n * base.cfg.blockSize :=
      ForwardBatch.row_lt fits.size (Nat.lt_of_lt_of_le exists_ enough)
    change (Laying.after _ _ _ _ _)[slotOf _ _ e.id p]? = _
    rw [← forward_cells h cfg fits, slotOf_entry h entry, slot, Paged.cells_at lt, Nat.add_comm,
      Nat.add_mul_div_right _ _ fits.size, Nat.div_eq_of_lt offset, Nat.zero_add, Nat.add_mul_mod_self_right,
      Nat.mod_mod, is, upTo, textOf_entry h entry]
    rfl

/-- The model can be fed it. -/
theorem feeds_of_scheduled {S : Type} {hidden kvHeads dim vocab : Nat} {d : Decoder S hidden kvHeads dim vocab}
    (cfg : s.cfg = base.cfg) (fits : Engine.Fits base) (positions : base.cfg.maxContext ≤ d.maxPositions)
    (known : ∀ id, ∀ token ∈ textOf t id, token.toNat < d.embed.length) :
    d.Feeds plan.batch (textOf t) (chunksOf es) (askedOf es) where
  tokens := by
    obtain ⟨maxQ, maxK, batch⟩ := batch_of_scheduled h
    rw [batch, batchOf, tokensOf_chunksOf, List.map_flatMap, List.map_flatMap]
    refine List.flatMap_congr fun e mem => ?_
    rw [List.map_map, List.map_map]
    refine List.map_congr_left fun i at_ => ?_
    have within := Nat.lt_of_lt_of_le (Entry.mem_positions.mp at_).2 (h.covered e mem).tokens
    rw [Function.comp_apply, Function.comp_apply, textOf_entry h mem, List.getD_eq_getElem?_getD,
      List.getElem?_eq_getElem within, Option.getD_some]
  vocabulary t' _ := known t'.1
  short t' mem := by
    rw [tokensOf_chunksOf] at mem
    obtain ⟨e, entry, mem⟩ := List.mem_flatMap.mp mem
    obtain ⟨i, -, rfl⟩ := List.mem_map.mp mem
    have ok := (h.sound.seqs e.id e.seq (h.current e entry)).running (h.running e entry)
    rw [h.sound.setup.cfg] at ok
    rw [textOf_entry h entry]
    exact Nat.le_trans ok.2.1 positions
  logits := by
    have positive : ∀ e ∈ es, 0 < e.q := fun e mem => (h.covered e mem).pos
    have sum := Nat.lt_of_le_of_lt (sum_q_le es) (h.stops cfg fits)
    obtain ⟨maxQ, maxK, batch⟩ := batch_of_scheduled h
    rw [← lastRows_tokens positive [], batch, batchOf, List.map_map]
    refine List.map_congr_left fun i mem => ?_
    have lt := lastRows_lt positive mem
    rw [Function.comp_apply, toNat_ofNat (by omega)]
    rfl

end Scheduled

end Vapi.Backend
