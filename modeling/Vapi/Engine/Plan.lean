import Vapi.Engine.Pass
import Vapi.Lib.Ragged

/-!
# What a plan says

The batch of a plan in closed form: the sequences batched, as they were when
they were batched, and how many tokens each contributes.
-/

namespace Vapi.Engine

open Vapi.Cache
open Ragged (offsets)

/-- A sequence and how many of its tokens are batched. -/
structure Entry where
  id : SeqId
  seq : Sequence
  q : Nat

namespace Entry

def start (e : Entry) : Nat := e.seq.numComputed

def stop (e : Entry) : Nat := e.seq.numComputed + e.q

def positions (e : Entry) : List Nat := List.range' e.start e.q

/-- Where position `i` lies in the cache. -/
def slot (bs : Nat) (e : Entry) (i : Nat) : Nat := e.seq.blocks.getD (i / bs) 0 * bs + i % bs

/-- The last known token is among those batched, so the next is sampled. -/
def samples (e : Entry) : Bool := e.seq.totalLen ≤ e.stop

/-- The positions batched have a token and a block each. -/
structure Covered (e : Entry) (bs : Nat) : Prop where
  pos : 0 < e.q
  tokens : e.stop ≤ e.seq.tokens.length
  blocks : e.stop ≤ e.seq.blocks.length * bs

/-- A chunk of known text, or one token to decode. -/
structure Limited (cfg : SchedulerConfig) (e : Entry) : Prop where
  prefill : e.seq.needsPrefill = true → e.q ≤ cfg.prefillChunkTokens
  decode : e.seq.needsPrefill = false → e.q = 1

@[simp] theorem positions_length (e : Entry) : e.positions.length = e.q := List.length_range'

theorem mem_positions {e : Entry} {i : Nat} : i ∈ e.positions ↔ e.start ≤ i ∧ i < e.stop :=
  List.mem_range'_1

end Entry

/-- The rows, from row `n` on, of the sequences to sample. -/
def lastRows : Nat → List Entry → List Nat
  | _, [] => []
  | n, e :: es => (if e.samples then [n + e.q - 1] else []) ++ lastRows (n + e.q) es

/-- The batch that a list of entries makes. -/
def batchOf (bs : Nat) (es : List Entry) : ForwardBatch where
  tokens := es.flatMap fun e => e.positions.map fun i => e.seq.tokens.getD i 0
  positions := es.flatMap fun e => e.positions.map UInt32.ofNat
  cuSeqlensQ := if es.isEmpty then [] else (offsets 0 (es.map Entry.q)).map UInt32.ofNat
  cuSeqlensK := if es.isEmpty then [] else (offsets 0 (es.map Entry.stop)).map UInt32.ofNat
  slotMapping := es.flatMap fun e => e.positions.map fun i => UInt32.ofNat (e.slot bs i)
  blockTables := es.map fun e => e.seq.blocks
  logitsIndices := (lastRows 0 es).map UInt32.ofNat

theorem lastRows_append (n : Nat) (es : List Entry) (e : Entry) :
    lastRows n (es ++ [e]) =
      lastRows n es ++ if e.samples then [n + (es.map Entry.q).sum + e.q - 1] else [] := by
  induction es generalizing n with
  | nil => simp [lastRows]
  | cons x es ih => simp [lastRows, ih, Nat.add_assoc]

/-- Each sampled row is the last of its sequence's rows. -/
theorem lastRows_lt {n r : Nat} {es : List Entry} (pos : ∀ e ∈ es, 0 < e.q) (h : r ∈ lastRows n es) :
    r < n + (es.map Entry.q).sum := by
  induction es generalizing n with
  | nil => simp [lastRows] at h
  | cons e es ih =>
    have := pos e (by simp)
    rw [List.map_cons, List.sum_cons]
    rw [lastRows, List.mem_append] at h
    rcases h with h | h
    · split at h
      · rw [List.mem_singleton.mp h]
        omega
      · simp at h
    · have := ih (fun x hx => pos x (by simp [hx])) h
      omega

theorem batchOf_tokens_length (bs : Nat) (es : List Entry) :
    (batchOf bs es).tokens.length = (es.map Entry.q).sum := by
  simp [batchOf, List.length_flatMap]

section Push

variable {α β : Type}

theorem mapM_of_forall {f : α → Option β} {g : α → β} {l : List α} (h : ∀ x ∈ l, f x = some (g x)) :
    l.mapM f = some (l.map g) := by
  induction l with
  | nil => rfl
  | cons x l ih =>
    rw [List.mapM_cons, h x (by simp), ih fun y hy => h y (by simp [hy])]
    rfl

theorem forall_of_mapM {f : α → Option β} {l : List α} {ys : List β} (h : l.mapM f = some ys) :
    ∀ x ∈ l, (f x).isSome := by
  induction l generalizing ys with
  | nil => simp
  | cons x l ih =>
    rw [List.mapM_cons] at h
    obtain ⟨y, hx, h⟩ := bind_some h
    obtain ⟨ys, hl, -⟩ := bind_some h
    intro z hz
    rcases List.mem_cons.mp hz with rfl | hz
    · simp [hx]
    · exact ih hl z hz

/-- A push that goes through covers its positions. -/
theorem covered_of_pushSeq {b b' : ForwardBatch} {e : Entry} {bs : Nat} (size : 0 < bs)
    (pos : 0 < e.q) (h : b.pushSeq e.seq e.q bs = some b') : e.Covered bs := by
  obtain ⟨tokens, ht, h⟩ := bind_some h
  obtain ⟨slots, hs, -⟩ := bind_some h
  have last : e.stop - 1 ∈ List.range' e.seq.numComputed e.q :=
    List.mem_range'_1.mpr ⟨by unfold Entry.stop; omega, by unfold Entry.stop; omega⟩
  have token := forall_of_mapM ht _ last
  have block := forall_of_mapM hs _ last
  rw [Option.isSome_iff_exists] at token block
  obtain ⟨_, token⟩ := token
  obtain ⟨_, block⟩ := block
  obtain ⟨_, block, -⟩ := bind_some block
  have token := (List.getElem?_eq_some_iff.mp token).1
  have block := (List.getElem?_eq_some_iff.mp block).1
  refine ⟨pos, by omega, ?_⟩
  have := (Nat.div_lt_iff_lt_mul size).mp block
  omega

/-- Pushing a covered sequence adds its entry. -/
theorem pushSeq_batchOf {e : Entry} {bs : Nat} (es : List Entry) (size : 0 < bs)
    (c : e.Covered bs) :
    (batchOf bs es).pushSeq e.seq e.q bs = some (batchOf bs (es ++ [e])) := by
  have tokens : (List.range' e.seq.numComputed e.q).mapM (fun i => e.seq.tokens[i]?) =
      some (e.positions.map fun i => e.seq.tokens.getD i 0) := by
    refine mapM_of_forall fun i hi => ?_
    have lt : i < e.seq.tokens.length := Nat.lt_of_lt_of_le (Entry.mem_positions.mp hi).2 c.tokens
    rw [List.getD_eq_getElem?_getD, List.getElem?_eq_getElem lt, Option.getD_some]
  have slots : (List.range' e.seq.numComputed e.q).mapM (fun i => do
      let block ← e.seq.blocks[i / bs]?
      some (UInt32.ofNat (block * bs + i % bs))) =
      some (e.positions.map fun i => UInt32.ofNat (e.slot bs i)) := by
    refine mapM_of_forall fun i hi => ?_
    have lt : i / bs < e.seq.blocks.length := (Nat.div_lt_iff_lt_mul size).mpr
      (Nat.lt_of_lt_of_le (Entry.mem_positions.mp hi).2 c.blocks)
    rw [Entry.slot, List.getD_eq_getElem?_getD, List.getElem?_eq_getElem lt]
    rfl
  have lastQ : (if (batchOf bs es).cuSeqlensQ.isEmpty then [0] else (batchOf bs es).cuSeqlensQ) =
      (offsets 0 (es.map Entry.q)).map UInt32.ofNat := by
    cases es <;> rfl
  have lastK : (if (batchOf bs es).cuSeqlensQ.isEmpty then [0] else (batchOf bs es).cuSeqlensK) =
      (offsets 0 (es.map Entry.stop)).map UInt32.ofNat := by
    cases es <;> rfl
  have rows : ((batchOf bs es).tokens ++ e.positions.map fun i => e.seq.tokens.getD i 0).length - 1 =
      0 + (es.map Entry.q).sum + e.q - 1 := by
    simp [batchOf_tokens_length]
  unfold ForwardBatch.pushSeq
  simp only [tokens, slots, lastQ, lastK, List.getLast?_map, Ragged.offsets_getLast?, Option.map_some]
  simp only [Option.bind_eq_bind, Option.bind_some, rows]
  have more : (es ++ [e]).isEmpty = false := by cases es <;> rfl
  simp only [batchOf, more, List.flatMap_append, List.flatMap_cons, List.flatMap_nil, List.append_nil,
    List.map_append, List.map_cons, List.map_nil, Bool.false_eq_true, if_false,
    Ragged.offsets_append, lastRows_append, UInt32.ofNat_add]
  by_cases sampled : e.seq.totalLen ≤ e.seq.numComputed + e.q <;>
    simp [Entry.samples, Entry.stop, Entry.positions, Entry.start, sampled, UInt32.ofNat_add]

end Push

variable {H : Type} {B : Blake3 H}

/-- The plan is that of these entries, which the scheduler has unchanged. -/
structure PlanFor (s : Scheduler B) (plan : StepPlan) (es : List Entry) : Prop where
  batch : plan.batch = batchOf s.cfg.blockSize es
  batchSeqs : plan.batchSeqs = es.map Entry.id
  sampledSeqs : plan.sampledSeqs = (es.filter Entry.samples).map Entry.id
  covered : ∀ e ∈ es, e.Covered s.cfg.blockSize
  current : ∀ e ∈ es, s.seqs e.id = some e.seq
  nodup : (es.map Entry.id).Nodup

section Steps

variable [DecidableEq H] {p p' : Pass B} {es : List Entry}

omit [DecidableEq H] in
theorem Chunk.limited {seq : Sequence} {q : Nat} (chunk : Chunk p seq q) (id : SeqId) (blocks : List BlockId) :
    Entry.Limited p.scheduler.cfg ⟨id, seq.withBlocks blocks, q⟩ := by
  obtain ⟨pos, -, decode | prefill⟩ := chunk
  · exact ⟨fun more => absurd (decode.1.symm.trans more) (by simp), fun _ => decode.2⟩
  · refine ⟨fun _ => ?_, fun none => ?_⟩
    · change q ≤ _
      omega
    · change seq.needsPrefill = false at none
      have none : seq.remainingPrefill = 0 := by simpa [Sequence.needsPrefill] using none
      omega

/-- A pass step adds an entry or leaves the entries as they are, and takes
from the budget what it adds. -/
theorem passStep_planFor (h : PassStep p p') (size : 0 < p.scheduler.cfg.blockSize)
    (q : Queued p.scheduler) (b : Batched p) (plan : PlanFor p.scheduler p.plan es) :
    ∃ es', PlanFor p'.scheduler p'.plan es' ∧
      (es'.map Entry.q).sum + p'.budget = (es.map Entry.q).sum + p.budget ∧
      ∀ e ∈ es', e ∈ es ∨ e.Limited p.scheduler.cfg := by
  have apart : ∀ {id : SeqId}, id ∉ p.plan.batchSeqs → ∀ e ∈ es, e.id ≠ id := by
    intro id new e he same
    exact new (plan.batchSeqs ▸ same ▸ List.mem_map_of_mem he)
  have waits : ∀ {id : SeqId}, id ∈ p.scheduler.waiting → id ∉ p.plan.batchSeqs :=
    fun hw hb => q.running_not_waiting (b _ hb) hw
  cases h with
  | @batch id seq n pool taken plan' run new live chunk took pushed =>
    obtain ⟨batch, added, eq⟩ := bind_some pushed
    obtain rfl := Option.some.inj eq
    rw [plan.batch] at added
    have c : Entry.Covered ⟨id, seq.withBlocks (seq.blocks ++ taken), n⟩ p.scheduler.cfg.blockSize :=
      covered_of_pushSeq size chunk.1 added
    have same := pushSeq_batchOf es size c
    refine ⟨es ++ [⟨id, seq.withBlocks (seq.blocks ++ taken), n⟩], ⟨?_, ?_, ?_, ?_, ?_, ?_⟩, ?_, fun e he => ?_⟩
    · exact Option.some.inj (added.symm.trans same)
    · simp [plan.batchSeqs]
    · simp only [plan.sampledSeqs, List.filter_append, List.map_append]
      by_cases samples : seq.totalLen ≤ seq.numComputed + n
      · have : Entry.samples ⟨id, seq.withBlocks (seq.blocks ++ taken), n⟩ = true := by
          simpa [Entry.samples, Entry.stop, Sequence.totalLen] using samples
        simpa [this, Sequence.totalLen] using samples
      · have : Entry.samples ⟨id, seq.withBlocks (seq.blocks ++ taken), n⟩ = false := by
          simpa [Entry.samples, Entry.stop, Sequence.totalLen] using samples
        simpa [this, Sequence.totalLen] using samples
    · intro e he
      rcases List.mem_append.mp he with he | he
      · exact plan.covered e he
      · exact List.mem_singleton.mp he ▸ c
    · intro e he
      rcases List.mem_append.mp he with he | he
      · exact (Function.update_of_ne (apart new e he) ..).trans (plan.current e he)
      · rw [List.mem_singleton.mp he]
        exact Function.update_self ..
    · rw [List.map_append, List.nodup_append]
      refine ⟨plan.nodup, by simp, fun x hx y hy => ?_⟩
      obtain ⟨e, he, rfl⟩ := List.mem_map.mp hx
      simp only [List.map_cons, List.map_nil, List.mem_singleton] at hy
      exact hy ▸ apart new e he
    · have := chunk.2.1
      simp only [List.map_append, List.map_cons, List.map_nil, List.sum_append, List.sum_cons,
        List.sum_nil]
      omega
    · refine (List.mem_append.mp he).imp_right fun new => ?_
      rw [List.mem_singleton.mp new]
      exact chunk.limited id _
  | preempt run new live chunk took =>
    refine ⟨es, ⟨plan.batch, plan.batchSeqs, plan.sampledSeqs, plan.covered, fun e he => ?_,
      plan.nodup⟩, rfl, fun e => .inl⟩
    exact (Function.update_of_ne (apart new e he) ..).trans (plan.current e he)
  | @start id rest seq found pool matched taken cached head live budget room hit fits took =>
    refine ⟨es, ⟨plan.batch, plan.batchSeqs, plan.sampledSeqs, plan.covered, fun e he => ?_,
      plan.nodup⟩, rfl, fun e => .inl⟩
    have new := waits (show id ∈ _ by simp [head])
    exact (Function.update_of_ne (apart new e he) ..).trans (plan.current e he)
  | refuse head live hit took =>
    exact ⟨es, ⟨plan.batch, plan.batchSeqs, plan.sampledSeqs, plan.covered, plan.current,
      plan.nodup⟩, rfl, fun e => .inl⟩

theorem passStep_cfg (h : PassStep p p') : p'.scheduler.cfg = p.scheduler.cfg := by
  cases h <;> rfl

theorem passSteps_planFor (h : PassSteps p p') (size : 0 < p.scheduler.cfg.blockSize)
    (q : Queued p.scheduler) (b : Batched p) (plan : PlanFor p.scheduler p.plan es) :
    ∃ es', PlanFor p'.scheduler p'.plan es' ∧
      (es'.map Entry.q).sum + p'.budget = (es.map Entry.q).sum + p.budget ∧
      ∀ e ∈ es', e ∈ es ∨ e.Limited p.scheduler.cfg := by
  have all : Queued p'.scheduler ∧ Batched p' ∧ p'.scheduler.cfg = p.scheduler.cfg ∧
      ∃ es', PlanFor p'.scheduler p'.plan es' ∧
        (es'.map Entry.q).sum + p'.budget = (es.map Entry.q).sum + p.budget ∧
        ∀ e ∈ es', e ∈ es ∨ e.Limited p.scheduler.cfg := by
    induction h with
    | refl => exact ⟨q, b, rfl, es, plan, rfl, fun e => .inl⟩
    | tail _ step ih =>
      obtain ⟨q₁, b₁, cfg₁, es₁, plan₁, sum₁, limited₁⟩ := ih
      obtain ⟨es₂, plan₂, sum₂, limited₂⟩ := passStep_planFor step (cfg₁ ▸ size) q₁ b₁ plan₁
      refine ⟨passStep_queued step q₁, passStep_batched step b₁, (passStep_cfg step).trans cfg₁, es₂, plan₂,
        sum₂.trans sum₁, fun e he => ?_⟩
      rcases limited₂ e he with old | new
      · exact limited₁ e old
      · exact .inr (cfg₁ ▸ new)
  exact all.2.2.2

end Steps

end Vapi.Engine
