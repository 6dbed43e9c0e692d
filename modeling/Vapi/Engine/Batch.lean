import Vapi.Engine.Sequence
import Mathlib.Data.List.Sort

/-!
# Batches

One step's work in the shape a paged attention kernel wants, the checks of
`ForwardBatch::validate`, and the step plan around it.
-/

namespace Vapi.Engine

open Vapi.Cache (BlockId)

structure ForwardBatch where
  tokens : List Token := []
  positions : List UInt32 := []
  cuSeqlensQ : List UInt32 := []
  cuSeqlensK : List UInt32 := []
  slotMapping : List UInt32 := []
  blockTables : List (List BlockId) := []
  logitsIndices : List UInt32 := []
  maxSeqlenQ : Nat := 0
  maxSeqlenK : Nat := 0
  deriving DecidableEq, Repr

/-- Neighbouring pairs. -/
def windows {α : Type} (xs : List α) : List (α × α) := xs.zip xs.tail

namespace ForwardBatch

def batchSize (b : ForwardBatch) : Nat := b.cuSeqlensQ.length - 1

def isEmpty (b : ForwardBatch) : Bool := b.tokens.isEmpty

def ensure (ok : Bool) (message : String) : Except Error Unit :=
  if ok then .ok () else .error (.engine message)

/-- The first failure of a check over a list, if there is one. -/
def checkAll {α : Type} (check : α → Except Error Unit) : List α → Except Error Unit
  | [] => .ok ()
  | x :: xs => do check x; checkAll check xs

/-- The checks on sequence `i`: its keys cover its queries, its block table
covers its keys with blocks that exist, and its positions do not skip. -/
def validateSequence (b : ForwardBatch) (numBlocks blockSize i : Nat) : Except Error Unit := do
  let lo := b.cuSeqlensQ.getD i 0
  let q := (b.cuSeqlensQ.getD (i + 1) 0 - lo).toNat
  let k := (b.cuSeqlensK.getD (i + 1) 0 - b.cuSeqlensK.getD i 0).toNat
  let table := b.blockTables.getD i []
  let need := (k + blockSize - 1) / blockSize
  ensure (q ≤ k) (s!"sequence {i} has {q} query tokens but only {k} key tokens; " ++
    "a token cannot attend to fewer positions than it contributes")
  ensure (need ≤ table.length)
    s!"sequence {i} needs {need} blocks to cover {k} keys but its table has {table.length}"
  checkAll (fun block => ensure (block < numBlocks)
    s!"sequence {i} references block {block} of {numBlocks}") table
  checkAll (fun j => ensure (b.positions.getD j 0 = b.positions.getD (j - 1) 0 + 1)
      (s!"sequence {i} has non-contiguous positions at {j}: " ++
        s!"{b.positions.getD (j - 1) 0} then {b.positions.getD j 0}"))
    (List.range' (lo.toNat + 1) (q - 1))

/-- No two tokens may target the same cache slot, nor one past the end. -/
def validateSlots (b : ForwardBatch) (numBlocks blockSize : Nat) : Except Error Unit :=
  let slots := b.slotMapping.insertionSort (· ≤ ·)
  match (windows slots).find? (fun w => w.1 = w.2), slots.getLast? with
  | some w, _ => .error (.engine s!"two tokens both write KV cache slot {w.1}")
  | none, some s => ensure (s.toNat < numBlocks * blockSize) s!"slot {s} is past the end of the cache"
  | none, none => .ok ()

/-- Every structural invariant a paged attention kernel relies on. -/
def validate (b : ForwardBatch) (numBlocks blockSize : Nat) : Except Error Unit := do
  ensure (b.tokens.length = b.positions.length)
    s!"tokens ({b.tokens.length}) and positions ({b.positions.length}) disagree"
  ensure (b.tokens.length = b.slotMapping.length)
    s!"tokens ({b.tokens.length}) and slot_mapping ({b.slotMapping.length}) disagree"
  ensure (b.cuSeqlensQ.length = b.cuSeqlensK.length)
    "cu_seqlens_q and cu_seqlens_k differ in length"
  ensure (b.cuSeqlensQ.head? = some 0 ∨ b.cuSeqlensQ = []) "cumulative lengths must start at 0"
  ensure (b.blockTables.length = b.batchSize)
    s!"{b.blockTables.length} block tables for {b.batchSize} sequences"
  checkAll (fun w => ensure (w.1 ≤ w.2) "cu_seqlens_q is not monotonic") (windows b.cuSeqlensQ)
  checkAll (fun w => ensure (w.1 ≤ w.2) "cu_seqlens_k is not monotonic") (windows b.cuSeqlensK)
  checkAll (fun last => ensure (last.toNat = b.tokens.length)
    s!"cu_seqlens_q ends at {last} but there are {b.tokens.length} tokens")
    b.cuSeqlensQ.getLast?.toList
  checkAll (b.validateSequence numBlocks blockSize) (List.range b.batchSize)
  b.validateSlots numBlocks blockSize
  checkAll (fun i => ensure (i.toNat < b.tokens.length)
    s!"logits index {i} is past the end of the batch") b.logitsIndices

/-- Append one sequence's contribution: `q` tokens from position `start`. A
position outside its tokens or blocks is an index out of range. -/
def pushSeq (b : ForwardBatch) (seq : Sequence) (q blockSize : Nat) : Option ForwardBatch := do
  let start := seq.numComputed
  let tokens ← (List.range' start q).mapM fun i => seq.tokens[i]?
  let slots ← (List.range' start q).mapM fun i => do
    let block ← seq.blocks[i / blockSize]?
    some (UInt32.ofNat (block * blockSize + i % blockSize))
  let cuQ := if b.cuSeqlensQ.isEmpty then [0] else b.cuSeqlensQ
  let cuK := if b.cuSeqlensQ.isEmpty then [0] else b.cuSeqlensK
  let prevQ ← cuQ.getLast?
  let prevK ← cuK.getLast?
  let all := b.tokens ++ tokens
  some { b with
    tokens := all
    positions := b.positions ++ (List.range' start q).map UInt32.ofNat
    cuSeqlensQ := cuQ ++ [prevQ + UInt32.ofNat q]
    -- keys include everything cached plus what is being computed now
    cuSeqlensK := cuK ++ [prevK + UInt32.ofNat (start + q)]
    slotMapping := b.slotMapping ++ slots
    blockTables := b.blockTables ++ [seq.blocks]
    logitsIndices :=
      if seq.totalLen ≤ start + q then b.logitsIndices ++ [UInt32.ofNat (all.length - 1)]
      else b.logitsIndices }

/-- The longest stretch between neighbouring cumulative lengths. -/
def longest (cu : List UInt32) : Nat :=
  ((windows cu).map fun w => (w.2 - w.1).toNat).foldl max 0

end ForwardBatch

/-- One step's worth of work, plus what the scheduler decided along the way. -/
structure StepPlan where
  batch : ForwardBatch := {}
  /-- The sequence behind each batch slot. -/
  batchSeqs : List SeqId := []
  /-- The sequence behind each entry of `batch.logitsIndices`. -/
  sampledSeqs : List SeqId := []
  preempted : List SeqId := []
  started : List (SeqId × Nat) := []
  deriving DecidableEq, Repr

namespace StepPlan

def isEmpty (plan : StepPlan) : Bool := plan.batch.isEmpty

def pushSeq (plan : StepPlan) (id : SeqId) (seq : Sequence) (q blockSize : Nat) :
    Option StepPlan := do
  let batch ← plan.batch.pushSeq seq q blockSize
  some { plan with
    batch
    batchSeqs := plan.batchSeqs ++ [id]
    sampledSeqs :=
      if seq.totalLen ≤ seq.numComputed + q then plan.sampledSeqs ++ [id] else plan.sampledSeqs }

def preempt (plan : StepPlan) (id : SeqId) : StepPlan :=
  { plan with preempted := plan.preempted ++ [id] }

def start (plan : StepPlan) (id : SeqId) (cachedTokens : Nat) : StepPlan :=
  { plan with started := plan.started ++ [(id, cachedTokens)] }

/-- The plan with its batch's longest query and key lengths filled in. -/
def measured (plan : StepPlan) : StepPlan :=
  { plan with
    batch := { plan.batch with
      maxSeqlenQ := ForwardBatch.longest plan.batch.cuSeqlensQ
      maxSeqlenK := ForwardBatch.longest plan.batch.cuSeqlensK } }

end StepPlan

end Vapi.Engine
