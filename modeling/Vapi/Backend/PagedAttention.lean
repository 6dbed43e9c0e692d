import Vapi.Backend.Steps
import Mathlib.Algebra.BigOperators.Ring.Finset

/-!
# Paged attention

`vapi-backend-candle/src/attention.rs`: the reference path. A step's keys and
values are written to their slots, and each sequence's queries attend over its
keys and values gathered through its block table. Numbers are exact.
-/

namespace Vapi.Backend

open Vapi.Engine Vapi.Cache Slots

/-- `Tensor::narrow` on the rows. -/
def narrow {α : Type} (rows : List α) (start len : Nat) : Except String (List α) :=
  if start + len ≤ rows.length then .ok ((rows.drop start).take len) else .error "narrow out of range"

variable {S : Type} {heads kvHeads dim : Nat}

/-- A difference of 64-bit numbers, which wraps. -/
def subUsize (a b : Nat) : Nat := (a + 2 ^ 64 - b) % 2 ^ 64

/-- `repeat_kv`: each key head serves `nRep` query heads in a row. -/
def repeatKv (nRep : Nat) (row : HeadVectors S kvHeads dim) : HeadVectors S (kvHeads * nRep) dim := fun head =>
  row ⟨head / nRep, Nat.div_lt_of_lt_mul (Nat.mul_comm kvHeads nRep ▸ head.isLt)⟩

/-- The keys that the query at a position does not see. -/
def masked (slidingWindow : Option Nat) (p k : Nat) : Bool :=
  let tooOld := slidingWindow.any fun w => k < p && w ≤ p - k
  p < k || tooOld

section Attention

variable [Field S] [LinearOrder S] (m : Scalars S) (softmaxScale : S) (slidingWindow : Option Nat) (numBlocks blockSize : Nat)

/-- One query over the gathered rows. -/
def attend (q : HeadVectors S heads dim) (k v : List (HeadVectors S heads dim)) (p : Nat) : HeadVectors S heads dim :=
  fun head c =>
    let att := k.mapIdx fun j kj =>
      if masked slidingWindow p j then none else some ((∑ e, q head e * kj head e) * softmaxScale)
    (List.zipWith (fun w vj => w * vj head c) (softmax m att) v).sum

/-- One sequence's queries, over as many keys as it has. -/
def attendQueries (q : List (HeadVectors S heads dim)) (kCache vCache : List (HeadVectors S kvHeads dim))
    (b : ForwardBatch) (nRep i q0 lenQ lenK : Nat) : Except String (List (HeadVectors S heads dim)) := do
  if lenQ = 0 then return []
  let table ← entry b.blockTables i
  let qi ← narrow q q0 lenQ
  let ki ← gatherKv numBlocks blockSize kCache table lenK
  let vi ← gatherKv numBlocks blockSize vCache table lenK
  if same : heads = kvHeads * nRep then
    let ki := ki.map fun row head => repeatKv nRep row (Fin.cast same head)
    let vi := vi.map fun row head => repeatKv nRep row (Fin.cast same head)
    let offset := subUsize lenK lenQ
    return qi.mapIdx fun j qj => attend m softmaxScale slidingWindow qj ki vi ((offset + j) % 2 ^ 64)
  else .error "shape mismatch in matmul"

def attendSequence (q : List (HeadVectors S heads dim)) (kCache vCache : List (HeadVectors S kvHeads dim))
    (b : ForwardBatch) (nRep i : Nat) : Except String (List (HeadVectors S heads dim)) := do
  let q0 ← entry b.cuSeqlensQ i
  let q1 ← entry b.cuSeqlensQ (i + 1)
  let k1 ← entry b.cuSeqlensK (i + 1)
  let k0 ← entry b.cuSeqlensK i
  attendQueries m softmaxScale slidingWindow numBlocks blockSize q kCache vCache b nRep i q0.toNat
    (subUsize q1.toNat q0.toNat) (k1 - k0).toNat

def pagedAttentionCpu (q : List (HeadVectors S heads dim)) (kCache vCache : List (HeadVectors S kvHeads dim))
    (b : ForwardBatch) : Except String (List (HeadVectors S heads dim)) := do
  if kvHeads = 0 then .error "attempt to divide by zero"
  let nRep := heads / kvHeads
  let outs ← (List.range b.batchSize).mapM
    (attendSequence m softmaxScale slidingWindow numBlocks blockSize q kCache vCache b nRep)
  return outs.flatten

/-- What a layer's attention is given for a token. -/
structure Projected (S : Type) (heads kvHeads dim : Nat) where
  q : HeadVectors S heads dim
  k : HeadVectors S kvHeads dim
  v : HeadVectors S kvHeads dim

/-- A layer's keys and values. -/
abbrev KvLayer (S : Type) (kvHeads dim : Nat) := List (HeadVectors S kvHeads dim) × List (HeadVectors S kvHeads dim)

/-- `write_kv_to_cache` on the layer, and then its attention. -/
def attentionStep (x : List (Projected S heads kvHeads dim)) (b : ForwardBatch) (cache : KvLayer S kvHeads dim) :
    Except String (List (HeadVectors S heads dim) × KvLayer S kvHeads dim) := do
  let k ← writeRows cache.1 (x.map Projected.k) b.slotMapping
  let v ← writeRows cache.2 (x.map Projected.v) b.slotMapping
  let y ← pagedAttentionCpu m softmaxScale slidingWindow numBlocks blockSize (x.map Projected.q) k v b
  return (y, k, v)

/-- Step after step, each with its own chunks, over what the sequences have at their positions. -/
def attentionRun {ι : Type} (x : ι → Nat → Projected S heads kvHeads dim) :
    List (List (Chunk ι) × ForwardBatch) → KvLayer S kvHeads dim →
      Except String (List (List (HeadVectors S heads dim)) × KvLayer S kvHeads dim)
  | [], cache => .ok ([], cache)
  | s :: rest, cache => do
    let now ← attentionStep m softmaxScale slidingWindow numBlocks blockSize ((tokensOf s.1).map fun t => x t.1 t.2) s.2 cache
    let later ← attentionRun x rest now.2
    return (now.1 :: later.1, later.2)

end Attention

end Vapi.Backend
