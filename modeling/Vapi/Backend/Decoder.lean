import Vapi.Backend.PagedAttention
import Vapi.Backend.ShortConv
import Vapi.Backend.Experts

/-!
# Decoders over the paged cache

The forward pass that the text models of `vapi-backend-candle/src/models` share:
a token's embedding goes through the blocks, each of which mixes it with what its
layer's cache has of the tokens before, and the rows asked for become logits.
Numbers are exact.
-/

namespace Vapi.Backend

open Vapi.Engine Vapi.Cache

/-- The functions of a number that the decoders use. -/
structure Numerics (S : Type) [Zero S] [LT S] extends Scalars S where
  sqrt : S → S
  cos : S → S
  sin : S → S
  act : Activations S

/-- `Cache.k[layer]` and `cache.v[layer]`: what a layer stores for a token, as its `LayerLayout` says. -/
inductive LayerBuffers (S : Type) (hidden kvHeads dim : Nat)
  | kv (layer : KvLayer S kvHeads dim)
  | rows (cells : List (HiddenRow S hidden))

variable {S : Type} {hidden kvHeads dim : Nat}

/-- An attention layer: what a token at a position is projected to, and what becomes of its heads' rows. -/
structure Attention (S : Type) (hidden kvHeads dim : Nat) where
  heads : Nat
  project : Nat → HiddenRow S hidden → Projected S heads kvHeads dim
  slidingWindow : Option Nat := none
  /-- The rows are written by an index built for the step, not by the slot mapping itself. -/
  indexed : Bool := false
  output : HiddenRow S hidden → HeadVectors S heads dim → HiddenRow S hidden
  /-- Loading runs a step, which fails for heads that cannot be shared out. -/
  grouped : 0 < kvHeads ∧ kvHeads ∣ heads

inductive Operator (S : Type) (hidden kvHeads dim : Nat)
  | attention (attn : Attention S hidden kvHeads dim)
  | conv (conv : ShortConv S (HiddenRow S hidden) hidden)

/-- A feed-forward, of experts or of one. Loading runs a step, which fails for fewer experts than a token has. -/
inductive FeedForward (S : Type) (hidden : Nat)
  | dense (mlp : HiddenRow S hidden → HiddenRow S hidden)
  | sparse (moe : MoeBlock S (Expert S hidden) hidden) (enough : moe.topK ≤ moe.router.length)

structure Block (S : Type) (hidden kvHeads dim : Nat) where
  operatorNorm : HiddenRow S hidden → HiddenRow S hidden
  operator : Operator S hidden kvHeads dim
  ffnNorm : HiddenRow S hidden → HiddenRow S hidden
  feedForward : FeedForward S hidden

structure Decoder (S : Type) (hidden kvHeads dim vocab : Nat) where
  embed : List (HiddenRow S hidden)
  /-- How many rows the rotary tables have. -/
  maxPositions : Nat
  blocks : List (Block S hidden kvHeads dim)
  norm : HiddenRow S hidden → HiddenRow S hidden
  lmHead : HiddenRow S hidden → Fin vocab → S
  convKernel : Nat := 0
  /-- The convolutions are all of one kernel, and loading runs a step, which fails for one of no taps. -/
  kernels : ∀ block ∈ blocks, ∀ conv, block.operator = .conv conv → conv.taps.length = convKernel ∧ conv.taps ≠ []

/-- What the layers of a step have of its batch. -/
structure StepContext (S : Type) (hidden : Nat) where
  batch : ForwardBatch
  numBlocks : Nat
  blockSize : Nat
  /-- Which row of the rotary tables each token has. -/
  positions : List Nat
  conv : Lfm2Inputs S hidden

/-- `scatter_rows` at the slots of a prebuilt index. -/
def writeRowsIndexed {V : Type} (cells src : List V) (slots : List UInt32) : Except String (List V) :=
  if src.length ≠ slots.length then .error "scatter index does not match rows" else scatterSet cells (slots.zip src)

section Forward

variable [Field S] [LinearOrder S] (f : Numerics S)

def Attention.forward (a : Attention S hidden kvHeads dim) (ctx : StepContext S hidden) (x : List (HiddenRow S hidden))
    (cache : KvLayer S kvHeads dim) : Except String (List (HiddenRow S hidden) × KvLayer S kvHeads dim) := do
  let tokens := List.zipWith a.project ctx.positions x
  let write := if a.indexed then writeRowsIndexed else writeRows
  let k ← write cache.1 (tokens.map Projected.k) ctx.batch.slotMapping
  let v ← write cache.2 (tokens.map Projected.v) ctx.batch.slotMapping
  let scale := 1 / f.sqrt dim
  let y ← pagedAttentionCpu f.toScalars scale a.slidingWindow ctx.numBlocks ctx.blockSize
    (tokens.map Projected.q) k v ctx.batch
  return (List.zipWith a.output x y, k, v)

def Operator.forward (operator : Operator S hidden kvHeads dim) (ctx : StepContext S hidden)
    (x : List (HiddenRow S hidden)) (cache : LayerBuffers S hidden kvHeads dim) :
    Except String (List (HiddenRow S hidden) × LayerBuffers S hidden kvHeads dim) :=
  match operator, cache with
  | .attention a, .kv layer => do
    let (y, layer) ← a.forward f ctx x layer
    return (y, .kv layer)
  | .conv c, .rows cells => do
    let (y, cells) ← c.forward x ctx.conv cells
    return (y, .rows cells)
  | _, _ => .error "shape mismatch in reshape"

def FeedForward.forward (ff : FeedForward S hidden) (x : List (HiddenRow S hidden)) :
    Except String (List (HiddenRow S hidden)) :=
  match ff with
  | .dense mlp => .ok (x.map mlp)
  | .sparse moe _ => moe.forward f.act (Expert.forward f.act) x

def Block.forward (b : Block S hidden kvHeads dim) (ctx : StepContext S hidden) (x : List (HiddenRow S hidden))
    (cache : LayerBuffers S hidden kvHeads dim) :
    Except String (List (HiddenRow S hidden) × LayerBuffers S hidden kvHeads dim) := do
  let (h, cache) ← b.operator.forward f ctx (x.map b.operatorNorm) cache
  let x := List.zipWith (· + ·) x h
  let h ← b.feedForward.forward f (x.map b.ffnNorm)
  return (List.zipWith (· + ·) x h, cache)

/-- The blocks in turn, each over its own layer of the cache. -/
def forwardBlocks (ctx : StepContext S hidden) : List (Block S hidden kvHeads dim) → List (HiddenRow S hidden) →
    List (LayerBuffers S hidden kvHeads dim) →
    Except String (List (HiddenRow S hidden) × List (LayerBuffers S hidden kvHeads dim))
  | [], x, caches => .ok (x, caches)
  | _ :: _, _, [] => .error "index out of bounds"
  | b :: blocks, x, cache :: caches => do
    let (x, cache) ← b.forward f ctx x cache
    let (x, caches) ← forwardBlocks ctx blocks x caches
    return (x, cache :: caches)

namespace Decoder

variable {vocab : Nat} (d : Decoder S hidden kvHeads dim vocab)

/-- `index_select` on the rotary tables. -/
def position (p : UInt32) : Except String Nat :=
    if p.toNat < d.maxPositions then .ok p.toNat else .error "index out of range"

/-- Logits for the rows asked for, if there are any; what the tokens leave in the cache is there either way. -/
def forward (numBlocks blockSize : Nat) (batch : ForwardBatch) (caches : List (LayerBuffers S hidden kvHeads dim)) :
    Except String (Option (List (Fin vocab → S)) × List (LayerBuffers S hidden kvHeads dim)) := do
  let conv ← prepare S hidden false d.convKernel batch blockSize
  let positions ← batch.positions.mapM d.position
  let x ← gather d.embed (batch.tokens.map UInt32.toNat)
  let (x, caches) ← forwardBlocks f ⟨batch, numBlocks, blockSize, positions, conv⟩ d.blocks x caches
  if batch.logitsIndices = [] then return (none, caches)
  let x ← gather (x.map d.norm) (batch.logitsIndices.map UInt32.toNat)
  return (some (x.map d.lmHead), caches)

/-- Step after step. -/
def run (numBlocks blockSize : Nat) : List ForwardBatch → List (LayerBuffers S hidden kvHeads dim) →
    Except String (List (Option (List (Fin vocab → S))) × List (LayerBuffers S hidden kvHeads dim))
  | [], caches => .ok ([], caches)
  | batch :: rest, caches => do
    let (now, caches) ← d.forward f numBlocks blockSize batch caches
    let (later, caches) ← run numBlocks blockSize rest caches
    return (now :: later, caches)

end Decoder

end Forward

end Vapi.Backend
