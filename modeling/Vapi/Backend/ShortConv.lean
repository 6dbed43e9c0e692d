import Vapi.Backend.Steps

/-!
# The short convolution

`vapi-backend-candle/src/models/lfm2.rs`: a token's gated input is written to
its slot, and the rows before it are read from the cache through the block
table, one tap at a time for the whole batch. Numbers are exact; the
projections of one token are functions.
-/

namespace Vapi.Backend

open Vapi.Engine Vapi.Cache Slots

/-- Sentinel slot index for a conv tap that precedes its sequence's start. -/
def convPad : UInt32 := UInt32.ofNat (2 ^ 32 - 1)

section Prepare

variable (S : Type) [Zero S] [One S]

/-- One token's tap. -/
def convTap (b : ForwardBatch) (table : List BlockId) (back blockSize t : Nat) : Except String (UInt32 × S) := do
  let p ← entry b.positions t
  if back ≤ p.toNat then
    let q := p.toNat - back
    let block ← entry table (q / blockSize)
    return (UInt32.ofNat (block * blockSize + q % blockSize), 1)
  else
    let slot ← entry b.slotMapping t
    return (slot, 0)

/-- One sequence's taps. -/
def sequenceTaps (b : ForwardBatch) (back blockSize i : Nat) : Except String (List (UInt32 × S)) := do
  let table ← entry b.blockTables i
  let from_ ← entry b.cuSeqlensQ i
  let until_ ← entry b.cuSeqlensQ (i + 1)
  (List.range' from_.toNat (until_.toNat - from_.toNat)).mapM (convTap S b table back blockSize)

/-- For every token in the batch, the slot of the row `back` positions before it in its own sequence, and zero where
there is none. -/
def convTaps (b : ForwardBatch) (back blockSize : Nat) : Except String (List UInt32 × List S) := do
  let taps ← (List.range b.batchSize).mapM (sequenceTaps S b back blockSize)
  return (taps.flatten.map Prod.fst, taps.flatten.map Prod.snd)

/-- The tap of number `k`, the oldest first. -/
def kernelTap (convKernel : Nat) (b : ForwardBatch) (blockSize k : Nat) : Except String (List UInt32 × List S) := do
  let tap ← convTaps S b (convKernel - 1 - k) blockSize
  if tap.1.length = b.tokens.length ∧ tap.2.length = b.tokens.length then return tap else .error "shape mismatch"

/-- What the convolutions of a step read of its batch. -/
structure Lfm2Inputs (hidden : Nat) where
  slots : List UInt32
  convTaps : List (List UInt32 × List (Fin hidden → S)) := []
  convIdx : Option (List UInt32) := none

variable [LT S] [DecidableLT S]

def prepare (hidden : Nat) (cuda : Bool) (convKernel : Nat) (b : ForwardBatch) (blockSize : Nat) :
    Except String (Lfm2Inputs S hidden) := do
  let taps ← (List.range convKernel).mapM (kernelTap S convKernel b blockSize)
  if cuda then
    let flat := taps.flatMap fun tap => List.zipWith (fun i m => if 0 < m then i else convPad) tap.1 tap.2
    return { slots := b.slotMapping, convIdx := some flat }
  else return { slots := b.slotMapping, convTaps := taps.map fun tap => (tap.1, tap.2.map fun m _ => m) }

end Prepare

structure ShortConv (S H : Type) (hidden : Nat) where
  bProj : H → Fin hidden → S
  cProj : H → Fin hidden → S
  xProj : H → Fin hidden → S
  outProj : (Fin hidden → S) → H
  /-- The channel weights of each tap, oldest first. -/
  taps : List (Fin hidden → S)
  bias : Option (Fin hidden → S)

namespace ShortConv

variable {S H : Type} [CommRing S] {hidden : Nat} (conv : ShortConv S H hidden)

/-- A token's row in the cache. -/
def gated (x : H) : Fin hidden → S := fun c => conv.bProj x c * conv.xProj x c

/-- A turn of the loop over the taps. -/
def addTap (flat : List (Fin hidden → S)) (acc : Option (List (Fin hidden → S)))
    (tap : (List UInt32 × List (Fin hidden → S)) × (Fin hidden → S)) : Except String (Option (List (Fin hidden → S))) := do
  let rows ← gather flat (tap.1.1.map UInt32.toNat)
  let term := List.zipWith (fun row m c => row c * tap.2 c * m c) rows tap.1.2
  return some (match acc with
    | none => term
    | some a => List.zipWith (fun u v c => u c + v c) a term)

def forward (x : List H) (ctx : Lfm2Inputs S hidden) (cells : List (Fin hidden → S)) :
    Except String (List H × List (Fin hidden → S)) := do
  let c := x.map conv.cProj
  let h := List.zipWith (fun b xx i => b i * xx i) (x.map conv.bProj) (x.map conv.xProj)
  if ctx.slots.length ≠ h.length then .error "scatter index does not match rows"
  let cells ← scatterSet cells (ctx.slots.zip h)
  match ← (ctx.convTaps.zip conv.taps).foldlM (addTap cells) none with
  | none => .error "kernel >= 1"
  | some acc =>
    let acc := conv.bias.elim acc fun bias => acc.map fun a i => a i + bias i
    return (List.zipWith (fun c a => conv.outProj fun i => c i * a i) c acc, cells)

/-- A step of one layer: what it reads of the batch, and then the layer. -/
def step [LT S] [DecidableLT S] (x : List H) (b : ForwardBatch) (blockSize : Nat) (cells : List (Fin hidden → S)) :
    Except String (List H × List (Fin hidden → S)) := do
  let ctx ← prepare S hidden false conv.taps.length b blockSize
  conv.forward x ctx cells

/-- Step after step, each with its own chunks, over the inputs that the sequences have at their positions. -/
def run {ι : Type} [LT S] [DecidableLT S] (blockSize : Nat) (x : ι → Nat → H) :
    List (List (Chunk ι) × ForwardBatch) → List (Fin hidden → S) → Except String (List (List H) × List (Fin hidden → S))
  | [], cells => .ok ([], cells)
  | s :: rest, cells => do
    let now ← conv.step ((tokensOf s.1).map fun t => x t.1 t.2) s.2 blockSize cells
    let later ← run blockSize x rest now.2
    return (now.1 :: later.1, later.2)

end ShortConv

end Vapi.Backend
