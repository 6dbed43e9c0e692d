import Vapi.Cache.Spill
import Vapi.Engine.World

/-!
# The engine and its spill tier

The rest of `Engine` in `vapi-worker/src/engine.rs` that touches blocks: what a
step evicts is exported before the batch runs, and what a prompt needs is put
back before it is admitted.
-/

namespace Vapi.Engine

open Vapi.Cache
open Paged (Memory)
open Transition (Run)

/-- Tokens per block, `BLOCK_SIZE`. -/
def blockSize : Nat := 32

/-- The bytes of one block. -/
abbrev Page (KV : Type) := Nat → Option KV

variable {H : Type} {B : Blake3 H} {KV : Type}

structure Tiered (B : Blake3 H) (KV : Type) where
  world : World B KV
  /-- The namespace prompts are looked up under. -/
  cacheNamespace : CacheNamespace B
  /-- None when it is off. -/
  spill : Option (SpillStore H (Page KV))
  /-- Whether an export works. -/
  exports : Oracle Bool
  /-- None where an import works, else what it leaves in the block. -/
  imports : Oracle (Option (Page KV))

namespace Tiered

/-- A new engine, over a store that may hold blocks of an earlier run. -/
def new (cfg : SchedulerConfig) (numBlocks watermark : Nat) (ns : CacheNamespace B) (eos : List Token)
    (spill : Option (SpillStore H (Page KV))) (exports : Oracle Bool) (imports : Oracle (Option (Page KV))) :
    Tiered B KV where
  world :=
    let pool := BlockPool.new numBlocks blockSize watermark
    .new (.new { cfg with blockSize } (if spill.isSome then pool.setTrackEvictions true else pool) ns eos)
  cacheNamespace := ns
  spill := spill
  exports := exports
  imports := imports

def pool (w : Tiered B KV) : BlockPool H := w.world.scheduler.pool

def device (w : Tiered B KV) : Memory KV := w.world.device

def setWorld (w : Tiered B KV) (world : World B KV) : Tiered B KV := { w with world }

def setPool (w : Tiered B KV) (pool : BlockPool H) : Tiered B KV :=
  w.setWorld { w.world with scheduler := w.world.scheduler.setPool pool }

def setDevice (w : Tiered B KV) (device : Memory KV) : Tiered B KV := w.setWorld { w.world with device }

variable [DecidableEq H]

/-- Preserve the content of one evicted block. -/
def exportBlock (w : Tiered B KV) (x : H × BlockId) : Tiered B KV :=
  match w.spill with
  | none => w
  | some store =>
    if store.contains x.1 then w
    else
      let (works, exports) := w.exports.ask
      { w with exports, spill := some (if works then store.put x.1 (w.device x.2) else store) }

/-- Preserve the content of blocks the pool just evicted. -/
def spillEvicted (w : Tiered B KV) : Tiered B KV :=
  if w.spill.isNone then w
  else
    let (pool, evicted) := w.pool.takeEvicted
    evicted.foldl exportBlock (w.setPool pool)

/-- Put exported bytes into a block; whether that worked. -/
def importBlock (w : Tiered B KV) (id : BlockId) (bytes : Page KV) : Tiered B KV × Bool :=
  let (failed, imports) := w.imports.ask
  (({ w with imports }).setDevice (Function.update w.device id (failed.getD bytes)), failed.isNone)

def fetch (w : Tiered B KV) (hash : H) : Tiered B KV × Option (Page KV) :=
  match w.spill with
  | none => (w, none)
  | some store =>
    let (store, bytes) := store.get hash
    ({ w with spill := some store }, bytes)

/-- Put a block back, resident but unreferenced; whether to go on. One block is
kept in hand. -/
def restore (w : Tiered B KV) (hash : H) (bytes : Page KV) : Tiered B KV × Bool :=
  if w.pool.numFree ≤ 1 then (w, false)
  else match w.pool.allocate with
    | .error _ => (w, false)
    | .ok (pool, id) =>
      -- what the allocation evicted has to leave before the import overwrites it
      let (w, imported) := (w.setPool pool).spillEvicted.importBlock id bytes
      if ¬imported then (w.setPool (w.pool.free id), false)
      else
        let (pool, canonical) := w.pool.publish id hash
        let pool := if canonical ≠ id then pool.free id else pool
        (w.setPool (pool.free canonical), true)

/-- Put back the blocks of the hashes in turn, but those resident, up to the
first that is not held. -/
def promote : List H → Tiered B KV → Tiered B KV
  | [], w => w
  | hash :: hashes, w =>
    if w.pool.contains hash then promote hashes w
    else match w.fetch hash with
      | (w, none) => w
      | (w, some bytes) =>
        match w.restore hash bytes with
        | (w, true) => promote hashes w
        | (w, false) => w

/-- The hashes a prompt is looked up by. -/
def promptHashes (w : Tiered B KV) (tokens : List Token) : List H :=
  hashBlockChain w.cacheNamespace (tokens.take (tokens.length / blockSize * blockSize)) blockSize

/-- Put back whatever of this prompt the spill tier still holds. -/
def promoteFromSpill (w : Tiered B KV) (tokens : List Token) : Tiered B KV :=
  if w.spill.isNone then w
  else if tokens.length / blockSize = 0 then w
  else promote (w.promptHashes tokens) w

def admitRequest (w : Tiered B KV) (requestId : RequestId) (prompt : List Token) (params : SamplingParams) (tenant : String) :
    Tiered B KV :=
  let w := w.promoteFromSpill prompt
  w.setWorld (w.world.setScheduler (w.world.scheduler.admitRequest requestId prompt params tenant).1)

/-- Schedule, export what that evicted, and run the batch. -/
def schedule (kernel : Kernel KV) (w : Tiered B KV) : Option (Tiered B KV) := do
  let (s, plan) ← w.world.scheduler.schedule
  let w := (w.setWorld { w.world with scheduler := s }).spillEvicted
  some (w.setWorld ⟨w.world.scheduler, forward kernel s plan.rows w.device, some plan, []⟩)

def exec (kernel : Kernel KV) (w : Tiered B KV) : Event → Option (Tiered B KV)
  | .admitRequest requestId prompt params tenant => some (w.admitRequest requestId prompt params tenant)
  | .schedule => w.schedule kernel
  | e => (w.world.exec kernel e).map w.setWorld

def Step (kernel : Kernel KV) (w : Tiered B KV) (e : Event) (w' : Tiered B KV) : Prop :=
  w.exec kernel e = some w'

end Tiered

end Vapi.Engine
