import Vapi.Lib.IntrusiveList

/-!
# The block pool

`BlockPool` of `vapi-cache/src/pool.rs`, operation by operation. The per-block
vectors are maps from block ids, `byHash` is the hash index, and the four link
fields of the eviction list are one value `lru` of the intrusive list library,
whose `none` is the source's `NONE`.
-/

namespace Vapi.Cache

open IntrusiveList (Links)

abbrev BlockId := Nat

inductive AllocError
  | exhausted
  | watermark (want watermark : Nat)
  deriving DecidableEq, Repr

structure BlockPool (H : Type) where
  blockSize : Nat
  watermark : Nat
  /-- The common length of the per-block vectors. -/
  numBlocks : Nat
  refcount : BlockId → Nat
  hashOf : BlockId → Option H
  byHash : H → Option BlockId
  lru : Links BlockId
  numFree : Nat
  hitTokens : Nat
  queriedTokens : Nat
  evictions : Nat
  evictedContent : List (H × BlockId)
  trackEvictions : Bool

/-- Result of matching a prompt against the shared cache. -/
structure PrefixMatch where
  blocks : List BlockId
  tokens : Nat
  deriving DecidableEq, Repr

namespace BlockPool

variable {H : Type} [DecidableEq H]

def pushFront (p : BlockPool H) (id : BlockId) : BlockPool H :=
  { p with lru := p.lru.pushFront id }

def pushBack (p : BlockPool H) (id : BlockId) : BlockPool H :=
  { p with lru := p.lru.pushBack id }

def unlink (p : BlockPool H) (id : BlockId) : BlockPool H :=
  { p with lru := p.lru.unlink id }

def setRefcount (p : BlockPool H) (id : BlockId) (n : Nat) : BlockPool H :=
  { p with refcount := Function.update p.refcount id n }

/-- Take a block out of the free list. -/
def detach (p : BlockPool H) (id : BlockId) : BlockPool H :=
  { p.unlink id with numFree := p.numFree - 1 }

/-- Put a block into the free list: at the back when it carries content, at
the front when it does not. -/
def attach (p : BlockPool H) (id : BlockId) : BlockPool H :=
  { p with
    lru := (if (p.hashOf id).isSome then p.pushBack id else p.pushFront id).lru
    numFree := p.numFree + 1 }

/-- The free list is seeded in ascending order. -/
def new (numBlocks blockSize watermark : Nat) : BlockPool H :=
  (List.range numBlocks).reverse.foldl
    (fun pool i => { pool.pushFront i with numFree := pool.numFree + 1 })
    { blockSize, watermark := min watermark numBlocks, numBlocks
      refcount := fun _ => 0, hashOf := fun _ => none, byHash := fun _ => none
      lru := Links.empty, numFree := 0
      hitTokens := 0, queriedTokens := 0, evictions := 0
      evictedContent := [], trackEvictions := false }

/-- Blocks needed to hold `tokens`, including a partial trailing block. -/
def blocksFor (p : BlockPool H) (tokens : Nat) : Nat := (tokens + p.blockSize - 1) / p.blockSize

def canAllocate (p : BlockPool H) (want : Nat) : Bool := want + p.watermark ≤ p.numFree

/-- Drop the hash a block carries, as an allocation does with the cached
content of the block it takes. -/
def evict (p : BlockPool H) (id : BlockId) : BlockPool H :=
  match p.hashOf id with
  | some h =>
    { p with
      hashOf := Function.update p.hashOf id none
      byHash := Function.update p.byHash h none
      evictions := p.evictions + 1
      evictedContent :=
        if p.trackEvictions then p.evictedContent ++ [(h, id)] else p.evictedContent }
  | none => p

def allocate (p : BlockPool H) : Except AllocError (BlockPool H × BlockId) :=
  match p.numFree, p.lru.head with
  | 0, _ => .error .exhausted
  -- a positive `numFree` with an empty list does not occur: `Refines` below
  | _ + 1, none => .error .exhausted
  | _ + 1, some id => .ok (((p.detach id).evict id).setRefcount id 1, id)

def allocateGuarded (p : BlockPool H) : Except AllocError (BlockPool H × BlockId) :=
  if p.canAllocate 1 then p.allocate else .error (.watermark 1 p.watermark)

def setTrackEvictions (p : BlockPool H) (on : Bool) : BlockPool H :=
  { p with
    trackEvictions := on
    evictedContent := if on then p.evictedContent else [] }

def takeEvicted (p : BlockPool H) : BlockPool H × List (H × BlockId) :=
  ({ p with evictedContent := [] }, p.evictedContent)

def contains (p : BlockPool H) (h : H) : Bool := (p.byHash h).isSome

def incref (p : BlockPool H) (id : BlockId) : BlockPool H := p.setRefcount id (p.refcount id + 1)

/-- Release one reference; a block whose last reference goes is reusable. -/
def free (p : BlockPool H) (id : BlockId) : BlockPool H :=
  let p := p.setRefcount id (p.refcount id - 1)
  if p.refcount id = 0 then p.attach id else p

/-- Take a reference to a block that may be free but cached. -/
def reference (p : BlockPool H) (id : BlockId) : BlockPool H :=
  let p := if p.refcount id = 0 then p.detach id else p
  p.setRefcount id (p.refcount id + 1)

/-- Give a block the hash it carries from now on, retiring the one it had. -/
def setHash (p : BlockPool H) (id : BlockId) (h : H) : BlockPool H :=
  let byHash := match p.hashOf id with
    | some stale => if stale = h then p.byHash else Function.update p.byHash stale none
    | none => p.byHash
  { p with
    hashOf := Function.update p.hashOf id (some h)
    byHash := Function.update byHash h (some id) }

/-- Publish a filled block. The first publisher of a hash wins, and a later
one is handed its block, referenced. -/
def publish (p : BlockPool H) (id : BlockId) (h : H) : BlockPool H × BlockId :=
  match p.byHash h with
  | some existing => if existing ≠ id then (p.reference existing, existing) else (p.setHash id h, id)
  | none => (p.setHash id h, id)

def lookup (p : BlockPool H) (h : H) : Option (BlockPool H × BlockId) :=
  match p.byHash h with
  | some id => some (p.reference id, id)
  | none => none

/-- Reference the blocks of the hashes in turn, up to the first miss. -/
def matchBlocks (p : BlockPool H) : List H → BlockPool H × List BlockId
  | [] => (p, [])
  | h :: hs =>
    match p.lookup h with
    | some (p, id) =>
      let (p, blocks) := p.matchBlocks hs
      (p, id :: blocks)
    | none => (p, [])

def matchPrefix (p : BlockPool H) (hashes : List H) : BlockPool H × PrefixMatch :=
  let p := { p with queriedTokens := p.queriedTokens + hashes.length * p.blockSize }
  let (p, blocks) := p.matchBlocks hashes
  ({ p with hitTokens := p.hitTokens + blocks.length * p.blockSize },
    ⟨blocks, blocks.length * p.blockSize⟩)

def freeAll (p : BlockPool H) (blocks : List BlockId) : BlockPool H := blocks.foldl free p

end BlockPool

end Vapi.Cache
