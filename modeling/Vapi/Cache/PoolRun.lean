import Vapi.Cache.Refinement

/-!
# Runs of the pool

The calls a caller makes, each with its reply, on the pool and on its ledger.
-/

namespace Vapi.Cache

open IntrusiveList (walk)
open Transition (Run)

variable {H : Type} [DecidableEq H]

inductive PoolOp (H : Type)
  | allocate
  | allocateGuarded
  | incref (id : BlockId)
  | free (id : BlockId)
  | publish (id : BlockId) (h : H)
  | reference (id : BlockId)
  | lookup (h : H)
  | matchPrefix (hashes : List H)
  | trackEvictions (on : Bool)
  | takeEvicted
  deriving DecidableEq

inductive Reply
  | done
  | block (r : Except AllocError BlockId)
  | found (r : Option BlockId)
  | matched (r : PrefixMatch)

namespace BlockPool

/-- What a caller owes: the block it names is a block, and it holds a
reference where the operation counts on one. -/
def Allowed (p : BlockPool H) : PoolOp H → Prop
  | .incref id | .free id | .publish id _ => 0 < p.refcount id
  | .reference id => id < p.numBlocks
  | _ => True

def replyAllocate (p : BlockPool H) : Except AllocError (BlockPool H × BlockId) → BlockPool H × Reply
  | .ok (p, id) => (p, .block (.ok id))
  | .error e => (p, .block (.error e))

def exec (p : BlockPool H) : PoolOp H → BlockPool H × Reply
  | .allocate => p.replyAllocate p.allocate
  | .allocateGuarded => p.replyAllocate p.allocateGuarded
  | .incref id => (p.incref id, .done)
  | .free id => (p.free id, .done)
  | .publish id h => ((p.publish id h).1, .block (.ok (p.publish id h).2))
  | .reference id => (p.reference id, .done)
  | .lookup h =>
    match p.lookup h with
    | some (p, id) => (p, .found (some id))
    | none => (p, .found none)
  | .matchPrefix hashes => ((p.matchPrefix hashes).1, .matched (p.matchPrefix hashes).2)
  | .trackEvictions on => (p.setTrackEvictions on, .done)
  | .takeEvicted => (p.takeEvicted.1, .done)

def Step (p : BlockPool H) (l : PoolOp H × Reply) (q : BlockPool H) : Prop :=
  p.Allowed l.1 ∧ p.exec l.1 = (q, l.2)

end BlockPool

/-- The calls on the ledger. What a rule does not name stays as it was: a
refused allocation and a missed lookup change nothing. -/
inductive Ledger.Step : Ledger H → PoolOp H × Reply → Ledger H → Prop
  | allocate {L L' : Ledger H} {b : BlockId} (taken : L.allocate = some (L', b)) :
      Step L (.allocate, .block (.ok b)) L'
  | exhausted {L : Ledger H} (empty : L.free = []) :
      Step L (.allocate, .block (.error .exhausted)) L
  | guarded {L L' : Ledger H} {b : BlockId} (room : 1 + L.reserve ≤ L.free.length)
      (taken : L.allocate = some (L', b)) : Step L (.allocateGuarded, .block (.ok b)) L'
  | refused {L : Ledger H} (tight : L.free.length < 1 + L.reserve) :
      Step L (.allocateGuarded, .block (.error (.watermark 1 L.reserve))) L
  | incref {L : Ledger H} {b : BlockId} (held : 0 < L.count b) :
      Step L (.incref b, .done) (L.reference b (L.counted b held))
  | free {L : Ledger H} {b : BlockId} (held : 0 < L.count b) :
      Step L (.free b, .done) (L.release b held)
  | publish {L : Ledger H} {b : BlockId} (h : H) (held : 0 < L.count b) :
      Step L (.publish b h, .block (.ok (L.publish b h (L.counted b held)).2))
        (L.publish b h (L.counted b held)).1
  | reference {L : Ledger H} {b : BlockId} (isBlock : b < L.numBlocks) :
      Step L (.reference b, .done) (L.reference b isBlock)
  | hit {L L' : Ledger H} {b : BlockId} {h : H} (found : L.lookup h = some (L', b)) :
      Step L (.lookup h, .found (some b)) L'
  | miss {L : Ledger H} {h : H} (absent : L.index h = none) : Step L (.lookup h, .found none) L
  | matchPrefix {L : Ledger H} (hashes : List H) :
      Step L (.matchPrefix hashes, .matched ⟨(L.matchBlocks hashes).2,
        (L.matchBlocks hashes).2.length * L.blockSize⟩) (L.matchBlocks hashes).1
  | trackEvictions {L : Ledger H} (on : Bool) : Step L (.trackEvictions on, .done) L
  | takeEvicted {L : Ledger H} : Step L (.takeEvicted, .done) L

omit [DecidableEq H] in
/-- The counters and the eviction record are not part of what a pool is. -/
theorem Refines.congr {p q : BlockPool H} {L : Ledger H} (r : Refines p L)
    (numBlocks : q.numBlocks = p.numBlocks) (blockSize : q.blockSize = p.blockSize)
    (watermark : q.watermark = p.watermark) (refcount : q.refcount = p.refcount)
    (hashOf : q.hashOf = p.hashOf) (byHash : q.byHash = p.byHash) (lru : q.lru = p.lru)
    (numFree : q.numFree = p.numFree) : Refines q L where
  numBlocks := numBlocks.trans r.numBlocks
  blockSize := blockSize.trans r.blockSize
  watermark := watermark.trans r.watermark
  refcount := refcount.trans r.refcount
  byHash := byHash.trans r.byHash
  list := lru ▸ r.list
  numFree := numFree.trans r.numFree
  hashOf := by rw [hashOf, byHash]; exact r.hashOf

omit [DecidableEq H] in
/-- What the vectors of a pool look like when it refines a ledger. -/
theorem refines_reads {p : BlockPool H} {L : Ledger H} (r : Refines p L) :
    (∀ fuel, p.numFree ≤ fuel →
      walk p.lru.next p.lru.head fuel = L.free ∧ walk p.lru.prev p.lru.tail fuel = L.free.reverse) ∧
    L.free.Nodup ∧ p.numFree = L.free.length ∧
    (∀ b, b ∈ L.free ↔ b < p.numBlocks ∧ p.refcount b = 0) ∧
    (∀ b h, p.hashOf b = some h ↔ p.byHash h = some b) := by
  refine ⟨fun fuel hf => ?_, L.free_nodup, r.numFree, ?_, r.hashOf⟩
  · have := r.numFree ▸ hf
    exact ⟨IntrusiveList.walk_next r.list this, IntrusiveList.walk_prev r.list this⟩
  · rw [r.numBlocks, r.refcount]; exact L.mem_free

end Vapi.Cache
