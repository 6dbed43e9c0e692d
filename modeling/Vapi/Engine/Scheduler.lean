import Vapi.Cache.Hash
import Vapi.Engine.Batch

/-!
# The scheduler

`vapi-engine/src/scheduler.rs`, function by function. `none` is a panic: an
index out of range or a missing map entry.
-/

namespace Vapi.Engine

open Vapi.Cache

structure SchedulerConfig where
  maxConcurrentSeqs : Nat := 64
  maxBatchedTokens : Nat := 8192
  prefillChunkTokens : Nat := 2048
  maxContext : Nat := 8192
  blockSize : Nat := 32
  prefixCache : Bool := true

/-- What a fork produced: the new sequences, and the blocks to copy from and
to before the next forward. -/
structure Fork where
  ids : List SeqId := []
  copies : List (BlockId × BlockId) := []

variable {H : Type} {B : Blake3 H}

structure Scheduler (B : Blake3 H) where
  cfg : SchedulerConfig
  pool : BlockPool H
  cacheNamespace : CacheNamespace B
  /-- Namespaces derived on demand, one per tenant. -/
  tenants : String → Option (CacheNamespace B)
  seqs : SeqId → Option Sequence
  byRequest : RequestId → Option (List SeqId)
  waiting : List SeqId
  running : List SeqId
  finished : List SeqId
  nextId : SeqId
  eosTokenIds : List Token

/-- A scheduling pass under way: the plan so far and the tokens left. -/
structure Pass (B : Blake3 H) where
  scheduler : Scheduler B
  plan : StepPlan
  budget : Nat

namespace Scheduler

def new (cfg : SchedulerConfig) (pool : BlockPool H) (cacheNamespace : CacheNamespace B)
    (eosTokenIds : List Token) : Scheduler B where
  cfg := cfg
  pool := pool
  cacheNamespace := cacheNamespace
  tenants := fun _ => none
  seqs := fun _ => none
  byRequest := fun _ => none
  waiting := []
  running := []
  finished := []
  nextId := 0
  eosTokenIds := eosTokenIds

@[simps -fullyApplied]
def setPool (s : Scheduler B) (pool : BlockPool H) : Scheduler B := { s with pool }

@[simps -fullyApplied]
def setSeq (s : Scheduler B) (id : SeqId) (seq : Sequence) : Scheduler B :=
  { s with seqs := Function.update s.seqs id (some seq) }

@[simps -fullyApplied]
def setWaiting (s : Scheduler B) (waiting : List SeqId) : Scheduler B := { s with waiting }

@[simps -fullyApplied]
def setRunning (s : Scheduler B) (running : List SeqId) : Scheduler B := { s with running }

@[simps -fullyApplied]
def setFinished (s : Scheduler B) (finished : List SeqId) : Scheduler B := { s with finished }

@[simps -fullyApplied]
def setTenants (s : Scheduler B) (tenants : String → Option (CacheNamespace B)) : Scheduler B :=
  { s with tenants }

/-- Enter a new sequence under the next id, and under its request. -/
@[simps -fullyApplied]
def register (s : Scheduler B) (seq : Sequence) : Scheduler B :=
  { s with
    nextId := s.nextId + 1
    seqs := Function.update s.seqs s.nextId (some seq)
    byRequest := Function.update s.byRequest seq.requestId
      (some ((s.byRequest seq.requestId).getD [] ++ [s.nextId])) }

def get (s : Scheduler B) (id : SeqId) : Option Sequence := s.seqs id

def numWaiting (s : Scheduler B) : Nat := s.waiting.length

def numRunning (s : Scheduler B) : Nat := s.running.length

def hasFinished (s : Scheduler B) : Bool := !s.finished.isEmpty

def admissionHeadroom (s : Scheduler B) : Nat :=
  s.cfg.maxConcurrentSeqs - (s.running.length + s.waiting.length)

/-- Queue a request. Prompts that cannot fit the context window are rejected. -/
def admitRequest (s : Scheduler B) (requestId : RequestId) (prompt : List Token) (params : SamplingParams)
    (tenant : String) : Scheduler B × Except Error SeqId :=
  if prompt = [] then (s, .error (.invalidRequest "empty prompt"))
  else if s.cfg.maxContext ≤ prompt.length then
    (s, .error (.contextLengthExceeded prompt.length s.cfg.maxContext))
  else
    let id := s.nextId
    let s := s.register (Sequence.new requestId prompt params tenant)
    (s.setWaiting (s.waiting ++ [id]), .ok id)

/-- Take a sequence out of its queue and release its blocks. -/
@[simps -fullyApplied]
def retire (s : Scheduler B) (id : SeqId) (seq : Sequence) (reason : FinishReason) : Scheduler B :=
  { s with
    seqs := Function.update s.seqs id (some ((seq.withStatus (.finished reason)).withBlocks []))
    pool := s.pool.freeAll seq.blocks
    running := s.running.filter (· ≠ id)
    waiting := s.waiting.filter (· ≠ id)
    finished := s.finished ++ [id] }

def finish (s : Scheduler B) (id : SeqId) (reason : FinishReason) : Scheduler B :=
  match s.seqs id with
  | none => s
  | some seq => if seq.status.isFinished then s else s.retire id seq reason

def finishWith (s : Scheduler B) (id : SeqId) (reason : FinishReason) : Scheduler B :=
  s.finish id reason

/-- Abort every sequence of a request. -/
def cancel (s : Scheduler B) (requestId : RequestId) : Scheduler B × Option SeqId :=
  match s.byRequest requestId with
  | none => (s, none)
  | some ids => (ids.foldl (fun s id => s.finish id .cancelled) s, ids.head?)

/-- The namespace a sequence's blocks are hashed under. -/
def namespaceFor (s : Scheduler B) (tenant : String) : Scheduler B × CacheNamespace B :=
  if tenant = s.cacheNamespace.tenant then (s, s.cacheNamespace)
  else match s.tenants tenant with
    | some ns => (s, ns)
    | none =>
      let ns := s.cacheNamespace.forTenant tenant
      (s.setTenants (Function.update s.tenants tenant (some ns)), ns)

end Scheduler

def allocMessage : AllocError → String
  | .exhausted => "no free KV blocks"
  | .watermark want watermark =>
    s!"allocation of {want} blocks would breach the {watermark}-block reserve"

/-- Take `n` blocks one after another; a refusal keeps those taken before it. -/
def takeBlocks (take : BlockPool H → Except AllocError (BlockPool H × BlockId)) :
    Nat → BlockPool H → BlockPool H × List BlockId × Option AllocError
  | 0, pool => (pool, [], none)
  | n + 1, pool =>
    match take pool with
    | .error e => (pool, [], some e)
    | .ok (pool, b) =>
      let (pool, blocks, failed) := takeBlocks take n pool
      (pool, b :: blocks, failed)

namespace Scheduler

variable [DecidableEq H]

/-- What `fork` reads off the parent. -/
structure ForkSource where
  requestId : RequestId
  params : SamplingParams
  tenant : String
  prompt : List Token
  blocks : List BlockId
  numCached : Nat
  computed : Nat

def forkSource (seq : Sequence) : ForkSource :=
  ⟨seq.requestId, seq.params, seq.tenant, seq.prompt, seq.blocks, seq.numCachedBlocks,
    seq.numComputed⟩

/-- Enter one fork of the source, with the blocks it holds. -/
def addFork (s : Scheduler B) (src : ForkSource) (blocks : List BlockId) : Scheduler B :=
  let id := s.nextId
  let child := Sequence.new src.requestId src.prompt src.params src.tenant
  let s := s.register (child.adoptPrefilled blocks src.computed src.numCached)
  s.setRunning (s.running ++ [id])

/-- The blocks of one fork: the full ones by reference and, where the source
has an open block, one of its own, with the copy to make if it has content. -/
def childBlocks (src : ForkSource) (blockSize : Nat) (pool : BlockPool H) :
    BlockPool H × Except AllocError (List BlockId × Option (BlockId × BlockId)) :=
  let full := src.computed / blockSize
  let shared := src.blocks.take full
  let pool := shared.foldl BlockPool.incref pool
  match src.blocks[full]? with
  | none => (pool, .ok (shared, none))
  | some openBlock =>
    match pool.allocateGuarded with
    | .error e => (pool, .error e)
    | .ok (pool, own) =>
      (pool, .ok (shared ++ [own],
        if src.computed % blockSize ≠ 0 then some (openBlock, own) else none))

/-- The children of a fork in turn. A refusal keeps the children made before
it, and the references it took itself. -/
def forkChildren (src : ForkSource) : Nat → Fork → Scheduler B → Scheduler B × Except Error Fork
  | 0, out, s => (s, .ok out)
  | extra + 1, out, s =>
    match childBlocks src s.cfg.blockSize s.pool with
    | (pool, .error e) => (s.setPool pool, .error (.engine s!"fork: {allocMessage e}"))
    | (pool, .ok (blocks, copy)) =>
      forkChildren src extra
        { ids := out.ids ++ [s.nextId], copies := out.copies ++ copy.toList }
        ((s.setPool pool).addFork src blocks)

/-- Fork `parent` into `extra` more sequences that share its prompt KV. -/
def fork (s : Scheduler B) (parent : SeqId) (extra : Nat) : Scheduler B × Except Error Fork :=
  match s.seqs parent with
  | none => (s, .error (.engine "fork: no such sequence"))
  | some seq =>
    if seq.needsPrefill then (s, .error (.engine "fork: the parent has not finished prefilling"))
    else forkChildren (forkSource seq) extra {} s

/-- Give a forked sequence its first token, and blocks to write it to. -/
def seedFork (s : Scheduler B) (id : SeqId) (token : Token) : Scheduler B × Except Error Unit :=
  match s.seqs id with
  | none => (s, .error (.engine "seed_fork: no such sequence"))
  | some seq =>
    let seq := seq.pushToken token
    let need := s.pool.blocksFor (seq.numComputed + 1)
    let (pool, taken, failed) :=
      takeBlocks BlockPool.allocateGuarded (need - seq.blocks.length) s.pool
    let s := (s.setPool pool).setSeq id (seq.withBlocks (seq.blocks ++ taken))
    match failed with
    | none => (s, .ok ())
    | some e => (s, .error (.engine s!"seed_fork: {allocMessage e}"))

def sequencesOf (s : Scheduler B) (requestId : RequestId) : List SeqId :=
  (s.byRequest requestId).getD []

/-- Cover `extra` more positions with blocks; whether there were enough. -/
def tryExtend (s : Scheduler B) (id : SeqId) (extra : Nat) : Option (Scheduler B × Bool) := do
  let seq ← s.seqs id
  let need := s.pool.blocksFor (seq.numComputed + extra)
  let (pool, taken, failed) := takeBlocks BlockPool.allocate (need - seq.blocks.length) s.pool
  some ((s.setPool pool).setSeq id (seq.withBlocks (seq.blocks ++ taken)), failed.isNone)

def preempt (s : Scheduler B) (id : SeqId) : Option (Scheduler B) := do
  let seq ← s.seqs id
  let s := (s.setPool (s.pool.freeAll seq.blocks)).setSeq id seq.resetForRecompute
  some ((s.setRunning (s.running.filter (· ≠ id))).setWaiting (id :: s.waiting))

/-- Give matched blocks back, last first, while they cover the whole prompt:
a token has to be left to compute. -/
def giveBack (promptLen blockSize : Nat) :
    List BlockId → Nat → BlockPool H → BlockPool H × List BlockId × Nat
  | [], cached, pool => (pool, [], cached)
  | last :: rest, cached, pool =>
    if promptLen ≤ cached then giveBack promptLen blockSize rest (cached - blockSize) (pool.free last)
    else (pool, (last :: rest).reverse, cached)

/-- The cached prefix of the known text, referenced. -/
def matchCached (s : Scheduler B) (ns : CacheNamespace B) (seq : Sequence) :
    BlockPool H × List BlockId × Nat :=
  if s.cfg.prefixCache then
    let hashes := hashBlockChain ns (seq.tokens.take seq.prefillTarget) s.cfg.blockSize
    let (pool, m) := s.pool.matchPrefix hashes
    giveBack seq.prefillTarget s.cfg.blockSize m.blocks.reverse m.tokens pool
  else (s.pool, [], 0)

/-- Reserve blocks for a sequence, the cached prefix first. -/
def tryStart (s : Scheduler B) (id : SeqId) : Option (Scheduler B × Bool) := do
  let seq ← s.seqs id
  let (s, ns) := s.namespaceFor seq.tenant
  let (pool, matched, cachedTokens) := s.matchCached ns seq
  let needNew := pool.blocksFor (seq.prefillTarget + 1) - matched.length
  if ¬pool.canAllocate needNew then some (s.setPool (pool.freeAll matched), false)
  else
    match takeBlocks BlockPool.allocate needNew pool with
    | (pool, taken, some _) => some (s.setPool (pool.freeAll (matched ++ taken)), false)
    | (pool, taken, none) =>
      some ((s.setPool pool).setSeq id (seq.startOn matched cachedTokens taken), true)

end Scheduler

namespace Pass

variable [DecidableEq H]

@[simps]
def setScheduler (p : Pass B) (scheduler : Scheduler B) : Pass B := { p with scheduler }

/-- Append one sequence's next `q` tokens to the batch. -/
def pushSeqIntoBatch (p : Pass B) (id : SeqId) (q : Nat) : Option (Pass B) := do
  let seq ← p.scheduler.seqs id
  let plan ← p.plan.pushSeq id seq q p.scheduler.cfg.blockSize
  some { p with plan, budget := p.budget - q }

def preempt (p : Pass B) (id : SeqId) : Option (Pass B) := do
  let scheduler ← p.scheduler.preempt id
  some { p with scheduler, plan := p.plan.preempt id }

/-- Extend a sequence and batch it, or preempt it for want of blocks. -/
def extendOrPreempt (p : Pass B) (id : SeqId) (q : Nat) : Option (Pass B × Bool) := do
  let (scheduler, fits) ← p.scheduler.tryExtend id q
  let p := p.setScheduler scheduler
  if fits then some (← p.pushSeqIntoBatch id q, true) else some (← p.preempt id, false)

/-- One running sequence in the decode pass; whether it survives in the queue. -/
def decodeOne (p : Pass B) (id : SeqId) : Option (Pass B × Bool) :=
  match p.scheduler.seqs id with
  | none => some (p, false)
  | some seq =>
    if seq.status.isFinished then some (p, false)
    else if seq.needsPrefill then some (p, true)
    else if p.budget = 0 then some (p, true)
    else p.extendOrPreempt id 1

def decodeLoop : List SeqId → Pass B → Option (Pass B × List SeqId)
  | [], p => some (p, [])
  | id :: ids, p => do
    let (p, survives) ← p.decodeOne id
    let (p, survivors) ← decodeLoop ids p
    some (p, if survives then id :: survivors else survivors)

/-- The running queue is taken for the duration of the loop. -/
def scheduleDecodes (p : Pass B) : Option (Pass B) := do
  let running := p.scheduler.running
  let (p, survivors) ← decodeLoop running (p.setScheduler (p.scheduler.setRunning []))
  some (p.setScheduler (p.scheduler.setRunning survivors))

def prefillChunk (p : Pass B) (id : SeqId) : Option (Pass B) := do
  let seq ← p.scheduler.seqs id
  let q := min (min seq.remainingPrefill p.scheduler.cfg.prefillChunkTokens) p.budget
  if q = 0 then some p
  else
    let (p, _) ← p.extendOrPreempt id q
    some p

/-- The running sequences that are still prefilling. -/
def continueLoop : List SeqId → Pass B → Option (Pass B)
  | [], p => some p
  | id :: ids, p =>
    if p.budget = 0 then some p
    else match p.scheduler.seqs id with
      | none => continueLoop ids p
      | some seq =>
        if ¬seq.needsPrefill ∨ seq.status.isFinished then continueLoop ids p
        else do
          let p ← p.prefillChunk id
          continueLoop ids p

/-- Start waiting sequences from the head of the queue. Every turn either
drops or starts one, or ends the loop, so the fuel is never used up. -/
def startLoop : Nat → Pass B → Option (Pass B)
  | 0, _ => none
  | fuel + 1, p =>
    if p.budget = 0 ∨ p.scheduler.cfg.maxConcurrentSeqs ≤ p.scheduler.running.length then some p
    else match p.scheduler.waiting with
      | [] => some p
      | id :: rest =>
        let popped := p.setScheduler (p.scheduler.setWaiting rest)
        match popped.scheduler.seqs id with
        | none => startLoop fuel popped
        | some seq =>
          if seq.status.isFinished then startLoop fuel popped
          else do
            let (s, started) ← popped.scheduler.tryStart id
            if ¬started then some (p.setScheduler (s.setWaiting (id :: s.waiting)))
            else
              let seq ← s.seqs id
              let plan := p.plan.start id seq.cachedPrefixTokens
              let p ← prefillChunk ⟨s.setRunning (s.running ++ [id]), plan, p.budget⟩ id
              startLoop fuel p

def schedulePrefills (p : Pass B) : Option (Pass B) := do
  let p ← continueLoop p.scheduler.running p
  startLoop (p.scheduler.waiting.length + 1) p

end Pass

namespace Scheduler

variable [DecidableEq H]

/-- Build the next batch: decodes before prefills. -/
def schedule (s : Scheduler B) : Option (Scheduler B × StepPlan) := do
  let p ← Pass.scheduleDecodes ⟨s, {}, s.cfg.maxBatchedTokens⟩
  let p ← p.schedulePrefills
  some (p.scheduler, p.plan.measured)

/-- Sequence `id` contributed `q` tokens; a finished prefill is decoding. -/
def advanceOne (s : Scheduler B) (id : SeqId) (q : Nat) : Scheduler B :=
  match s.seqs id with
  | none => s
  | some seq =>
    let seq := seq.advanceComputed q
    s.setSeq id
      (if ¬seq.needsPrefill ∧ seq.status = .prefilling then seq.withStatus .decoding else seq)

/-- The sequences of a batch with the cumulative lengths around them. -/
def advanceLoop : List SeqId → List UInt32 → Scheduler B → Option (Scheduler B)
  | [], _, s => some s
  | id :: ids, lo :: hi :: cu, s => advanceLoop ids (hi :: cu) (s.advanceOne id (hi - lo).toNat)
  | _ :: _, _, _ => none

def pushSampled (s : Scheduler B) (id : SeqId) (token : Token) : Scheduler B :=
  match s.seqs id with
  | none => s
  | some seq =>
    let seq := seq.pushToken token
    let s := s.setSeq id seq
    match seq.checkFinished s.eosTokenIds s.cfg.maxContext with
    | some reason => s.finish id reason
    | none => s

def sampledLoop (s : Scheduler B) (pairs : List (SeqId × Token)) : Scheduler B :=
  pairs.foldl (fun s p => s.pushSampled p.1 p.2) s

/-- Publish the blocks numbered from `i` under the hashes given; the blocks to
swap for the ones published before under the same hash. -/
def publishBlocks (blocks : List BlockId) :
    List (Nat × H) → BlockPool H → BlockPool H × List (Nat × BlockId × BlockId)
  | [], pool => (pool, [])
  | (i, hash) :: rest, pool =>
    match blocks[i]? with
    | none => publishBlocks blocks rest pool
    | some block =>
      let (pool, canonical) := pool.publish block hash
      let (pool, swaps) := publishBlocks blocks rest pool
      (pool, if canonical ≠ block then (i, block, canonical) :: swaps else swaps)

/-- Adopt the canonical blocks and release the ones they stand in for. -/
def swapBlocks : List (Nat × BlockId × BlockId) → List BlockId × BlockPool H →
    List BlockId × BlockPool H
  | [], acc => acc
  | (i, old, canonical) :: swaps, (blocks, pool) =>
    swapBlocks swaps (blocks.set i canonical, pool.free old)

def publishOne (s : Scheduler B) (id : SeqId) : Option (Scheduler B) :=
  match s.seqs id with
  | none => some s
  | some seq =>
    let bs := s.cfg.blockSize
    let fullBlocks := seq.numComputed / bs
    if fullBlocks ≤ seq.numCachedBlocks then some s
    -- the slice of the tokens the full blocks hold
    else if seq.tokens.length < fullBlocks * bs then none
    else
      let (s, ns) := s.namespaceFor seq.tenant
      let hashes := hashBlockChain ns (seq.tokens.take (fullBlocks * bs)) bs
      let indexed := ((List.range hashes.length).zip hashes).take fullBlocks
      let (pool, swaps) := publishBlocks seq.blocks (indexed.drop seq.numCachedBlocks) s.pool
      let (blocks, pool) := swapBlocks swaps (seq.blocks, pool)
      some ((s.setPool pool).setSeq id ((seq.withCached fullBlocks).withBlocks blocks))

def publishLoop : List SeqId → Scheduler B → Option (Scheduler B)
  | [], s => some s
  | id :: ids, s => do
    let s ← s.publishOne id
    publishLoop ids s

def publishFullBlocks (s : Scheduler B) (plan : StepPlan) : Option (Scheduler B) :=
  if s.cfg.prefixCache then publishLoop plan.batchSeqs s else some s

/-- Apply a step's results: advance progress, append sampled tokens, retire
what finished, publish what is full. -/
def commit (s : Scheduler B) (plan : StepPlan) (sampled : List Token) : Option (Scheduler B) := do
  let s ← advanceLoop plan.batchSeqs plan.batch.cuSeqlensQ s
  (s.sampledLoop (plan.sampledSeqs.zip sampled)).publishFullBlocks plan

/-- The index by request once a sequence has gone: only this choice's entry
goes, a sibling may still run. -/
def unfile (s : Scheduler B) (id : SeqId) (requestId : RequestId) : RequestId → Option (List SeqId) :=
  match s.byRequest requestId with
  | none => s.byRequest
  | some ids =>
    let left := ids.filter (· ≠ id)
    Function.update s.byRequest requestId (if left = [] then none else some left)

/-- Drop one finished sequence, and its entry under its request. -/
def drainOne (s : Scheduler B) (id : SeqId) : Scheduler B × Option (SeqId × Sequence) :=
  match s.seqs id with
  | none => (s, none)
  | some seq =>
    ({ s with
      seqs := Function.update s.seqs id none, byRequest := s.unfile id seq.requestId },
      some (id, seq))

def drainLoop : List SeqId → Scheduler B → Scheduler B × List (SeqId × Sequence)
  | [], s => (s, [])
  | id :: ids, s =>
    let (s, drained) := s.drainOne id
    let (s, rest) := drainLoop ids s
    (s, drained.toList ++ rest)

/-- Remove and return everything that completed since the last call. -/
def drainFinished (s : Scheduler B) : Scheduler B × List (SeqId × Sequence) :=
  drainLoop s.finished (s.setFinished [])

end Scheduler

end Vapi.Engine
