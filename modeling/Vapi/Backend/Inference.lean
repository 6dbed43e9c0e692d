import Vapi.Lib.Cells
import Vapi.Engine.World
import Vapi.Backend.Plain

/-!
# The engine over its backend

`Engine::step` with the model's own cache: a batch that is scheduled is run and
its logits wait for the commit; what a leader's children share is copied from
block to block, in every layer. The spill tier is off.
-/

namespace Vapi.Backend

open Vapi.Engine Vapi.Cache

variable {H : Type} {B : Blake3 H} {S : Type} {hidden kvHeads dim vocab : Nat}

/-- One block of a buffer, detached and set over another. -/
def copyBlock {V : Type} (blockSize : Nat) (pair : BlockId × BlockId) (cells : List V) : Except String (List V) := do
  let block ← narrow cells (pair.1 * blockSize) blockSize
  sliceSet cells block (pair.2 * blockSize)

/-- A layer of rows has no buffer of values. -/
def LayerBuffers.copyBlock (blockSize : Nat) (pair : BlockId × BlockId) :
    LayerBuffers S hidden kvHeads dim → Except String (LayerBuffers S hidden kvHeads dim)
  | .kv layer => do
    let k ← Backend.copyBlock blockSize pair layer.1
    let v ← Backend.copyBlock blockSize pair layer.2
    return .kv (k, v)
  | .rows cells => do
    let cells ← Backend.copyBlock blockSize pair cells
    return .rows cells

def copyBlocks (blockSize : Nat) (pairs : List (BlockId × BlockId))
    (caches : List (LayerBuffers S hidden kvHeads dim)) :
    Except String (List (LayerBuffers S hidden kvHeads dim)) :=
  pairs.foldlM (fun caches pair => caches.mapM (LayerBuffers.copyBlock blockSize pair)) caches

structure Inference (B : Blake3 H) (S : Type) (hidden kvHeads dim vocab : Nat) where
  scheduler : Scheduler B
  caches : List (LayerBuffers S hidden kvHeads dim)
  /-- The plan whose batch has run and is not committed yet, with a row for each sequence it samples. -/
  inFlight : Option (StepPlan × List (Fin vocab → S))
  /-- `forks_to_make`: the sequences that got their first token in the commit just made, and the rows it came from. -/
  leaders : List (SeqId × (Fin vocab → S))

namespace Inference

def new (s : Scheduler B) (caches : List (LayerBuffers S hidden kvHeads dim)) :
    Inference B S hidden kvHeads dim vocab :=
  ⟨s, caches, none, []⟩

/-- What there is of it without the numbers. -/
def bare (KV : Type) (x : Inference B S hidden kvHeads dim vocab) : World B KV :=
  ⟨x.scheduler, fun _ _ => none, x.inFlight.map Prod.fst, x.leaders.map Prod.fst⟩

@[simps]
def setScheduler (x : Inference B S hidden kvHeads dim vocab) (scheduler : Scheduler B) :
    Inference B S hidden kvHeads dim vocab :=
  { x with scheduler, leaders := [] }

variable [DecidableEq H]

/-- One token for each sequence sampled. -/
def commit (x : Inference B S hidden kvHeads dim vocab) (sampled : List Token) :
    Option (Inference B S hidden kvHeads dim vocab) := do
  let (plan, rows) ← x.inFlight
  if sampled.length ≠ plan.sampledSeqs.length then none
  else
    let s ← x.scheduler.commit plan sampled
    let leaders := (plan.sampledSeqs.zip rows).filter fun l => (s.seqs l.1).any (·.numGenerated = 1)
    some ⟨s, x.caches, none, leaders⟩

/-- `fork_request`: one more sequence for each token, which is to be its first. -/
def fork (blockSize : Nat) (x : Inference B S hidden kvHeads dim vocab) (parent : SeqId) (tokens : List Token) :
    Option (Inference B S hidden kvHeads dim vocab) :=
  if parent ∉ x.leaders.map Prod.fst then none
  else
    let leaders := x.leaders.eraseP (parent == ·.1)
    match x.scheduler.fork parent tokens.length with
    | (s, .error _) => some { x with scheduler := s, leaders }
    | (s, .ok fork) =>
      match copyBlocks blockSize fork.copies x.caches with
      | .error _ => none
      | .ok caches => some { x with scheduler := (seedAll (fork.ids.zip tokens) s).1, caches, leaders }

variable [Field S] [LinearOrder S] (f : Numerics S) (d : Decoder S hidden kvHeads dim vocab) (numBlocks blockSize : Nat)

/-- A plan of nothing is not run. -/
def schedule (x : Inference B S hidden kvHeads dim vocab) : Option (Inference B S hidden kvHeads dim vocab) := do
  let (s, plan) ← x.scheduler.schedule
  if plan.isEmpty then some ⟨s, x.caches, some (plan, []), []⟩
  else
    match d.forward f numBlocks blockSize plan.batch x.caches with
    | .error _ => none
    | .ok (logits, caches) => some ⟨s, caches, some (plan, logits.getD []), []⟩

def exec (x : Inference B S hidden kvHeads dim vocab) : Event → Option (Inference B S hidden kvHeads dim vocab)
  | .admitRequest requestId prompt params tenant =>
    some (x.setScheduler (x.scheduler.admitRequest requestId prompt params tenant).1)
  | .schedule => x.schedule f d numBlocks blockSize
  | .commit sampled => x.commit sampled
  | .fork parent tokens => x.fork blockSize parent tokens
  | .cancel requestId => some (x.setScheduler (x.scheduler.cancel requestId).1)
  | .finishWith id reason => some (x.setScheduler (x.scheduler.finishWith id reason))
  | .drainFinished => some (x.setScheduler x.scheduler.drainFinished.1)

def Step (x : Inference B S hidden kvHeads dim vocab) (e : Event) (x' : Inference B S hidden kvHeads dim vocab) :
    Prop :=
  x.exec f d numBlocks blockSize e = some x'

end Inference

section Copies

open Paged (copyPage)

variable {numBlocks blockSize : Nat}

/-- The copy of a block there is to one there is. -/
theorem copyBlock_eq {V : Type} {cells : List V} (size : cells.length = numBlocks * blockSize)
    {pair : BlockId × BlockId} (source : pair.1 < numBlocks) (target : pair.2 < numBlocks) :
    copyBlock blockSize pair cells = .ok (copyPage blockSize cells pair.1 pair.2) := by
  have fits {block : Nat} (lt : block < numBlocks) : block * blockSize + blockSize ≤ cells.length := by
    rw [size, ← Nat.succ_mul]
    exact Nat.mul_le_mul_right blockSize lt
  have length : ((cells.drop (pair.1 * blockSize)).take blockSize).length = blockSize := by
    have := fits source
    rw [List.length_take, List.length_drop]
    omega
  rw [copyBlock, narrow, if_pos (fits source)]
  show sliceSet cells _ _ = _
  rw [sliceSet, length, if_pos (fits target)]
  rfl

variable [Field S] [LinearOrder S] (f : Numerics S) {texts : List (Option (List Token))} {pair : BlockId × BlockId}

omit [LinearOrder S] in
theorem Operator.mirrors_copy (size : texts.length = numBlocks * blockSize) (source : pair.1 < numBlocks)
    (target : pair.2 < numBlocks) {operator : Operator S hidden kvHeads dim} {x : List Token → HiddenRow S hidden}
    {cache : LayerBuffers S hidden kvHeads dim} (mirrors : operator.Mirrors x cache texts) :
    ∃ cache', cache.copyBlock blockSize pair = .ok cache' ∧
      operator.Mirrors x cache' (copyPage blockSize texts pair.1 pair.2) := by
  have copied {V : Type} {value : List Token → V} {cells : List V} (same : Slots.Mirrors value cells texts) :
      Backend.copyBlock blockSize pair cells = .ok (copyPage blockSize cells pair.1 pair.2) :=
    copyBlock_eq (same.length.trans size) source target
  match operator, cache, mirrors with
  | .attention a, .kv layer, ⟨keys, values⟩ =>
    refine ⟨.kv (_, _), ?_, Paged.copyPage_mirrors keys .., Paged.copyPage_mirrors values ..⟩
    rw [LayerBuffers.copyBlock, copied keys, ok_bind, copied values]
    rfl
  | .conv c, .rows cells, rows =>
    replace rows : Slots.Mirrors _ cells texts := rows
    refine ⟨.rows _, ?_, Paged.copyPage_mirrors rows ..⟩
    rw [LayerBuffers.copyBlock, copied rows]
    rfl

theorem blocksMirror_copy (size : texts.length = numBlocks * blockSize) (source : pair.1 < numBlocks)
    (target : pair.2 < numBlocks) {blocks : List (Block S hidden kvHeads dim)} {x : List Token → HiddenRow S hidden}
    {caches : List (LayerBuffers S hidden kvHeads dim)} (mirrors : BlocksMirror f blocks x caches texts) :
    ∃ caches', caches.mapM (LayerBuffers.copyBlock blockSize pair) = .ok caches' ∧
      BlocksMirror f blocks x caches' (copyPage blockSize texts pair.1 pair.2) := by
  induction blocks generalizing x caches with
  | nil =>
    match caches, mirrors with
    | [], _ => exact ⟨[], rfl, trivial⟩
  | cons b blocks ih =>
    match caches, mirrors with
    | cache :: caches, ⟨first, later⟩ =>
      obtain ⟨cache', copied, first⟩ := Operator.mirrors_copy size source target first
      obtain ⟨caches', rest, later⟩ := ih later
      refine ⟨cache' :: caches', ?_, first, later⟩
      rw [List.mapM_cons, copied, ok_bind, rest]
      rfl

/-- Copies of blocks leave caches that mirror what the same copies make of a paged memory. -/
theorem copyBlocks_mirrors {d : Decoder S hidden kvHeads dim vocab} {pairs : List (BlockId × BlockId)}
    (inside : ∀ pair ∈ pairs, pair.1 < numBlocks ∧ pair.2 < numBlocks) {device : Paged.Memory (List Token)}
    {caches : List (LayerBuffers S hidden kvHeads dim)}
    (mirrors : d.Mirrors f caches (device.cells numBlocks blockSize)) :
    ∃ caches', copyBlocks blockSize pairs caches = .ok caches' ∧
      d.Mirrors f caches' ((pairs.foldl (fun d c => d.copy c.1 c.2) device).cells numBlocks blockSize) := by
  induction pairs generalizing device caches with
  | nil => exact ⟨caches, rfl, mirrors⟩
  | cons pair pairs ih =>
    obtain ⟨source, target⟩ := inside pair List.mem_cons_self
    obtain ⟨caches₁, copied, mirrors⟩ := blocksMirror_copy f Paged.cells_length source target mirrors
    rw [← Paged.cells_copy source target] at mirrors
    obtain ⟨caches', rest, mirrors⟩ := ih (fun p mem => inside p (List.mem_cons_of_mem pair mem)) mirrors
    refine ⟨caches', ?_, mirrors⟩
    unfold copyBlocks at rest ⊢
    rw [List.foldlM_cons, copied, ok_bind, rest]

end Copies

end Vapi.Backend
