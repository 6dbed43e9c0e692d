import Vapi.Engine.Operations
import Vapi.Lib.Paged

/-!
# The engine and its device

What `Engine::step` does around the scheduler: a scheduled batch is run, which
writes its rows to the device, and then committed; a leader that has its first
token is forked, the copies are made, and the children get theirs. What a row
writes is left to a function of the sequence and the device.
-/

namespace Vapi.Engine

open Vapi.Cache
open Paged (Memory)
open Transition (Run Guarded)

/-- One token of a batch, as a kernel sees it. -/
structure Row where
  id : SeqId
  token : Token
  position : Nat
  slot : Nat
  table : List BlockId
  deriving DecidableEq, Repr

/-- The rows of the sequences in turn, as many as the cumulative lengths say. -/
def rowsOf : List SeqId → List UInt32 → List (List BlockId) → List (Token × UInt32 × UInt32) → List Row
  | id :: ids, lo :: hi :: cu, table :: tables, cells =>
    (cells.take (hi - lo).toNat).map (fun c => ⟨id, c.1, c.2.1.toNat, c.2.2.toNat, table⟩) ++
      rowsOf ids (hi :: cu) tables (cells.drop (hi - lo).toNat)
  | _, _, _, _ => []

def StepPlan.rows (plan : StepPlan) : List Row :=
  rowsOf plan.batchSeqs plan.batch.cuSeqlensQ plan.batch.blockTables
    (plan.batch.tokens.zip (plan.batch.positions.zip plan.batch.slotMapping))

variable {H : Type} {B : Blake3 H} {KV : Type}

/-- What a row of a sequence writes to its slot. -/
abbrev Kernel (KV : Type) := Sequence → Memory KV → Row → KV

/-- Run a batch: each row writes to its slot, in order. -/
def forward (kernel : Kernel KV) (s : Scheduler B) (rows : List Row) (device : Memory KV) : Memory KV :=
  rows.foldl (fun device row =>
    match s.seqs row.id with
    | some seq => device.write s.cfg.blockSize row.slot (kernel seq device row)
    | none => device) device

structure World (B : Blake3 H) (KV : Type) where
  scheduler : Scheduler B
  device : Memory KV
  /-- The plan whose batch has run and is not committed yet. -/
  inFlight : Option StepPlan
  /-- The sequences that got their first token in the commit just made. -/
  leaders : List SeqId

inductive Event
  | admitRequest (requestId : RequestId) (prompt : List Token) (params : SamplingParams) (tenant : String)
  | schedule
  | commit (sampled : List Token)
  | fork (parent : SeqId) (tokens : List Token)
  | cancel (requestId : RequestId)
  | finishWith (id : SeqId) (reason : FinishReason)
  | drainFinished

namespace World

def new (s : Scheduler B) : World B KV := ⟨s, fun _ _ => none, none, []⟩

/-- Another scheduler state, and no leader any more. -/
@[simps]
def setScheduler (w : World B KV) (scheduler : Scheduler B) : World B KV :=
  { w with scheduler, leaders := [] }

end World

variable [DecidableEq H]

/-- Give the children their tokens in turn, up to the first that is refused;
whether all got theirs. -/
def seedAll : List (SeqId × Token) → Scheduler B → Scheduler B × Bool
  | [], s => (s, true)
  | (id, token) :: rest, s =>
    match s.seedFork id token with
    | (s, .error _) => (s, false)
    | (s, .ok ()) => seedAll rest s

namespace World

def schedule (kernel : Kernel KV) (w : World B KV) : Option (World B KV) := do
  let (s, plan) ← w.scheduler.schedule
  some ⟨s, forward kernel s plan.rows w.device, some plan, []⟩

/-- One token for each sequence sampled. -/
def commit (w : World B KV) (sampled : List Token) : Option (World B KV) := do
  let plan ← w.inFlight
  if sampled.length ≠ plan.sampledSeqs.length then none
  else
    let s ← w.scheduler.commit plan sampled
    some ⟨s, w.device, none, plan.sampledSeqs.filter fun id => (s.seqs id).any (·.numGenerated = 1)⟩

/-- One more sequence for each token, which is to be its first. -/
def fork (w : World B KV) (parent : SeqId) (tokens : List Token) : Option (World B KV) :=
  if parent ∉ w.leaders then none
  else
    let leaders := w.leaders.erase parent
    match w.scheduler.fork parent tokens.length with
    | (s, .error _) => some { w with scheduler := s, leaders }
    | (s, .ok fork) =>
      some { w with
        scheduler := (seedAll (fork.ids.zip tokens) s).1
        device := fork.copies.foldl (fun d c => d.copy c.1 c.2) w.device
        leaders }

def exec (kernel : Kernel KV) (w : World B KV) : Event → Option (World B KV)
  | .admitRequest requestId prompt params tenant =>
    some (w.setScheduler (w.scheduler.admitRequest requestId prompt params tenant).1)
  | .schedule => w.schedule kernel
  | .commit sampled => w.commit sampled
  | .fork parent tokens => w.fork parent tokens
  | .cancel requestId => some (w.setScheduler (w.scheduler.cancel requestId).1)
  | .finishWith id reason => some (w.setScheduler (w.scheduler.finishWith id reason))
  | .drainFinished => some (w.setScheduler w.scheduler.drainFinished.1)

def Step (kernel : Kernel KV) (w : World B KV) (e : Event) (w' : World B KV) : Prop :=
  w.exec kernel e = some w'

/-- A fork gives every child its first token, or makes none. -/
def Seeds (w : World B KV) (e : Event) : Prop :=
  ∀ parent tokens, e = .fork parent tokens →
    match w.scheduler.fork parent tokens.length with
    | (s, .error _) => s.seqs = w.scheduler.seqs
    | (s, .ok fork) => (seedAll (fork.ids.zip tokens) s).2 = true

/-- The events in turn. -/
def runs (kernel : Kernel KV) : List Event → World B KV → Option (World B KV)
  | [], w => some w
  | e :: es, w => do
    let w ← w.exec kernel e
    runs kernel es w

end World

theorem runs_steps {kernel : Kernel KV} {es : List Event} {w w' : World B KV}
    (e : World.runs kernel es w = some w') : Run (World.Step kernel) w es w' := by
  induction es generalizing w with
  | nil =>
    obtain rfl := Option.some.inj e
    exact .nil
  | cons x es ih =>
    obtain ⟨w₁, step, rest⟩ := bind_some e
    exact .cons step (ih rest)

/-- Steps that are no forks meet any condition on forks. -/
theorem runs_calm {kernel : Kernel KV} {allow : World B KV → Event → Prop} {es : List Event} {w w' : World B KV}
    (e : World.runs kernel es w = some w')
    (calm : ∀ x ∈ es, ∀ w, allow w x) : Run (Guarded allow (World.Step kernel)) w es w' := by
  induction es generalizing w with
  | nil =>
    obtain rfl := Option.some.inj e
    exact .nil
  | cons x es ih =>
    obtain ⟨w₁, step, rest⟩ := bind_some e
    exact .cons ⟨calm x (by simp) w, step⟩ (ih rest fun y hy => calm y (by simp [hy]))

end Vapi.Engine
