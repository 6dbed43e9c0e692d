import Vapi.Engine.Scheduler
import Vapi.Worker.Constraint
import Vapi.Worker.Decision

/-!
# The engine that generates

`Engine` of `vapi-worker/src/engine.rs`: the scheduler, and what is kept of
each sequence and of each request beside it. What the backend and the sampler
do in a step is given, as is what the spill tier puts back into the pool, and
`none` is a panic.
-/

namespace Vapi.Worker

open Cache Engine Proto Structured

/-- What the host has of a row: all of it, part of it, or only the token that
the device drew. -/
inductive RowKind
  | full
  | part
  | token
  deriving DecidableEq

/-- What the backend and the sampler give for one row. -/
structure Draw where
  token : Token
  kind : RowKind := .full
  /-- What is read off the row for a request that asks. -/
  logprobs : Option (ℚ × List TokenLogprob) := none
  /-- The first tokens of the leader's siblings, drawn from the same row. -/
  siblings : List Token := []
  /-- Whether the siblings' blocks can be copied. -/
  copies : Bool := true

/-- A step's draws, unless the forward fails. -/
structure Draws where
  rows : List Draw := []
  failure : Option Error := none

/-- Per-sequence streaming state. -/
structure Stream where
  detok : IncrementalDetokenizer
  text : StreamState := {}
  lastToken : Token := 0
  constraint : Option Constraint := none

variable {H : Type} {B : Blake3 H}

structure GenerationEngine (B : Blake3 H) where
  scheduler : Scheduler B
  decode : List Nat → Text
  tokenId : Text → Option Nat
  compileFormat : ResponseFormat → Except Error Schema
  workerId : String
  /-- Whether there is a spill tier. -/
  spills : Bool := false
  streams : SeqId → Option Stream := fun _ => none
  seqToRequest : SeqId → Option RequestId := fun _ => none
  choiceOf : SeqId → Option Nat := fun _ => none
  /-- How many siblings a sequence gets when it has its first token. -/
  pendingForks : SeqId → Option Nat := fun _ => none
  /-- How many choices of a request are still to be done. -/
  openChoices : RequestId → Option Nat := fun _ => none

namespace GenerationEngine

def new (scheduler : Scheduler B) (decode : List Nat → Text) (tokenId : Text → Option Nat)
    (compileFormat : ResponseFormat → Except Error Schema) (workerId : String) (spills : Bool) : GenerationEngine B :=
  { scheduler, decode, tokenId, compileFormat, workerId, spills }

def setScheduler (e : GenerationEngine B) (scheduler : Scheduler B) : GenerationEngine B := { e with scheduler }

def setPool (e : GenerationEngine B) (pool : BlockPool H) : GenerationEngine B :=
  e.setScheduler (e.scheduler.setPool pool)

def setStream (e : GenerationEngine B) (id : SeqId) (st : Stream) : GenerationEngine B :=
  { e with streams := Function.update e.streams id (some st) }

/-- Enter a sequence as one of a request's choices. -/
def enroll (e : GenerationEngine B) (id : SeqId) (rid : RequestId) (choice : Nat) (st : Stream) : GenerationEngine B :=
  { e.setStream id st with
    seqToRequest := Function.update e.seqToRequest id (some rid)
    choiceOf := Function.update e.choiceOf id (some choice) }

def setOpen (e : GenerationEngine B) (rid : RequestId) (n : Option Nat) : GenerationEngine B :=
  { e with openChoices := Function.update e.openChoices rid n }

def setPending (e : GenerationEngine B) (id : SeqId) (n : Option Nat) : GenerationEngine B :=
  { e with pendingForks := Function.update e.pendingForks id n }

def isIdle (e : GenerationEngine B) : Bool :=
  e.scheduler.numRunning = 0 && e.scheduler.numWaiting = 0 && !e.scheduler.hasFinished

/-- Greedy choices would be identical, so `n` only counts when the request samples. -/
def choicesOf (params : SamplingParams) : Nat := if params.isGreedy then 1 else max params.n 1

/-- Queue a request, unless its format cannot be compiled or the scheduler refuses it. -/
def admitRequest (e : GenerationEngine B) (rid : RequestId) (prompt : List Token) (params : SamplingParams)
    (tenant : String) (promoteFromSpill : BlockPool H → BlockPool H) : GenerationEngine B × Except Error SeqId :=
  match params.responseFormat.mapM e.compileFormat with
  | .error err => (e, .error err)
  | .ok schema =>
    let constraint := schema.map fun schema =>
      Constraint.start schema (params.constraintStartsAfter.map String.toList) e.tokenId
    let e := e.setPool (promoteFromSpill e.scheduler.pool)
    match e.scheduler.admitRequest rid prompt params tenant with
    | (scheduler, .error err) => (e.setScheduler scheduler, .error err)
    | (scheduler, .ok id) =>
      let e := (e.setScheduler scheduler).enroll id rid 0
        { detok := .withPrompt (prompt.map UInt32.toNat), constraint }
      let choices := choicesOf params
      let e := if 1 < choices then e.setPending id (some (choices - 1)) else e
      (e.setOpen rid (some choices), .ok id)

def cancel (e : GenerationEngine B) (rid : RequestId) : GenerationEngine B × Bool :=
  let (scheduler, first) := e.scheduler.cancel rid
  (e.setScheduler scheduler, first.isSome)

/-- The requests of the sequences that are held, one entry for each sequence. -/
def requests (e : GenerationEngine B) : List RequestId :=
  (List.range e.scheduler.nextId).filterMap e.seqToRequest

/-- Fail every sequence the engine holds. -/
def failAll (e : GenerationEngine B) (message : String) : GenerationEngine B × StepOutput :=
  let rids := e.requests
  let scheduler := (rids.foldl (fun s rid => (s.cancel rid).1) e.scheduler).drainFinished.1
  ({ e.setScheduler scheduler with streams := fun _ => none, seqToRequest := fun _ => none },
    { events := rids.map fun rid => (rid, .failed message), completed := rids, didWork := true })

/-- Take what the pool evicted, to be exported. -/
def spillEvicted (e : GenerationEngine B) : GenerationEngine B :=
  e.setPool (if e.spills then e.scheduler.pool.takeEvicted.1 else e.scheduler.pool)

/-- The events of the sequences a plan starts. -/
def startedBy (e : GenerationEngine B) (plan : StepPlan) : List (RequestId × Delta) :=
  plan.started.filterMap fun (id, cached) => (e.seqToRequest id).map fun rid => (rid, .started e.workerId cached)

/-- Advance a sequence's constraint with what was sampled; one that rejects it is dropped. -/
def sampleRow (e : GenerationEngine B) (id : SeqId) (x : Draw) : Option (GenerationEngine B) := do
  let st ← e.streams id
  if x.kind = .token then some e
  else some (e.setStream id { st with constraint := st.constraint.bind fun c => c.push (e.decode [x.token.toNat]) })

def sampleLoop : List (SeqId × Draw) → GenerationEngine B → Option (GenerationEngine B)
  | [], e => some e
  | (id, x) :: rows, e => do
    let e ← e.sampleRow id x
    sampleLoop rows e

/-- A leader whose siblings are to be made: how many, what was drawn for them, and its parameters. -/
structure ForkToMake where
  leader : SeqId
  extra : Nat
  draw : Draw
  params : SamplingParams

def paramsOf (e : GenerationEngine B) (id : SeqId) : SamplingParams := (e.scheduler.seqs id).elim {} (·.params)

/-- The siblings are drawn from the leader's whole row; without one a single choice is served. -/
def forksToMake (e : GenerationEngine B) (rows : List (SeqId × Draw)) : List ForkToMake :=
  rows.filterMap fun (id, x) =>
    if x.kind = .token then none
    else (e.pendingForks id).map fun extra => ⟨id, if x.kind = .full then extra else 0, x, e.paramsOf id⟩

/-- Stream the text of a token, unless it ends the sequence. -/
def emitRow (e : GenerationEngine B) (id : SeqId) (x : Draw) :
    Option (GenerationEngine B × List (RequestId × Delta) × List SeqId) :=
  if x.token ∈ e.scheduler.eosTokenIds then some (e, [], [])
  else match e.seqToRequest id, e.streams id with
    | some rid, some st => do
      let params := e.paramsOf id
      let (text, detok) ← st.detok.push x.token.toNat e.decode
      let (left, out) := emitWithStopStrings st.text params.stop text
      let read := if params.logprobs.isSome ∧ x.kind = .full then x.logprobs else none
      some (e.setStream id { st with detok, text := left, lastToken := x.token },
        out.toList.map fun text =>
          (rid, .token ((e.choiceOf id).getD 0) text x.token (read.map Prod.fst) (read.map Prod.snd)),
        if left.stopped then [id] else [])
    | _, _ => some (e, [], [])

def emitLoop : List (SeqId × Draw) → GenerationEngine B →
    Option (GenerationEngine B × List (RequestId × Delta) × List SeqId)
  | [], e => some (e, [], [])
  | (id, x) :: rows, e => do
    let (e, events, stopped) ← e.emitRow id x
    let (e, more, others) ← emitLoop rows e
    some (e, events ++ more, stopped ++ others)

def reasonOf (seq : Sequence) : FinishReason :=
  match seq.status with
  | .finished reason => reason
  | _ => .error

/-- Text held back for a stop string that never came. -/
def release (st : Option Stream) (rid : RequestId) (choice : Nat) (reason : FinishReason) : List (RequestId × Delta) :=
  match st with
  | none => []
  | some st =>
    if st.text.held ≠ [] ∧ reason ≠ .cancelled then [(rid, .token choice st.text.held st.lastToken none none)] else []

/-- Tell of a sequence that is done, and of its request when it was the last. -/
def drainOne (e : GenerationEngine B) (id : SeqId) (seq : Sequence) :
    GenerationEngine B × List (RequestId × Delta) × List RequestId :=
  let choice := (e.choiceOf id).getD 0
  let stream := e.streams id
  let gone : GenerationEngine B := { e.setPending id none with
    streams := Function.update e.streams id none
    choiceOf := Function.update e.choiceOf id none }
  match e.seqToRequest id with
  | none => (gone, [], [])
  | some rid =>
    let left := (e.openChoices rid).elim 0 (· - 1)
    let e := { gone.setOpen rid (if left = 0 then none else some left) with
      seqToRequest := Function.update e.seqToRequest id none }
    (e, release stream rid choice (reasonOf seq) ++
        [(rid, .done choice (reasonOf seq) seq.promptLen seq.numGenerated)],
      if left = 0 then [rid] else [])

def drainLoop : List (SeqId × Sequence) → GenerationEngine B →
    GenerationEngine B × List (RequestId × Delta) × List RequestId
  | [], e => (e, [], [])
  | (id, seq) :: rest, e =>
    let (e, events, completed) := e.drainOne id seq
    let (e, more, others) := drainLoop rest e
    (e, events ++ more, completed ++ others)

/-- Tell of everything that is done. -/
def drain (e : GenerationEngine B) : GenerationEngine B × StepOutput :=
  let (scheduler, sequences) := e.scheduler.drainFinished
  let (e, events, completed) := drainLoop sequences (e.setScheduler scheduler)
  (e, { events, completed, didWork := !sequences.isEmpty })

variable [DecidableEq H]

/-- Give the siblings their first tokens in turn, up to the first that is refused; whether none was. -/
def seedSiblings (rid : RequestId) (prompt : List Token) (stop : StopCondition) :
    List SeqId → Nat → List Token → GenerationEngine B →
      Option (GenerationEngine B × List (RequestId × Delta) × Bool)
  | [], _, _, e => some (e, [], true)
  | _ :: _, _, [], _ => none
  | id :: ids, choice, token :: tokens, e =>
    match e.scheduler.seedFork id token with
    | (scheduler, .error _) => some (e.setScheduler scheduler, [], false)
    | (scheduler, .ok ()) => do
      let e := e.setScheduler scheduler
      let (text, detok) ← (IncrementalDetokenizer.withPrompt (prompt.map UInt32.toNat)).push token.toNat e.decode
      let (left, out) :=
        if token ∈ e.scheduler.eosTokenIds then (({} : StreamState), none) else emitWithStopStrings {} stop text
      let e := e.enroll id rid choice { detok, text := left, lastToken := token }
      let (e, events, all) ← seedSiblings rid prompt stop ids (choice + 1) tokens e
      some (e, (out.toList.map fun text => (rid, .token choice text token none none)) ++ events, all)

/-- Turn one prefilled sequence into `extra` more; whether that worked. -/
def forkRequest (e : GenerationEngine B) (f : ForkToMake) :
    Option (GenerationEngine B × List (RequestId × Delta) × Bool) :=
  match e.seqToRequest f.leader with
  | none => some (e, [], true)
  | some rid =>
    match e.scheduler.fork f.leader f.extra with
    | (scheduler, .error _) => some (e.setScheduler scheduler, [], false)
    | (scheduler, .ok fork) =>
      let e := e.setScheduler scheduler
      if fork.copies ≠ [] ∧ ¬f.draw.copies then some (e, [], false)
      else
        let prompt := (scheduler.seqs f.leader).elim [] Sequence.prompt
        seedSiblings rid prompt f.params.stop fork.ids 1 f.draw.siblings e

/-- The choices that will never run are closed. -/
def closeSiblings (rid : RequestId) (extra : Nat) : List (RequestId × Delta) :=
  (List.range' 1 extra).map fun choice => (rid, .done choice .error 0 0)

def makeFork (e : GenerationEngine B) (f : ForkToMake) : Option (GenerationEngine B × List (RequestId × Delta)) :=
  if f.extra = 0 then
    let e := match e.seqToRequest f.leader with
      | some rid => e.setOpen rid (some 1)
      | none => e
    some (e.setPending f.leader none, [])
  else do
    let (e, events, made) ← e.forkRequest f
    if made then some (e.setPending f.leader none, events)
    else match e.seqToRequest f.leader with
      | none => some (e.setPending f.leader none, events)
      | some rid =>
        some ((e.setOpen rid (some 1)).setPending f.leader none, events ++ closeSiblings rid f.extra)

def forkLoop : List ForkToMake → GenerationEngine B → Option (GenerationEngine B × List (RequestId × Delta))
  | [], e => some (e, [])
  | f :: forks, e => do
    let (e, events) ← e.makeFork f
    let (e, more) ← forkLoop forks e
    some (e, events ++ more)

/-- Sample what was planned, stream it and commit it. -/
def commitPlan (e : GenerationEngine B) (plan : StepPlan) (draws : List Draw) :
    Option (GenerationEngine B × List (RequestId × Delta)) := do
  let rows := plan.sampledSeqs.zip draws
  let e ← sampleLoop rows e
  let (e, texts, stopped) ← emitLoop rows e
  -- before the commit, so a stop string that lands on the last token is reported as one
  let e := e.setScheduler (stopped.foldl (fun s id => s.finishWith id .stop) e.scheduler)
  let scheduler ← e.scheduler.commit plan (draws.map Draw.token)
  some (e.setScheduler scheduler, texts)

/-- Run what was planned, and make the forks. -/
def runPlan (e : GenerationEngine B) (plan : StepPlan) (draws : List Draw) :
    Option (GenerationEngine B × List (RequestId × Delta)) := do
  let forks := e.forksToMake (plan.sampledSeqs.zip draws)
  let (e, texts) ← e.commitPlan plan draws
  let (e, forked) ← forkLoop forks e
  some (e, texts ++ forked)

/-- Run one scheduler step. -/
def step (e : GenerationEngine B) (draws : Draws) : Option (GenerationEngine B × Except Error StepOutput) := do
  let (scheduler, plan) ← e.scheduler.schedule
  let e := (e.setScheduler scheduler).spillEvicted
  let started := e.startedBy plan
  if plan.batch.tokens = [] then
    let (e, out) := e.drain
    some (e, .ok { out with events := started ++ out.events })
  else match draws.failure with
    | some err => some (e, .error err)
    | none =>
      -- one draw for each row
      if draws.rows.length ≠ plan.sampledSeqs.length then none
      else do
        let (e, told) ← e.runPlan plan draws.rows
        let (e, out) := e.drain
        some (e, .ok { out with events := started ++ told ++ out.events, didWork := true })

end GenerationEngine

/-- What the engine's thread asks of the engine. -/
inductive Request (H : Type)
  | admitRequest (rid : RequestId) (prompt : List Token) (params : SamplingParams) (tenant : String)
      (promoteFromSpill : BlockPool H → BlockPool H)
  | cancel (rid : RequestId)
  | failAll (message : String)
  | step (draws : Draws)

inductive Reply
  | admitted (r : Except Error SeqId)
  | cancelled (known : Bool)
  | failed (out : StepOutput)
  | stepped (r : Except Error StepOutput)

namespace Reply

def output : Reply → StepOutput
  | .failed out | .stepped (.ok out) => out
  | .admitted _ | .cancelled _ | .stepped (.error _) => {}

end Reply

namespace GenerationEngine

variable [DecidableEq H]

def exec (e : GenerationEngine B) : Request H → Option (GenerationEngine B × Reply)
  | .admitRequest rid prompt params tenant promoteFromSpill =>
    let (e, r) := e.admitRequest rid prompt params tenant promoteFromSpill
    some (e, .admitted r)
  | .cancel rid =>
    let (e, known) := e.cancel rid
    some (e, .cancelled known)
  | .failAll message =>
    let (e, out) := e.failAll message
    some (e, .failed out)
  | .step draws => (e.step draws).map fun r => (r.1, .stepped r.2)

/-- One call on the engine, with its reply. -/
def Step (e : GenerationEngine B) (l : Request H × Reply) (e' : GenerationEngine B) : Prop :=
  e.exec l.1 = some (e', l.2)

end GenerationEngine

end Vapi.Worker
