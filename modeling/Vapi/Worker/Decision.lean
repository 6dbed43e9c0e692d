import Vapi.Engine.Encoder

/-!
# The single-pass engine

A request arrives as a set of independent rows, one per question; a step takes
as many of them as the budget allows, runs one forward pass, and answers every
request whose rows are all scored.
-/

namespace Vapi.Worker

open Proto Engine

/-- A request waiting for, or part-way through, its answers. -/
structure Pending where
  requestId : RequestId
  rows : List EncoderRow
  /-- One slot per row, filled as passes complete. -/
  scores : List (Option Proto.RowScores)
  promptTokens : Nat

namespace Pending

def unanswered (p : Pending) : List Nat := (List.range p.rows.length).filter fun i => p.scores[i]? = some none

def complete (p : Pending) : Bool := p.scores.all Option.isSome

end Pending

structure StepOutput where
  events : List (RequestId × Delta) := []
  completed : List RequestId := []
  didWork : Bool := false

structure DecisionEngine where
  /-- The longest row the backend accepts. -/
  maxContext : Nat
  queue : List Pending := []
  maxRequests : Nat
  maxRows : Nat
  maxBatchedTokens : Nat
  workerId : String

namespace DecisionEngine

def new (maxContext maxRequests maxRows maxBatchedTokens : Nat) (workerId : String) : DecisionEngine :=
  { maxContext, maxRequests := max maxRequests 1, maxRows := max maxRows 1,
    maxBatchedTokens := max maxBatchedTokens 1, workerId }

def encoderRow (part : List Token × DecisionRow) : EncoderRow := ⟨part.1, part.2.markers, part.2.qtype⟩

def admitJob (e : DecisionEngine) (job : Job) : Except Error DecisionEngine :=
  if job.kind ≠ .decision then
    .error (.invalidRequest ("this worker serves decisions; it was handed a " ++ job.kind.debug ++ " job"))
  else match job.decisionRows with
    | .error why => .error (.invalidRequest ("malformed decision job: " ++ why))
    | .ok parts =>
      if parts = [] then .error (.invalidRequest "decision job has no questions")
      else
        let rows := parts.map encoderRow
        match EncoderBatch.validate ⟨rows⟩ e.maxContext with
        | .error err => .error err
        | .ok () => .ok { e with
            queue := e.queue ++ [⟨job.requestId, rows, rows.map fun _ => none, job.promptTokens.length⟩] }

def cancel (e : DecisionEngine) (requestId : RequestId) : DecisionEngine × Bool :=
  let queue := e.queue.filter (·.requestId ≠ requestId)
  ({ e with queue }, e.queue.length ≠ queue.length)

def failAll (e : DecisionEngine) (message : String) : DecisionEngine × StepOutput :=
  ({ e with queue := [] },
    { events := e.queue.map fun p => (p.requestId, .failed message), completed := e.queue.map (·.requestId),
      didWork := !e.queue.isEmpty })

def isIdle (e : DecisionEngine) : Bool := e.queue.isEmpty

def headroom (e : DecisionEngine) : Nat := e.maxRequests - e.queue.length

/-- Every row still to be scored, in the order `select` considers them, from position `q` of the queue on. -/
def unanswered (q : Nat) : List Pending → List (Nat × Nat)
  | [] => []
  | p :: rest => p.unanswered.map (fun r => (q, r)) ++ unanswered (q + 1) rest

def rowAt (queue : List Pending) (at_ : Nat × Nat) : Option EncoderRow := queue[at_.1]?.bind (·.rows[at_.2]?)

/-- The loop of `select` over the rows that are left. -/
def selectFrom (e : DecisionEngine) (picked : List (Nat × Nat)) (width : Nat) : List (Nat × Nat) → List (Nat × Nat)
  | [] => picked
  | at_ :: rest =>
    let len := ((rowAt e.queue at_).map EncoderRow.len).getD 0
    let nextWidth := max width len
    let cost := (picked.length + 1) * nextWidth
    if picked ≠ [] ∧ (e.maxRows ≤ picked.length ∨ e.maxBatchedTokens < cost) then picked
    else e.selectFrom (picked ++ [at_]) nextWidth rest

/-- Which `(request, row)` pairs the next pass will carry. -/
def select (e : DecisionEngine) : List (Nat × Nat) := e.selectFrom [] 0 (unanswered 0 e.queue)

/-- The requests whose first row is about to be scored. -/
def startedBy (e : DecisionEngine) (picked : List (Nat × Nat)) : List (RequestId × Delta) :=
  picked.filterMap fun (q, r) => e.queue[q]?.bind fun p =>
    if p.scores.all Option.isNone && r = 0 then some (p.requestId, .started e.workerId 0) else none

/-- Put one row's scores in its slot. -/
def score (queue : List Pending) (at_ : Nat × Nat) (scores : Engine.RowScores) : List Pending :=
  queue.modify at_.1 fun p => { p with scores := p.scores.set at_.2 (some ⟨scores.logits, scores.act⟩) }

def scatter (queue : List Pending) : List ((Nat × Nat) × Engine.RowScores) → List Pending
  | [] => queue
  | (at_, scores) :: rest => scatter (score queue at_ scores) rest

/-- The queue after a pass, and what is told of the requests whose rows are all in. -/
def answerComplete : List Pending → List Pending × List (RequestId × Delta) × List RequestId
  | [] => ([], [], [])
  | p :: rest =>
    let (queue, events, completed) := answerComplete rest
    if p.complete then
      (queue, (p.requestId, .decided (p.scores.filterMap fun s => s) p.promptTokens) :: events, p.requestId :: completed)
    else (p :: queue, events, completed)

/-- One pass. The backend answers with one entry a row, or fails. -/
def step (e : DecisionEngine) (forward : EncoderBatch → Except Error (List Engine.RowScores)) :
    Except Error (DecisionEngine × StepOutput) :=
  let picked := e.select
  if picked = [] then .ok (e, {})
  else
    let started := e.startedBy picked
    let batch : EncoderBatch := ⟨picked.filterMap (rowAt e.queue)⟩
    match forward batch with
    | .error err => .error err
    | .ok answers =>
      if answers.length ≠ batch.numRows then
        .error (.engine ("backend answered " ++ toString answers.length ++ " of " ++ toString batch.numRows ++ " rows"))
      else
        let (queue, events, completed) := answerComplete (scatter e.queue (picked.zip answers))
        .ok ({ e with queue }, { events := started ++ events, completed, didWork := true })

/-- What the engine's thread asks of it. -/
inductive Call
  | admitJob (job : Job)
  | step (forward : EncoderBatch → Except Error (List Engine.RowScores))
  | cancel (requestId : RequestId)
  | failAll (message : String)

/-- One call: the engine after it, and the deltas it has for the gateways. A call that fails changes nothing. -/
def exec (e : DecisionEngine) : Call → DecisionEngine × List (RequestId × Delta)
  | .admitJob job =>
    match e.admitJob job with
    | .ok e' => (e', [])
    | .error _ => (e, [])
  | .step forward =>
    match e.step forward with
    | .ok (e', out) => (e', out.events)
    | .error _ => (e, [])
  | .cancel requestId => ((e.cancel requestId).1, [])
  | .failAll message => ((e.failAll message).1, (e.failAll message).2.events)

def after (e : DecisionEngine) : List Call → DecisionEngine
  | [] => e
  | call :: calls => (e.exec call).1.after calls

def events (e : DecisionEngine) : List Call → List (RequestId × Delta)
  | [] => []
  | call :: calls => (e.exec call).2 ++ (e.exec call).1.events calls

/-- The job a call admits. -/
def admits (e : DecisionEngine) : Call → List Job
  | .admitJob job => if (e.admitJob job).isOk then [job] else []
  | .step _ | .cancel _ | .failAll _ => []

def admitted (e : DecisionEngine) : List Call → List Job
  | [] => []
  | call :: calls => e.admits call ++ (e.exec call).1.admitted calls

/-- Whether a call is a pass that did work. -/
def works (e : DecisionEngine) : Call → Bool
  | .step forward => (e.step forward).toOption.any (·.2.didWork)
  | .admitJob _ | .cancel _ | .failAll _ => false

/-- How many passes a run of calls completes. -/
def passes (e : DecisionEngine) : List Call → Nat
  | [] => 0
  | call :: calls => (if e.works call then 1 else 0) + (e.exec call).1.passes calls

end DecisionEngine

end Vapi.Worker
