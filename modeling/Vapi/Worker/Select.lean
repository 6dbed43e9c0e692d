import Vapi.Lib.Run
import Vapi.Worker.Runner
import Mathlib.Data.List.Perm.Basic

/-!
# The worker's loop

`vapi-worker/src/main.rs`: jobs and cancels in, acknowledgements out, with the
engine's thread behind two queues. What happened is kept in a log.
-/

namespace Vapi

/-- Request ids that may stand in a subject. -/
def RequestId.parse (s : String) : Option RequestId :=
  let ok := s ≠ "" ∧ s.utf8ByteSize ≤ 128 ∧ s.toList.all fun c => c.isAlphanum || c = '-' || c = '_'
  if ok then some ⟨s⟩ else none

namespace Worker

open Proto Transition

/-- The request that a cancel's subject names. -/
def named (subject : String) : Option RequestId :=
  RequestId.parse (String.ofList (subject.toList.reverse.takeWhile (· ≠ '.')).reverse)

inductive Thread
  | top
  | taking (report : Report)
  | sending (report : Report) (last : Bool)
  | exited

/-- Where the select loop is, and whether it takes jobs there. -/
inductive Loop
  | top
  | selecting (wantWork : Bool)
  | drained
  | failed

inductive Event (M : Type)
  | delivered (rid : RequestId) (m : M)
  | cancelled (rid : RequestId)
  | completed (rid : RequestId)
  | acked (rid : RequestId) (m : M)
  deriving DecidableEq

/-- The worker, with the thread's part of it. -/
structure Main (E M : Type) where
  engine : E
  failuresInARow : Nat := 0
  thread : Thread := .top
  commands : List Command := []
  reports : List Report := []
  headroom : Nat
  loop : Loop := .top
  inflight : List (RequestId × M) := []
  draining : Bool := false
  log : List (Event M) := []

/-- A branch of the select, or what the engine's thread does next. -/
inductive Label (O M : Type)
  | top
  | shutdown
  | deadline
  | cancel (subject : String)
  | job (m : M)
  | heartbeat
  | report
  | take
  | turn (o : O)
  | send

def Loop.selects : Loop → Bool
  | .selecting _ => true
  | _ => false

def Loop.wantsWork : Loop → Bool
  | .selecting wantWork => wantWork
  | _ => false

def Loop.runs : Loop → Bool
  | .drained | .failed => false
  | _ => true

/-- The report that commands are taken into. -/
def Thread.takes : Thread → Option Report
  | .top => some {}
  | .taking report => some report
  | _ => none

def Thread.hasExited : Thread → Bool
  | .exited => true
  | _ => false

variable {E O M : Type}

namespace Main

/-- The worker as it starts. -/
def start (w : WorkerEngine E O) (e : E) : Main E M := { engine := e, headroom := w.headroom e }

variable (s : Main E M)

/-- Nobody receives what is sent to a thread that is gone. -/
def send (cmd : Command) : Main E M :=
  if s.thread.hasExited then s else { s with commands := s.commands ++ [cmd] }

/-- The message of a request in flight is acknowledged. -/
def ack (rid : RequestId) : Main E M :=
  match s.inflight.find? (·.1 = rid) with
  | none => s
  | some (_, m) => { s with inflight := s.inflight.filter (·.1 ≠ rid), log := s.log ++ [.acked rid m] }

def cancelled (rid : RequestId) : Main E M :=
  ({ s with log := s.log ++ [Event.cancelled rid] }.send (.cancel rid)).ack rid

def delivered (job : Job) (m : M) : Main E M :=
  let rid := job.requestId
  let s := { s with inflight := (rid, m) :: s.inflight.filter (·.1 ≠ rid), log := s.log ++ [Event.delivered rid m] }
  if s.thread.hasExited then { s with loop := .failed } else { s.send (.admitJob job) with loop := .top }

def completed : Main E M → List RequestId → Main E M
  | s, [] => s
  | s, rid :: rest => completed ({ s with log := s.log ++ [Event.completed rid] }.ack rid) rest

variable (w : WorkerEngine E O) (maxStepFailures : Nat) (decode : M → Option Job)

/-- The thread has seen the queue empty, and takes its turn. -/
def turned (report : Report) (o : O) : Main E M :=
  let turn := w.turn maxStepFailures s.engine s.failuresInARow report o
  { s with engine := turn.engine, failuresInARow := turn.failures, thread := .sending turn.report turn.last }

/-- One step. Once the loop is left, the process has ended. -/
def exec : Label O M → Option (Main E M)
  | .top =>
    match s.loop with
    | .top =>
      if s.draining && s.inflight.isEmpty then some { s with loop := .drained }
      else some { s with loop := .selecting (!s.draining && 0 < s.headroom) }
    | _ => none
  | .shutdown => if s.loop.selects && !s.draining then some { s with draining := true, loop := .top } else none
  | .deadline =>
    if s.loop.selects && s.draining then some ({ s with loop := .top }.send (.failAll "worker shutting down")) else none
  | .cancel subject =>
    if s.loop.selects then
      match named subject with
      | none => some { s with loop := .top }
      | some rid => some ({ s with loop := .top }.cancelled rid)
    else none
  | .job m =>
    if s.loop.wantsWork then
      match decode m with
      | none => some { s with loop := .top }
      | some job => some (s.delivered job m)
    else none
  | .heartbeat => if s.loop.selects then some { s with loop := .top } else none
  | .report =>
    if s.loop.selects then
      match s.reports with
      | [] => if s.thread.hasExited then some { s with loop := .failed } else none
      | report :: rest => some ({ s with reports := rest, loop := .top }.completed report.completed)
    else none
  | .take =>
    if s.loop.runs then
      match s.thread.takes, s.commands with
      | some report, cmd :: rest =>
        let handled := w.handle s.engine report cmd
        some { s with engine := handled.1, thread := .taking handled.2, commands := rest }
      | _, _ => none
    else none
  | .turn o =>
    if s.loop.runs && s.commands.isEmpty then
      match s.thread with
      | .top => if w.isIdle s.engine then none else some (s.turned w maxStepFailures {} o)
      | .taking report => some (s.turned w maxStepFailures report o)
      | _ => none
    else none
  | .send =>
    if s.loop.runs then
      match s.thread with
      | .sending report last =>
        if last then some { s with reports := s.reports ++ [report], thread := .exited }
        else some { s with reports := s.reports ++ [report], thread := .top, headroom := w.headroom s.engine }
      | _ => none
    else none

def Step (s : Main E M) (l : Label O M) (t : Main E M) : Prop := s.exec w maxStepFailures decode l = some t

end Main

end Worker

end Vapi
