import Vapi.Worker.Decision

/-!
# The engine's thread

`vapi-worker/src/runner.rs`: commands in, one report out of each turn of the
loop. The engine is a parameter, and what it is assumed to do with requests is
said once, for all its operations.
-/

namespace Vapi

/-- The text of an error. -/
def Error.display : Error → String
  | .invalidRequest message => "invalid request: " ++ message
  | .contextLengthExceeded tokens limit =>
    "request exceeds context window: " ++ toString tokens ++ " tokens > " ++ toString limit
  | .engine message => "engine: " ++ message

namespace Worker

open Proto

/-- What the worker's thread needs of an engine. What a device does in a step is not the engine's to say. -/
structure WorkerEngine (E O : Type) where
  admitJob : E → Job → E × Option Error
  cancel : E → RequestId → E × Bool
  failAll : E → String → E × StepOutput
  step : E → O → E × Except Error StepOutput
  isIdle : E → Bool
  headroom : E → Nat
  sequence : E → RequestId → Delta → E × DeltaMsg
  forget : E → RequestId → E

inductive Command
  | admitJob (job : Job)
  | cancel (rid : RequestId)
  | failAll (message : String)

/-- What the engine's thread reports of a turn. -/
structure Report where
  deltas : List (RequestId × DeltaMsg) := []
  completed : List RequestId := []

variable {E O : Type}

namespace WorkerEngine

variable (w : WorkerEngine E O)

def stamp : E → List (RequestId × Delta) → E × List (RequestId × DeltaMsg)
  | e, [] => (e, [])
  | e, (rid, delta) :: rest =>
    let now := w.sequence e rid delta
    let later := stamp now.1 rest
    (later.1, (rid, now.2) :: later.2)

def forgetAll : E → List RequestId → E
  | e, [] => e
  | e, rid :: rest => forgetAll (w.forget e rid) rest

/-- Events go out with their numbers, and what is completed is forgotten. -/
def tell (e : E) (report : Report) (out : StepOutput) : E × Report :=
  let stamped := w.stamp e out.events
  (w.forgetAll stamped.1 out.completed, ⟨report.deltas ++ stamped.2, report.completed ++ out.completed⟩)

def handle (e : E) (report : Report) : Command → E × Report
  | .admitJob job =>
    let rid := job.requestId
    let admitted := w.admitJob e job
    match admitted.2 with
    | none => (admitted.1, report)
    | some err =>
      let stamped := w.sequence admitted.1 rid (.failed err.display)
      (w.forget stamped.1 rid, ⟨report.deltas ++ [(rid, stamped.2)], report.completed ++ [rid]⟩)
  | .cancel rid => (w.forget (w.cancel e rid).1 rid, report)
  | .failAll message =>
    let failed := w.failAll e message
    w.tell failed.1 report failed.2

/-- What a turn leaves behind: the engine, its failures in a row, the report, and
whether it is the last. -/
structure Turn (E : Type) where
  engine : E
  failures : Nat
  report : Report
  last : Bool

/-- A step, unless nothing is held. One that fails fails every request in flight. -/
def turn (maxStepFailures : Nat) (e : E) (failures : Nat) (report : Report) (o : O) : Turn E :=
  if w.isIdle e then ⟨e, failures, report, false⟩
  else
    let stepped := w.step e o
    match stepped.2 with
    | .ok out =>
      let told := w.tell stepped.1 report out
      ⟨told.1, 0, told.2, false⟩
    | .error err =>
      let failed := w.failAll stepped.1 ("engine step failed: " ++ err.display)
      let told := w.tell failed.1 report failed.2
      ⟨told.1, failures + 1, told.2, 0 < maxStepFailures && maxStepFailures ≤ failures + 1⟩

end WorkerEngine

/-- From one engine to the next: nothing new is held but what it takes, nothing
goes but what is reported or dropped, and nothing dropped goes on. -/
structure Moves (Ok : E → Prop) (Held Live : E → RequestId → Prop) (takes drops : RequestId → Prop) (e e' : E)
    (completed : List RequestId) : Prop where
  ok : Ok e'
  held : ∀ rid, Held e' rid → Held e rid ∨ takes rid
  kept : ∀ rid, Held e rid ∨ takes rid → Held e' rid ∨ rid ∈ completed ∨ drops rid
  reported : ∀ rid ∈ completed, ¬Held e' rid ∧ (Held e rid ∨ takes rid)
  live : ∀ rid, Live e' rid → (Live e rid ∨ takes rid) ∧ ¬drops rid

def Nobody (_ : RequestId) : Prop := False

/-- An engine holds a request from its admission until it reports it as
completed or drops it, and `Live` are those with an unfinished sequence. -/
structure Lawful (w : WorkerEngine E O) (Ok : E → Prop) (Held Live : E → RequestId → Prop) : Prop where
  live : ∀ e rid, Ok e → Live e rid → Held e rid
  idle : ∀ e, Ok e → w.isIdle e = true → ∀ rid, ¬Held e rid
  admitJob : ∀ e job, Ok e → ¬Held e job.requestId → (w.admitJob e job).2 = none →
    Moves Ok Held Live (· = job.requestId) Nobody e (w.admitJob e job).1 []
  refuse : ∀ e job err, Ok e → ¬Held e job.requestId → (w.admitJob e job).2 = some err →
    Moves Ok Held Live Nobody Nobody e (w.admitJob e job).1 []
  cancel : ∀ e rid, Ok e → Moves Ok Held Live Nobody (· = rid) e (w.cancel e rid).1 []
  failAll : ∀ e message, Ok e →
    Moves Ok Held Live Nobody Nobody e (w.failAll e message).1 (w.failAll e message).2.completed ∧
      ∀ rid, ¬Held (w.failAll e message).1 rid
  step : ∀ e o out, Ok e → (w.step e o).2 = .ok out →
    Moves Ok Held Live Nobody Nobody e (w.step e o).1 out.completed
  fails : ∀ e o err, Ok e → (w.step e o).2 = .error err → Moves Ok Held Live Nobody Nobody e (w.step e o).1 []
  sequence : ∀ e rid delta, Ok e → Moves Ok Held Live Nobody Nobody e (w.sequence e rid delta).1 []
  forget : ∀ e rid, Ok e → Moves Ok Held Live Nobody Nobody e (w.forget e rid) []

namespace Command

/-- The requests a command puts before the engine. -/
def admitted : Command → List RequestId
  | .admitJob job => [job.requestId]
  | .cancel _ | .failAll _ => []

/-- The request a command drops. -/
def drops (cmd : Command) (rid : RequestId) : Prop := cmd = .cancel rid

end Command

variable {Ok : E → Prop} {Held Live : E → RequestId → Prop} {takes drops : RequestId → Prop} {e e' e'' : E}
  {completed more : List RequestId}

theorem Moves.stay (ok : Ok e) : Moves Ok Held Live Nobody Nobody e e [] where
  ok := ok
  held _ := .inl
  kept rid held := .inl (held.resolve_right id)
  reported := by simp
  live rid live := ⟨.inl live, id⟩

/-- What an engine goes on to do takes nothing new. -/
theorem Moves.later (first : Moves Ok Held Live takes drops e e' completed)
    (second : Moves Ok Held Live Nobody Nobody e' e'' more) :
    Moves Ok Held Live takes drops e e'' (completed ++ more) where
  ok := second.ok
  held rid held := first.held rid ((second.held rid held).resolve_right id)
  kept rid held := by
    rcases first.kept rid held with held | reported | dropped
    · rcases second.kept rid (.inl held) with held | reported | none
      · exact .inl held
      · exact .inr (.inl (List.mem_append_right _ reported))
      · exact none.elim
    · exact .inr (.inl (List.mem_append_left _ reported))
    · exact .inr (.inr dropped)
  reported rid mem := by
    rcases List.mem_append.mp mem with mem | mem
    · obtain ⟨gone, was⟩ := first.reported rid mem
      exact ⟨fun held => gone ((second.held rid held).resolve_right id), was⟩
    · obtain ⟨gone, was⟩ := second.reported rid mem
      exact ⟨gone, first.held rid (was.resolve_right id)⟩
  live rid live := first.live rid ((second.live rid live).1.resolve_right id)

variable {w : WorkerEngine E O}

theorem Lawful.stamp (laws : Lawful w Ok Held Live) (ok : Ok e) (events : List (RequestId × Delta)) :
    Moves Ok Held Live Nobody Nobody e (w.stamp e events).1 [] := by
  induction events generalizing e with
  | nil => exact .stay ok
  | cons event rest ih =>
    have now := laws.sequence e event.1 event.2 ok
    exact now.later (ih now.ok)

theorem Lawful.forgetAll (laws : Lawful w Ok Held Live) (ok : Ok e) (rids : List RequestId) :
    Moves Ok Held Live Nobody Nobody e (w.forgetAll e rids) [] := by
  induction rids generalizing e with
  | nil => exact .stay ok
  | cons rid rest ih =>
    have now := laws.forget e rid ok
    exact now.later (ih now.ok)

theorem Lawful.tell (laws : Lawful w Ok Held Live) (ok : Ok e) (report : Report) (out : StepOutput) :
    Moves Ok Held Live Nobody Nobody e (w.tell e report out).1 [] := by
  have stamped := laws.stamp ok out.events
  exact stamped.later (laws.forgetAll stamped.ok out.completed)

theorem Lawful.handle (laws : Lawful w Ok Held Live) (ok : Ok e) (report : Report) (cmd : Command)
    (fresh : ∀ rid ∈ cmd.admitted, ¬Held e rid) :
    ∃ completed, (w.handle e report cmd).2.completed = report.completed ++ completed ∧
      Moves Ok Held Live (· ∈ cmd.admitted) cmd.drops e (w.handle e report cmd).1 completed := by
  cases cmd with
  | admitJob job =>
    have fresh := fresh job.requestId (List.mem_singleton.mpr rfl)
    cases answer : (w.admitJob e job).2 with
    | none =>
      have moves := laws.admitJob e job ok fresh answer
      have handled : w.handle e report (.admitJob job) = ((w.admitJob e job).1, report) := by
        simp only [WorkerEngine.handle, answer]
      rw [handled]
      refine ⟨[], (List.append_nil _).symm, moves.ok, ?_, ?_, by simp, ?_⟩
      all_goals simp only [Command.admitted, List.mem_singleton]
      · exact moves.held
      · intro rid held
        exact (moves.kept rid held).imp_right (Or.imp_right False.elim)
      · intro rid live
        exact ⟨(moves.live rid live).1, fun drops => by cases drops⟩
    | some err =>
      have refused := laws.refuse e job err ok fresh answer
      let stamped := w.sequence (w.admitJob e job).1 job.requestId (.failed err.display)
      have handled : w.handle e report (.admitJob job) = (w.forget stamped.1 job.requestId,
          ⟨report.deltas ++ [(job.requestId, stamped.2)], report.completed ++ [job.requestId]⟩) := by
        simp only [WorkerEngine.handle, answer, stamped]
      have sequenced : Moves Ok Held Live Nobody Nobody _ stamped.1 [] := laws.sequence _ _ _ refused.ok
      have moves := refused.later (sequenced.later (laws.forget _ job.requestId sequenced.ok))
      have gone : ∀ rid, Held (w.forget stamped.1 job.requestId) rid → Held e rid := by
        intro rid held
        exact (moves.held rid held).resolve_right id
      rw [handled]
      refine ⟨[job.requestId], rfl, moves.ok, ?_, ?_, ?_, ?_⟩
      all_goals simp only [Command.admitted, List.mem_singleton]
      · exact fun rid held => .inl (gone rid held)
      · rintro rid (held | rfl)
        · exact .inl ((moves.kept rid (.inl held)).resolve_right (by simp [Nobody]))
        · exact .inr (.inl rfl)
      · rintro rid rfl
        exact ⟨fun held => fresh (gone _ held), .inr rfl⟩
      · intro rid live
        exact ⟨.inl ((moves.live rid live).1.resolve_right id), fun drops => by cases drops⟩
  | cancel rid =>
    have cancelled := laws.cancel e rid ok
    have moves := cancelled.later (laws.forget _ rid cancelled.ok)
    refine ⟨[], by simp [WorkerEngine.handle], moves.ok, ?_, ?_, by simp, ?_⟩
    · exact fun rid held => .inl ((moves.held rid held).resolve_right id)
    · intro rid' held
      have held := held.resolve_right (by simp [Command.admitted])
      rcases moves.kept rid' (.inl held) with held | reported | rfl
      · exact .inl held
      · exact absurd reported (by simp)
      · exact .inr (.inr rfl)
    · intro rid' live
      obtain ⟨was, other⟩ := moves.live rid' live
      exact ⟨.inl (was.resolve_right id), fun drops => other (Command.cancel.inj drops).symm⟩
  | failAll message =>
    have failed := (laws.failAll e message ok).1
    have moves := failed.later (laws.tell failed.ok report (w.failAll e message).2)
    rw [List.append_nil] at moves
    refine ⟨_, rfl, moves.ok, ?_, ?_, ?_, ?_⟩
    · exact fun rid held => .inl ((moves.held rid held).resolve_right id)
    · intro rid held
      have held := held.resolve_right (by simp [Command.admitted])
      exact (moves.kept rid (.inl held)).imp_right (Or.imp_right False.elim)
    · intro rid mem
      obtain ⟨gone, was⟩ := moves.reported rid mem
      exact ⟨gone, .inl (was.resolve_right id)⟩
    · intro rid live
      exact ⟨.inl ((moves.live rid live).1.resolve_right id), fun drops => by cases drops⟩

/-- A turn ends the thread with nothing left in the engine. -/
theorem Lawful.turn (laws : Lawful w Ok Held Live) (ok : Ok e) (maxStepFailures failures : Nat) (report : Report)
    (o : O) :
    ∃ completed, (w.turn maxStepFailures e failures report o).report.completed = report.completed ++ completed ∧
      Moves Ok Held Live Nobody Nobody e (w.turn maxStepFailures e failures report o).engine completed ∧
      ((w.turn maxStepFailures e failures report o).last = true →
        ∀ rid, ¬Held (w.turn maxStepFailures e failures report o).engine rid) := by
  unfold WorkerEngine.turn
  split
  · exact ⟨[], by simp, .stay ok, by simp⟩
  dsimp only
  split
  · rename_i out answer
    have stepped := laws.step e o out ok answer
    have moves := stepped.later (laws.tell stepped.ok report out)
    rw [List.append_nil] at moves
    exact ⟨out.completed, rfl, moves, by simp⟩
  · rename_i err answer
    have failing := laws.fails e o err ok answer
    obtain ⟨failed, none⟩ := laws.failAll (w.step e o).1 ("engine step failed: " ++ err.display) failing.ok
    have told := laws.tell failed.ok report (w.failAll (w.step e o).1 ("engine step failed: " ++ err.display)).2
    have moves := failing.later (failed.later told)
    rw [List.nil_append, List.append_nil] at moves
    refine ⟨_, rfl, moves, fun _ rid held => none rid ?_⟩
    exact (told.held rid held).resolve_right id

end Worker

end Vapi
