import Vapi.Engine.Ends
import Vapi.Worker.Generator

/-!
# What is outstanding of a request

The choices of a request that are still to be told as done: one for each of its
sequences, and those of the siblings that its leader is to get. The engine
counts them, and what a call tells and what it leaves is what there was.
-/

namespace Vapi.Worker

open Cache Engine Proto

namespace GenerationEngine

variable {H : Type} {B : Blake3 H} {e e' u : GenerationEngine B} {rid : RequestId} {id : SeqId}

/-- The choices that are told through one sequence. -/
def owed (e : GenerationEngine B) (id : SeqId) : List Nat :=
  (e.choiceOf id).getD 0 :: (e.pendingForks id).elim [] (List.range' 1)

def outstanding (e : GenerationEngine B) (rid : RequestId) : List Nat := (e.scheduler.sequencesOf rid).flatMap e.owed

/-- What holds of the engine whatever becomes of one request. -/
structure Registered (e : GenerationEngine B) : Prop where
  queued : Queued e.scheduler
  filed : Filed e.scheduler
  fresh : ∀ id, e.scheduler.nextId ≤ id → e.pendingForks id = none

/-- A request's sequences are known as its own, one that waits for siblings is
alone, and what is outstanding is counted. -/
structure Booked (rid : RequestId) (e : GenerationEngine B) : Prop where
  own : ∀ id, e.seqToRequest id = some rid ↔ id ∈ e.scheduler.sequencesOf rid
  alone : ∀ id extra, id ∈ e.scheduler.sequencesOf rid → e.pendingForks id = some extra → e.scheduler.sequencesOf rid = [id]
  due : e.scheduler.sequencesOf rid ≠ [] → e.openChoices rid = some (e.outstanding rid).length

/-- None of a request's sequences that have finished waits for siblings. -/
def Settled (rid : RequestId) (e : GenerationEngine B) : Prop :=
  ∀ id ∈ e.scheduler.sequencesOf rid, id ∈ e.scheduler.finished → e.pendingForks id = none

/-- Nothing that is kept of a request has changed. -/
structure Steady (rid : RequestId) (e e' : GenerationEngine B) : Prop where
  sequences : e'.scheduler.sequencesOf rid = e.scheduler.sequencesOf rid
  owner : ∀ id, e'.seqToRequest id = some rid ↔ e.seqToRequest id = some rid
  choice : ∀ id ∈ e.scheduler.sequencesOf rid, e'.choiceOf id = e.choiceOf id
  pending : ∀ id ∈ e.scheduler.sequencesOf rid, e'.pendingForks id = e.pendingForks id
  count : e'.openChoices rid = e.openChoices rid

namespace Steady

theorem refl (e : GenerationEngine B) : Steady rid e e := ⟨rfl, fun _ => .rfl, fun _ _ => rfl, fun _ _ => rfl, rfl⟩

theorem trans (h : Steady rid e e') (k : Steady rid e' u) : Steady rid e u where
  sequences := k.sequences.trans h.sequences
  owner id := (k.owner id).trans (h.owner id)
  choice id mem := (k.choice id (h.sequences ▸ mem)).trans (h.choice id mem)
  pending id mem := (k.pending id (h.sequences ▸ mem)).trans (h.pending id mem)
  count := k.count.trans h.count

theorem outstanding (h : Steady rid e e') : e'.outstanding rid = e.outstanding rid := by
  unfold GenerationEngine.outstanding
  rw [h.sequences]
  apply List.flatMap_congr
  intro id mem
  unfold owed
  rw [h.choice id mem, h.pending id mem]

theorem booked (h : Steady rid e e') (b : Booked rid e) : Booked rid e' where
  own id := by rw [h.owner, b.own, h.sequences]
  alone id extra mem waits := by
    rw [h.sequences] at mem ⊢
    exact b.alone id extra mem (h.pending id mem ▸ waits)
  due some_ := by
    rw [h.count, h.outstanding]
    exact b.due (h.sequences ▸ some_)

end Steady

/-- A call on the scheduler alone, which enters no sequence. -/
theorem setScheduler_steady {ended : SeqId → Prop} {s : Scheduler B} (h : Ends ended e.scheduler s) :
    Steady rid e (e.setScheduler s) :=
  ⟨h.sequencesOf rid, fun _ => .rfl, fun _ _ => rfl, fun _ _ => rfl, rfl⟩

theorem Registered.setScheduler {ended : SeqId → Prop} {s : Scheduler B} (reg : Registered e) (h : Ends ended e.scheduler s)
    (queued : Queued s) (filed : Filed s) : Registered (e.setScheduler s) :=
  ⟨queued, filed, fun id later => reg.fresh id (h.nextId ▸ later)⟩

theorem Settled.steady {ended : SeqId → Prop} (settled : Settled rid e) (same : Steady rid e e')
    (h : Ends ended e.scheduler e'.scheduler)
    (others : ∀ id ∈ e.scheduler.sequencesOf rid, ended id → e.pendingForks id = none) : Settled rid e' := by
  intro id mem done
  rw [same.sequences] at mem
  rw [same.pending id mem]
  rcases h.finished id done with before | now
  · exact settled id mem before
  · exact others id mem now

/-- The pool is no part of the books. -/
theorem setPool_kept (rid : RequestId) (e : GenerationEngine B) (pool : BlockPool H) (reg : Registered e) :
    Registered (e.setPool pool) ∧ Ends (fun _ => False) e.scheduler (e.setPool pool).scheduler ∧ Steady rid e (e.setPool pool) :=
  ⟨⟨setPool_queued reg.queued pool, ⟨reg.filed.fresh, reg.filed.list, reg.filed.mem⟩, reg.fresh⟩, ⟨rfl, rfl, fun _ => .inl⟩,
    rfl, fun _ => .rfl, fun _ _ => rfl, fun _ _ => rfl, rfl⟩

section Told

/-- The choice that is told as done. -/
def doneChoice : Delta → Option Nat
  | .done choice _ _ _ => some choice
  | _ => none

/-- The choices of a request that are told as done. -/
def dones (rid : RequestId) (events : List (RequestId × Delta)) : List Nat :=
  events.filterMap fun event => if event.1 = rid then doneChoice event.2 else none

theorem dones_append (rid : RequestId) (es fs : List (RequestId × Delta)) :
    dones rid (es ++ fs) = dones rid es ++ dones rid fs := List.filterMap_append

theorem dones_eq_nil {events : List (RequestId × Delta)} (h : ∀ event ∈ events, event.1 ≠ rid ∨ doneChoice event.2 = none) :
    dones rid events = [] := by
  apply List.filterMap_eq_nil_iff.mpr
  intro event mem
  rcases h event mem with other | quiet
  · exact if_neg other
  · rw [quiet]
    exact ite_self none

theorem dones_closeSiblings (rid : RequestId) (extra : Nat) : dones rid (closeSiblings rid extra) = List.range' 1 extra := by
  unfold dones closeSiblings
  rw [List.filterMap_map]
  exact (List.filterMap_congr fun choice _ => if_pos rfl).trans List.filterMap_some

end Told

end GenerationEngine

end Vapi.Worker
