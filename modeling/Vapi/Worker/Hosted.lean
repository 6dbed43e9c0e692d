import Vapi.Worker.Runner
import Mathlib.Data.List.Nodup

/-!
# The single-pass engine behind the thread

The decision engine holds a request while it is in its queue, and is what the
worker's thread assumes.
-/

namespace Vapi.Worker

open Proto Engine DecisionEngine

/-- The engine with the streams' numbers. -/
abbrev Hosted := DecisionEngine × (RequestId → DeltaSeq)

abbrev Forward := EncoderBatch → Except Error (List Engine.RowScores)

def decisionWorker : WorkerEngine Hosted Forward where
  admitJob e job :=
    match e.1.admitJob job with
    | .ok next => ((next, e.2), none)
    | .error err => (e, some err)
  cancel e rid :=
    let cancelled := e.1.cancel rid
    ((cancelled.1, e.2), cancelled.2)
  failAll e message :=
    let failed := e.1.failAll message
    ((failed.1, e.2), failed.2)
  step e forward :=
    match e.1.step forward with
    | .ok (next, out) => ((next, e.2), .ok out)
    | .error err => (e, .error err)
  isIdle e := e.1.isIdle
  headroom e := e.1.headroom
  sequence e rid delta :=
    let next := (e.2 rid).next delta
    ((e.1, Function.update e.2 rid next.1), next.2)
  forget e rid := (e.1, Function.update e.2 rid {})

/-- The requests in the queue. -/
def queueIds (e : DecisionEngine) : List RequestId := e.queue.map Pending.requestId

def InQueue (e : Hosted) (rid : RequestId) : Prop := rid ∈ queueIds e.1

def Distinct (e : Hosted) : Prop := (queueIds e.1).Nodup

theorem admitJob_queue {e e' : DecisionEngine} {job : Job} (ok : e.admitJob job = .ok e') :
    queueIds e' = queueIds e ++ [job.requestId] := by
  unfold DecisionEngine.admitJob at ok
  split at ok
  · cases ok
  split at ok
  · cases ok
  split at ok
  · cases ok
  dsimp only at ok
  split at ok
  · cases ok
  · obtain rfl := Except.ok.inj ok
    simp [queueIds]

theorem scatter_ids (queue : List Pending) (answers : List ((Nat × Nat) × Engine.RowScores)) :
    (scatter queue answers).map Pending.requestId = queue.map Pending.requestId := by
  induction answers generalizing queue with
  | nil => rfl
  | cons answer rest ih =>
    refine (ih _).trans (List.ext_getElem? fun i => ?_)
    rw [score, List.getElem?_map, List.getElem?_map, List.getElem?_modify]
    split <;> cases queue[i]? <;> rfl

/-- A pass keeps in the queue what it does not complete. -/
theorem answerComplete_ids (queue : List Pending) :
    (queue.map Pending.requestId).Perm
      ((answerComplete queue).1.map Pending.requestId ++ (answerComplete queue).2.2) := by
  induction queue with
  | nil => exact .refl _
  | cons p rest ih =>
    unfold answerComplete
    dsimp only
    split
    · exact (ih.cons p.requestId).trans List.perm_middle.symm
    · exact ih.cons p.requestId

theorem step_ids {e e' : DecisionEngine} {forward : Forward} {out : StepOutput} (ok : e.step forward = .ok (e', out)) :
    (queueIds e).Perm (queueIds e' ++ out.completed) := by
  unfold DecisionEngine.step at ok
  dsimp only at ok
  split at ok
  · obtain ⟨rfl, rfl⟩ := Prod.mk.inj (Except.ok.inj ok)
    exact (List.append_nil _).symm ▸ .refl _
  split at ok
  · cases ok
  split at ok
  · cases ok
  · rename_i answers _ _
    obtain ⟨rfl, rfl⟩ := Prod.mk.inj (Except.ok.inj ok)
    exact (List.Perm.of_eq (scatter_ids e.queue _).symm).trans (answerComplete_ids _)

theorem moves_queue {e e' : Hosted} {completed : List RequestId} (distinct : Distinct e)
    (perm : (queueIds e.1).Perm (queueIds e'.1 ++ completed)) :
    Moves Distinct InQueue InQueue Nobody Nobody e e' completed := by
  obtain ⟨left, -, apart⟩ := List.nodup_append.mp (perm.nodup_iff.mp distinct)
  refine ⟨left, ?_, ?_, ?_, ?_⟩
  · exact fun rid mem => .inl (perm.mem_iff.mpr (List.mem_append_left _ mem))
  · intro rid mem
    exact (List.mem_append.mp (perm.mem_iff.mp (mem.resolve_right id))).imp_right .inl
  · intro rid mem
    exact ⟨fun here => apart rid here rid mem rfl, .inl (perm.mem_iff.mpr (List.mem_append_right _ mem))⟩
  · exact fun rid mem => ⟨.inl (perm.mem_iff.mpr (List.mem_append_left _ mem)), id⟩

theorem decisionWorker_lawful : Lawful decisionWorker Distinct InQueue InQueue where
  live _ _ _ := id
  idle e _ idle rid mem := by
    have empty : e.1.queue = [] := List.isEmpty_iff.mp idle
    rw [InQueue, queueIds, empty] at mem
    cases mem
  admitJob e job distinct fresh admitted := by
    unfold decisionWorker at admitted ⊢
    dsimp only at admitted ⊢
    split at admitted
    · rename_i next ok
      have queue := admitJob_queue ok
      have held : ∀ rid, InQueue (next, e.2) rid ↔ InQueue e rid ∨ rid = job.requestId := by
        intro rid
        rw [InQueue, InQueue, queue, List.mem_append, List.mem_singleton]
      refine ⟨?_, fun rid => (held rid).mp, fun rid is => .inl ((held rid).mpr is), by simp, ?_⟩
      swap
      · exact fun rid is => ⟨(held rid).mp is, id⟩
      rw [Distinct, queue]
      exact List.nodup_append.mpr ⟨distinct, List.nodup_singleton _, fun rid mem rid' mem' same =>
        fresh (List.mem_singleton.mp mem' ▸ same ▸ mem)⟩
    · cases admitted
  refuse e job err distinct fresh refused := by
    unfold decisionWorker at refused ⊢
    dsimp only at refused ⊢
    split at refused
    · cases refused
    · exact .stay distinct
  cancel e rid distinct := by
    have held : ∀ k, InQueue ((e.1.cancel rid).1, e.2) k ↔ InQueue e k ∧ k ≠ rid := by
      intro k
      simp only [InQueue, queueIds, DecisionEngine.cancel, List.mem_map, List.mem_filter, decide_eq_true_eq]
      constructor
      · rintro ⟨p, ⟨mem, other⟩, rfl⟩
        exact ⟨⟨p, mem, rfl⟩, other⟩
      · rintro ⟨⟨p, mem, rfl⟩, other⟩
        exact ⟨p, ⟨mem, other⟩, rfl⟩
    refine ⟨?_, fun k is => .inl ((held k).mp is).1, ?_, by simp, ?_⟩
    · exact distinct.sublist (List.filter_sublist.map _)
    · intro k is
      by_cases own : k = rid
      · exact .inr (.inr own)
      · exact .inl ((held k).mpr ⟨is.resolve_right id, own⟩)
    · exact fun k is => ⟨.inl ((held k).mp is).1, ((held k).mp is).2⟩
  failAll e message distinct := ⟨moves_queue distinct (.refl _), fun rid mem => by cases mem⟩
  step e forward out distinct ok := by
    unfold decisionWorker at ok ⊢
    dsimp only at ok ⊢
    split at ok
    · rename_i next out' stepped
      obtain rfl := Except.ok.inj ok
      exact moves_queue distinct (step_ids stepped)
    · cases ok
  fails e forward err distinct failed := by
    unfold decisionWorker at failed ⊢
    dsimp only at failed ⊢
    split at failed
    · cases failed
    · exact .stay distinct
  sequence e rid delta distinct := moves_queue distinct ((List.append_nil _).symm ▸ .refl _)
  forget e rid distinct := moves_queue distinct ((List.append_nil _).symm ▸ .refl _)

end Vapi.Worker
