import Vapi.Engine.Lineage

/-!
# Sequences and their requests

The index by request lists the live sequences of each request, and a sequence
is handed out once, when it has finished, and then is nowhere.
-/

namespace Vapi.Engine

open Vapi.Cache
open Transition (Run)

variable {H : Type} {B : Blake3 H}

/-- The index by request lists just the live sequences of each request, once. -/
structure Filed (s : Scheduler B) : Prop where
  fresh : ∀ id seq, s.seqs id = some seq → id < s.nextId
  list : ∀ requestId ids, s.byRequest requestId = some ids → ids ≠ [] ∧ ids.Nodup
  mem : ∀ requestId id, id ∈ s.sequencesOf requestId ↔ ∃ seq, s.seqs id = some seq ∧ seq.requestId = requestId

/-- A call that lets no sequence go. -/
structure Enrolls (s t : Scheduler B) : Prop where
  nextId : s.nextId ≤ t.nextId
  old : ∀ id, id < s.nextId → (t.seqs id).isSome = (s.seqs id).isSome
  new : ∀ id, s.nextId ≤ id → id < t.nextId → (t.seqs id).isSome
  filed : Filed s → Filed t

namespace Enrolls

variable {s t u : Scheduler B}

theorem trans (h : Enrolls s t) (k : Enrolls t u) : Enrolls s u where
  nextId := Nat.le_trans h.nextId k.nextId
  old id lt := (k.old id (Nat.lt_of_lt_of_le lt h.nextId)).trans (h.old id lt)
  new id le lt := by
    by_cases entered : id < t.nextId
    · rw [k.old id entered]
      exact h.new id le entered
    · exact k.new id (Nat.not_lt.mp entered) lt
  filed f := k.filed (h.filed f)

/-- The same sequences, by what request they are of. -/
theorem keeps (byRequest : t.byRequest = s.byRequest) (nextId : t.nextId = s.nextId)
    (seqs : ∀ id, (t.seqs id).map (·.requestId) = (s.seqs id).map (·.requestId)) : Enrolls s t where
  nextId := Nat.le_of_eq nextId.symm
  old id _ := by
    have := congrArg Option.isSome (seqs id)
    simpa using this
  new id le lt := absurd lt (Nat.not_lt.mpr (nextId ▸ le))
  filed f := by
    have live : ∀ id requestId, (∃ seq, t.seqs id = some seq ∧ seq.requestId = requestId) ↔
        ∃ seq, s.seqs id = some seq ∧ seq.requestId = requestId := by
      intro id requestId
      rw [← Option.map_eq_some_iff, ← Option.map_eq_some_iff, seqs]
    refine ⟨fun id seq known => ?_, fun requestId ids known => f.list requestId ids (byRequest ▸ known),
      fun requestId id => ?_⟩
    · obtain ⟨old, known, -⟩ := (live id seq.requestId).mp ⟨seq, known, rfl⟩
      exact nextId ▸ f.fresh id old known
    · rw [live, ← f.mem]
      unfold Scheduler.sequencesOf
      rw [byRequest]

theorem refl (s : Scheduler B) : Enrolls s s := .keeps rfl rfl fun _ => rfl

theorem update {id : SeqId} {old new : Sequence} (live : s.seqs id = some old) (byRequest : t.byRequest = s.byRequest)
    (nextId : t.nextId = s.nextId) (seqs : t.seqs = Function.update s.seqs id (some new))
    (same : new.requestId = old.requestId) : Enrolls s t :=
  .keeps byRequest nextId fun x => by
    rw [seqs, Function.update_apply]
    split
    · rename_i here
      rw [here, live, Option.map_some, Option.map_some, same]
    · rfl

theorem register (s : Scheduler B) (seq : Sequence) : Enrolls s (s.register seq) where
  nextId := Nat.le_succ _
  old id lt := by
    rw [Scheduler.register_seqs, Function.update_of_ne (Nat.ne_of_lt lt)]
  new id le lt := by
    obtain rfl : id = s.nextId := Nat.le_antisymm (Nat.lt_succ_iff.mp lt) le
    rw [Scheduler.register_seqs, Function.update_self]
    rfl
  filed f := by
    -- the id it goes under is no sequence's yet, and in no list
    have unlisted : ∀ requestId, s.nextId ∉ s.sequencesOf requestId := by
      intro requestId listed
      obtain ⟨old, known, -⟩ := (f.mem requestId s.nextId).mp listed
      exact absurd (f.fresh s.nextId old known) (Nat.lt_irrefl _)
    have lists : ∀ requestId, (s.register seq).sequencesOf requestId =
        if requestId = seq.requestId then s.sequencesOf seq.requestId ++ [s.nextId] else s.sequencesOf requestId := by
      intro requestId
      unfold Scheduler.sequencesOf
      rw [Scheduler.register_byRequest, Function.update_apply]
      split <;> rfl
    refine ⟨fun id other known => ?_, fun requestId ids known => ?_, fun requestId id => ?_⟩
    · rw [Scheduler.register_seqs, Function.update_apply] at known
      split at known
      · rename_i here
        exact here ▸ Nat.lt_succ_self _
      · exact Nat.lt_succ_of_lt (f.fresh id other known)
    · rw [Scheduler.register_byRequest, Function.update_apply] at known
      split at known
      · obtain rfl := Option.some.inj known
        refine ⟨by simp, List.nodup_append.mpr ⟨?_, List.nodup_singleton _, fun a ha b hb => ?_⟩⟩
        · cases there : s.byRequest seq.requestId with
          | none => exact List.nodup_nil
          | some ids => exact (f.list _ ids there).2
        · rw [List.mem_singleton.mp hb]
          exact fun same => unlisted seq.requestId (same ▸ ha)
      · exact f.list requestId ids known
    · rw [lists, Scheduler.register_seqs, Function.update_apply]
      by_cases here : id = s.nextId
      · rw [if_pos here]
        by_cases mine : requestId = seq.requestId
        · simp [mine, here]
        · simp only [mine, if_false, Option.some.injEq]
          exact ⟨fun listed => absurd (here ▸ listed) (unlisted requestId),
            fun ⟨other, same, its⟩ => absurd (same ▸ its.symm) mine⟩
      · rw [if_neg here, ← f.mem]
        split
        · rename_i mine
          simp [mine, here]
        · rfl

end Enrolls

variable [DecidableEq H]

section Calls

variable {s t : Scheduler B}

theorem passStep_enrolls {p p' : Pass B} (step : PassStep p p') : Enrolls p.scheduler p'.scheduler := by
  cases step with
  | batch run new live chunk took pushed => exact .update live rfl rfl rfl rfl
  | preempt run new live chunk took => exact .update live rfl rfl rfl rfl
  | start head live budget room hit fits took => exact .update live rfl rfl rfl rfl
  | refuse head live hit took => exact .keeps rfl rfl fun _ => rfl

theorem passSteps_enrolls {p p' : Pass B} (steps : PassSteps p p') : Enrolls p.scheduler p'.scheduler := by
  induction steps with
  | refl => exact .refl _
  | tail _ step ih => exact ih.trans (passStep_enrolls step)

omit [DecidableEq H] in
theorem admit_enrolls (s : Scheduler B) (requestId : RequestId) (prompt : List Token) (params : SamplingParams)
    (tenant : String) : Enrolls s (s.admitRequest requestId prompt params tenant).1 := by
  unfold Scheduler.admitRequest
  split
  · exact .refl s
  · split
    · exact .refl s
    · exact (Enrolls.register s _).trans (.keeps rfl rfl fun _ => rfl)

omit [DecidableEq H] in
theorem finish_enrolls (s : Scheduler B) (id : SeqId) (reason : FinishReason) : Enrolls s (s.finish id reason) := by
  rcases finish_cases s id reason with same | ⟨seq, live, -, eq⟩
  · rw [same]
    exact .refl s
  · rw [eq]
    exact .update live rfl rfl rfl rfl

omit [DecidableEq H] in
theorem cancel_enrolls (s : Scheduler B) (requestId : RequestId) : Enrolls s (s.cancel requestId).1 := by
  rw [cancel_eq]
  generalize s.sequencesOf requestId = ids
  induction ids generalizing s with
  | nil => exact .refl s
  | cons id ids ih => exact (finish_enrolls s id .cancelled).trans (ih _)

theorem forkChildren_enrolls (src : Scheduler.ForkSource) (n : Nat) (out : Fork) :
    Enrolls s (Scheduler.forkChildren src n out s).1 := by
  induction n generalizing s out with
  | zero => exact .refl s
  | succ n ih =>
    unfold Scheduler.forkChildren
    rcases Scheduler.childBlocks src s.cfg.blockSize s.pool with ⟨pool, e | ⟨blocks, copy⟩⟩
    · exact .keeps rfl rfl fun _ => rfl
    · have pooled : Enrolls s (s.setPool pool) := .keeps rfl rfl fun _ => rfl
      have entered : Enrolls (s.setPool pool) ((s.setPool pool).addFork src blocks) :=
        (Enrolls.register _ _).trans (.keeps rfl rfl fun _ => rfl)
      exact (pooled.trans entered).trans (ih _)

theorem fork_enrolls (s : Scheduler B) (parent : SeqId) (n : Nat) : Enrolls s (s.fork parent n).1 := by
  unfold Scheduler.fork
  cases s.seqs parent with
  | none => exact .refl s
  | some seq =>
    simp only
    split
    · exact .refl s
    · exact forkChildren_enrolls _ n _

theorem seedFork_enrolls (s : Scheduler B) (id : SeqId) (token : Token) : Enrolls s (s.seedFork id token).1 := by
  unfold Scheduler.seedFork
  cases live : s.seqs id with
  | none => exact .refl s
  | some seq =>
    simp only
    split <;> exact .update live rfl rfl rfl rfl

omit [DecidableEq H] in
theorem advanceLoop_enrolls {ids : List SeqId} {cu : List UInt32} (e : Scheduler.advanceLoop ids cu s = some t) :
    Enrolls s t :=
  advanceLoop_preserves (P := Enrolls s)
    (fun s' id q h => by
      refine h.trans ?_
      unfold Scheduler.advanceOne
      cases live : s'.seqs id with
      | none => exact .refl s'
      | some seq =>
        refine .update live rfl rfl rfl ?_
        split <;> rfl) (.refl s) e

omit [DecidableEq H] in
theorem pushSampled_enrolls (s : Scheduler B) (id : SeqId) (token : Token) : Enrolls s (s.pushSampled id token) := by
  cases live : s.seqs id with
  | none =>
    unfold Scheduler.pushSampled
    simp only [live]
    exact .refl s
  | some seq =>
    have pushed : Enrolls s (s.setSeq id (seq.pushToken token)) := .update live rfl rfl rfl rfl
    rcases pushSampled_cases live token with e | ⟨reason, -, e⟩ <;> rw [e]
    · exact pushed
    · exact pushed.trans (finish_enrolls _ id reason)

omit [DecidableEq H] in
theorem sampledLoop_enrolls (s : Scheduler B) (pairs : List (SeqId × Token)) : Enrolls s (s.sampledLoop pairs) := by
  unfold Scheduler.sampledLoop
  induction pairs generalizing s with
  | nil => exact .refl s
  | cons p pairs ih => exact (pushSampled_enrolls s p.1 p.2).trans (ih _)

theorem publishOne_enrolls {id : SeqId} (e : s.publishOne id = some t) : Enrolls s t := by
  rcases publishOne_cases e with rfl | ⟨seq, pool, swaps, blocks, pool', live, -, -, -, -, rfl⟩
  · exact .refl t
  · exact .update live rfl rfl rfl rfl

theorem publishLoop_enrolls {ids : List SeqId} (e : Scheduler.publishLoop ids s = some t) : Enrolls s t := by
  induction ids generalizing s with
  | nil => exact Option.some.inj e ▸ .refl s
  | cons id ids ih =>
    obtain ⟨s₁, one, rest⟩ := bind_some e
    exact (publishOne_enrolls one).trans (ih rest)

theorem commit_enrolls {plan : StepPlan} {sampled : List Token} (e : s.commit plan sampled = some t) : Enrolls s t := by
  obtain ⟨s₁, advanced, e⟩ := bind_some e
  have pushed := (advanceLoop_enrolls advanced).trans (sampledLoop_enrolls s₁ (plan.sampledSeqs.zip sampled))
  unfold Scheduler.publishFullBlocks at e
  split at e
  · exact pushed.trans (publishLoop_enrolls e)
  · exact Option.some.inj e ▸ pushed

end Calls

section Drains

omit [DecidableEq H]
variable {s : Scheduler B}

theorem drainOne_filed (f : Filed s) (id : SeqId) : Filed (s.drainOne id).1 := by
  unfold Scheduler.drainOne
  cases live : s.seqs id with
  | none => exact f
  | some seq =>
    have listed := (f.mem seq.requestId id).mpr ⟨seq, live, rfl⟩
    unfold Scheduler.sequencesOf at listed
    simp only
    cases known : s.byRequest seq.requestId with
    | none =>
      rw [known] at listed
      cases listed
    | some ids =>
      have unfiled : s.unfile id seq.requestId = Function.update s.byRequest seq.requestId
          (if ids.filter (· ≠ id) = [] then none else some (ids.filter (· ≠ id))) := by
        unfold Scheduler.unfile
        rw [known]
      have lists : ∀ requestId, ((s.unfile id seq.requestId) requestId).getD [] =
          if requestId = seq.requestId then (s.sequencesOf requestId).filter (· ≠ id) else s.sequencesOf requestId := by
        intro requestId
        rw [unfiled, Function.update_apply]
        unfold Scheduler.sequencesOf
        split
        · rename_i mine
          rw [mine, known, Option.getD_some]
          split
          · rename_i last
            rw [last, Option.getD_none]
          · rfl
        · rfl
      refine ⟨fun x other live' => ?_, fun requestId ids' known' => ?_, fun requestId x => ?_⟩
      · change Function.update s.seqs id none x = some other at live'
        rw [Function.update_apply] at live'
        split at live'
        · cases live'
        · exact f.fresh x other live'
      · change s.unfile id seq.requestId requestId = some ids' at known'
        rw [unfiled, Function.update_apply] at known'
        split at known'
        · split at known'
          · cases known'
          · rename_i some_
            obtain rfl := Option.some.inj known'
            exact ⟨some_, (f.list _ ids known).2.filter _⟩
        · exact f.list requestId ids' known'
      · change x ∈ ((s.unfile id seq.requestId) requestId).getD [] ↔
          ∃ other, Function.update s.seqs id none x = some other ∧ other.requestId = requestId
        rw [lists, Function.update_apply]
        by_cases here : x = id
        · subst here
          simp only [if_true, reduceCtorEq, false_and, exists_false, iff_false]
          split
          · simp
          · rename_i other
            intro also
            obtain ⟨seq', live', its⟩ := (f.mem requestId x).mp also
            obtain rfl := Option.some.inj (live.symm.trans live')
            exact other its.symm
        · rw [if_neg here, ← f.mem]
          split
          · simp [here]
          · rfl

/-- What draining a list of live sequences hands out and leaves. -/
theorem drainLoop_spec {ids : List SeqId} (nodup : ids.Nodup) (live : ∀ id ∈ ids, (s.seqs id).isSome) :
    (Scheduler.drainLoop ids s).2.map Prod.fst = ids ∧
    (∀ p ∈ (Scheduler.drainLoop ids s).2, s.seqs p.1 = some p.2) ∧
    (∀ id, (Scheduler.drainLoop ids s).1.seqs id = if id ∈ ids then none else s.seqs id) ∧
    (Filed s → Filed (Scheduler.drainLoop ids s).1) := by
  induction ids generalizing s with
  | nil => exact ⟨rfl, by simp [Scheduler.drainLoop], fun id => rfl, fun f => f⟩
  | cons x ids ih =>
    obtain ⟨out, nodup⟩ := List.nodup_cons.mp nodup
    obtain ⟨seq, known⟩ := Option.isSome_iff_exists.mp (live x (by simp))
    have one : s.drainOne x = ({ s with
        seqs := Function.update s.seqs x none, byRequest := s.unfile x seq.requestId }, some (x, seq)) := by
      unfold Scheduler.drainOne
      rw [known]
    have others : ∀ id, id ≠ x → Function.update s.seqs x none id = s.seqs id :=
      fun id ne => Function.update_of_ne ne ..
    obtain ⟨returned, given, left, filed⟩ := ih (s := (s.drainOne x).1) nodup fun id hid => by
      rw [one]
      change (Function.update s.seqs x none id).isSome
      rw [others id fun same => out (same ▸ hid)]
      exact live id (by simp [hid])
    unfold Scheduler.drainLoop
    simp only
    refine ⟨?_, fun p hp => ?_, fun id => ?_, fun f => filed (drainOne_filed f x)⟩
    · rw [List.map_append, returned, one]
      rfl
    · rcases List.mem_append.mp hp with first | later
      · rw [one] at first
        obtain rfl := List.mem_singleton.mp first
        exact known
      · have here := given p later
        rw [one] at here
        have ne : p.1 ≠ x := by
          rintro rfl
          exact out (returned ▸ List.mem_map_of_mem later)
        exact (others p.1 ne).symm.trans here
    · rw [left id, one]
      change (if id ∈ ids then none else Function.update s.seqs x none id) = _
      by_cases here : id = x
      · simp [here]
      · rw [others id here]
        simp [here]

end Drains

section Runs

variable {s t : Scheduler B}

/-- The sequences a call hands out. -/
def Outcome.handedOut : Outcome → List SeqId
  | .drained sequences => sequences.map Prod.fst
  | _ => []

omit [DecidableEq H] in
theorem drainFinished_spec (q : Queued s) :
    s.drainFinished.2.map Prod.fst = s.finished ∧ (∀ p ∈ s.drainFinished.2, s.seqs p.1 = some p.2) ∧
    (∀ id, s.drainFinished.1.seqs id = if id ∈ s.finished then none else s.seqs id) ∧
    (Filed s → Filed s.drainFinished.1) := by
  have live : ∀ id ∈ s.finished, (s.seqs id).isSome := by
    intro id hid
    obtain ⟨seq, known, -⟩ := (q.mem .finished id).mp hid
    rw [known]
    rfl
  obtain ⟨returned, given, left, filed⟩ := drainLoop_spec (s := s.setFinished []) (q.nodup .finished) live
  exact ⟨returned, given, left, fun f => filed ⟨f.fresh, f.list, f.mem⟩⟩

/-- A call hands out the finished sequences, and those are gone, or lets none
go. -/
theorem step_enrolls {l : Op × Outcome} (q : Queued s) (step : s.Step l t) :
    l.2.handedOut = [] ∧ Enrolls s t ∨ l.2.handedOut = s.finished ∧ t = s.drainFinished.1 := by
  obtain ⟨op, outcome⟩ := l
  obtain ⟨-, e⟩ := step
  change s.exec op = some (t, outcome) at e
  cases op with
  | admitRequest requestId prompt params tenant =>
    obtain ⟨rfl, rfl⟩ := Prod.mk.inj (Option.some.inj e)
    exact .inl ⟨rfl, admit_enrolls s requestId prompt params tenant⟩
  | schedule =>
    obtain ⟨⟨s', plan⟩, scheduled, eq⟩ := Option.map_eq_some_iff.mp e
    obtain ⟨rfl, rfl⟩ := Prod.mk.inj eq
    obtain ⟨p, steps, rfl, -⟩ := schedule_steps scheduled q
    exact .inl ⟨rfl, passSteps_enrolls steps⟩
  | commit plan sampled =>
    obtain ⟨s', committed, eq⟩ := Option.map_eq_some_iff.mp e
    obtain ⟨rfl, rfl⟩ := Prod.mk.inj eq
    exact .inl ⟨rfl, commit_enrolls committed⟩
  | fork parent extra =>
    obtain ⟨rfl, rfl⟩ := Prod.mk.inj (Option.some.inj e)
    exact .inl ⟨rfl, fork_enrolls s parent extra⟩
  | seedFork id token =>
    obtain ⟨rfl, rfl⟩ := Prod.mk.inj (Option.some.inj e)
    exact .inl ⟨rfl, seedFork_enrolls s id token⟩
  | cancel requestId =>
    obtain ⟨rfl, rfl⟩ := Prod.mk.inj (Option.some.inj e)
    exact .inl ⟨rfl, cancel_enrolls s requestId⟩
  | finishWith id reason =>
    obtain ⟨rfl, rfl⟩ := Prod.mk.inj (Option.some.inj e)
    exact .inl ⟨rfl, finish_enrolls s id reason⟩
  | drainFinished =>
    obtain ⟨rfl, rfl⟩ := Prod.mk.inj (Option.some.inj e)
    exact .inr ⟨(drainFinished_spec q).1, rfl⟩

/-- The invariant of a run: the queues and the index, and what was handed out. -/
structure Traced (ls : List (Op × Outcome)) (s : Scheduler B) : Prop where
  queued : Queued s
  filed : Filed s
  once : (ls.flatMap fun l => l.2.handedOut).Nodup
  gone : ∀ id, (id ∈ ls.flatMap fun l => l.2.handedOut) ↔ id < s.nextId ∧ s.seqs id = none

theorem Traced.step {ls : List (Op × Outcome)} {l : Op × Outcome} (h : Traced ls s) (step : s.Step l t) :
    Traced (ls ++ [l]) t := by
  have queued := step_queued h.queued step
  have out : ((ls ++ [l]).flatMap fun l => l.2.handedOut) = (ls.flatMap fun l => l.2.handedOut) ++ l.2.handedOut := by
    simp
  rcases step_enrolls h.queued step with ⟨none, enrolls⟩ | ⟨handed, rfl⟩
  · rw [none, List.append_nil] at out
    refine ⟨queued, enrolls.filed h.filed, out ▸ h.once, fun id => ?_⟩
    rw [out, h.gone]
    by_cases known : id < s.nextId
    · have same := enrolls.old id known
      have later := Nat.lt_of_lt_of_le known enrolls.nextId
      rw [← Option.not_isSome_iff_eq_none, ← Option.not_isSome_iff_eq_none, same]
      simp [known, later]
    · constructor
      · rintro ⟨lt, -⟩
        exact absurd lt known
      · rintro ⟨lt, none⟩
        have entered := enrolls.new id (Nat.not_lt.mp known) lt
        rw [none] at entered
        cases entered
  · obtain ⟨-, -, left, filed⟩ := drainFinished_spec h.queued
    have nextId : s.drainFinished.1.nextId = s.nextId := (drainFinished_emptied s).nextId
    have live : ∀ id ∈ s.finished, ∃ seq, s.seqs id = some seq := fun id hid =>
      ((h.queued.mem .finished id).mp hid).imp fun _ known => known.1
    rw [handed] at out
    refine ⟨queued, filed h.filed, ?_, fun id => ?_⟩
    · rw [out]
      refine List.nodup_append.mpr ⟨h.once, h.queued.nodup .finished, fun a ha b hb => ?_⟩
      rintro rfl
      obtain ⟨seq, known⟩ := live a hb
      exact absurd (known.symm.trans ((h.gone a).mp ha).2) (by simp)
    · rw [out, List.mem_append, h.gone, nextId, left id]
      constructor
      · rintro (⟨lt, none⟩ | now)
        · exact ⟨lt, by simp [none]⟩
        · obtain ⟨seq, known⟩ := live id now
          exact ⟨h.queued.fresh id seq known, by simp [now]⟩
      · rintro ⟨lt, none⟩
        split at none
        · rename_i now
          exact .inr now
        · exact .inl ⟨lt, none⟩

/-- In every state of every run: a live sequence is in the queue of its status
and in no other, once, and the queues name no other; one that does not run
holds no blocks; the index by request lists just the live sequences of each
request; what was handed out was so once and is gone, and nothing else is
gone. The next drain hands out what has finished, and with it that is gone. -/
theorem queues_partition {cfg : SchedulerConfig} {pool : BlockPool H} {ns : CacheNamespace B} {eos : List Token}
    {ls : List (Op × Outcome)} (run : Run Scheduler.Step (Scheduler.new cfg pool ns eos) ls s) :
    ((∀ place, (s.queue place).Nodup) ∧
      ∀ place id, id ∈ s.queue place ↔ ∃ seq, s.seqs id = some seq ∧ seq.status.place = place) ∧
    (∀ id seq, s.seqs id = some seq → seq.status.place ≠ .running → seq.blocks = []) ∧
    ((∀ requestId ids, s.byRequest requestId = some ids → ids ≠ [] ∧ ids.Nodup) ∧
      ∀ requestId id, id ∈ s.sequencesOf requestId ↔
        ∃ seq, s.seqs id = some seq ∧ seq.requestId = requestId) ∧
    ((ls.flatMap fun l => l.2.handedOut).Nodup ∧
      ∀ id, (id ∈ ls.flatMap fun l => l.2.handedOut) ↔ id < s.nextId ∧ s.seqs id = none) ∧
    (s.drainFinished.2.map Prod.fst = s.finished ∧ (∀ p ∈ s.drainFinished.2, s.seqs p.1 = some p.2) ∧
      ∀ id, s.drainFinished.1.seqs id = if id ∈ s.finished then none else s.seqs id) := by
  have traced : Traced ls s := by
    induction run with
    | nil =>
      refine ⟨new_queued cfg pool ns eos, ⟨?_, ?_, ?_⟩, List.nodup_nil, ?_⟩ <;>
        simp [Scheduler.new, Scheduler.sequencesOf]
    | snoc _ step ih => exact ih.step step
  obtain ⟨returned, given, left, -⟩ := drainFinished_spec traced.queued
  exact ⟨⟨traced.queued.nodup, traced.queued.mem⟩, traced.queued.idle, ⟨traced.filed.list, traced.filed.mem⟩,
    ⟨traced.once, traced.gone⟩, returned, given, left⟩

end Runs

/-- A request that is cancelled while it waits is handed out by the next drain. -/
theorem queues_partition_cancelled :
    ∃ ls s, Run Scheduler.Step (Scheduler.fresh { blockSize := 4 } 4 0) ls s ∧
      (ls.flatMap fun l => l.2.handedOut) = [0] ∧ s.nextId = 1 ∧ s.seqs 0 = none := by
  have run : Run Scheduler.Step (Scheduler.fresh { blockSize := 4 } 4 0)
      [(.admitRequest ⟨"r"⟩ [1, 2] {} "global", _), (.cancel ⟨"r"⟩, _), (.drainFinished, _)] _ :=
    .cons ⟨by simp, rfl⟩ <| .cons ⟨by simp, rfl⟩ <| .cons ⟨by simp, rfl⟩ .nil
  have handed := (queues_partition run).2.2.2.1.2 0
  exact ⟨_, _, run, rfl, rfl, (handed.mp (by decide)).2⟩

end Vapi.Engine
