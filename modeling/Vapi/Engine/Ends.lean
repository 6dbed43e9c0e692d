import Vapi.Engine.Turns
import Vapi.Engine.World

/-!
# Which sequences a call ends

Of the calls that let no sequence go: what each leaves of the index by
request, and what may have finished in it.
-/

namespace Vapi.Engine

open Vapi.Cache

variable {H : Type} {B : Blake3 H}

/-- A call that enters no sequence, and ends none but these. -/
structure Ends (ended : SeqId → Prop) (s t : Scheduler B) : Prop where
  nextId : t.nextId = s.nextId
  byRequest : t.byRequest = s.byRequest
  finished : ∀ id, id ∈ t.finished → id ∈ s.finished ∨ ended id

namespace Ends

variable {ended also : SeqId → Prop} {s t u : Scheduler B}

theorem refl (s : Scheduler B) : Ends ended s s := ⟨rfl, rfl, fun _ => .inl⟩

theorem trans (h : Ends ended s t) (k : Ends ended t u) : Ends ended s u where
  nextId := k.nextId.trans h.nextId
  byRequest := k.byRequest.trans h.byRequest
  finished id mem := (k.finished id mem).elim (h.finished id) .inr

theorem mono (h : Ends ended s t) (sub : ∀ id, ended id → also id) : Ends also s t where
  nextId := h.nextId
  byRequest := h.byRequest
  finished id mem := (h.finished id mem).imp_right (sub id)

theorem sequencesOf (h : Ends ended s t) (requestId : RequestId) : t.sequencesOf requestId = s.sequencesOf requestId := by
  unfold Scheduler.sequencesOf
  rw [h.byRequest]

end Ends

section Calls

variable {s t : Scheduler B} {ended : SeqId → Prop}

theorem finish_ends (s : Scheduler B) (id : SeqId) (reason : FinishReason) : Ends (· = id) s (s.finish id reason) := by
  rcases finish_cases s id reason with same | ⟨seq, -, -, eq⟩
  · rw [same]
    exact .refl s
  · rw [eq]
    refine ⟨rfl, rfl, fun x mem => ?_⟩
    exact (List.mem_append.mp mem).imp_right List.mem_singleton.mp

/-- Finishing sequences in turn ends none but those. -/
theorem finishes_ends (ids : List SeqId) (reason : FinishReason) (s : Scheduler B) :
    Ends (· ∈ ids) s (ids.foldl (fun s id => s.finish id reason) s) := by
  induction ids generalizing s with
  | nil => exact .refl s
  | cons id ids ih =>
    have first := finish_ends s id reason
    have rest := ih (s.finish id reason)
    exact (first.mono fun x here => here ▸ List.mem_cons_self).trans (rest.mono fun x mem => List.mem_cons_of_mem id mem)

theorem cancel_ends (s : Scheduler B) (requestId : RequestId) :
    Ends (· ∈ s.sequencesOf requestId) s (s.cancel requestId).1 := by
  rw [cancel_eq]
  exact finishes_ends _ _ s

/-- What has finished stays so until it is drained. -/
theorem finish_keeps (s : Scheduler B) (id : SeqId) (reason : FinishReason) {x : SeqId} (mem : x ∈ s.finished) :
    x ∈ (s.finish id reason).finished := by
  rcases finish_cases s id reason with same | ⟨seq, -, -, eq⟩
  · rw [same]
    exact mem
  · rw [eq]
    exact List.mem_append_left _ mem

theorem finishes_keep (ids : List SeqId) (reason : FinishReason) (s : Scheduler B) {x : SeqId} (mem : x ∈ s.finished) :
    x ∈ (ids.foldl (fun s id => s.finish id reason) s).finished := by
  induction ids generalizing s with
  | nil => exact mem
  | cons id ids ih => exact ih (s.finish id reason) (finish_keeps s id reason mem)

/-- Of sequences that are finished in turn, each live one has finished. -/
theorem finishes_all {ids : List SeqId} (reason : FinishReason) {s : Scheduler B} (q : Queued s) {x : SeqId} (mem : x ∈ ids)
    (live : (s.seqs x).isSome) : x ∈ (ids.foldl (fun s id => s.finish id reason) s).finished := by
  induction ids generalizing s with
  | nil => exact absurd mem List.not_mem_nil
  | cons id ids ih =>
    have q' := finish_queued q id reason
    by_cases here : x = id
    · subst here
      refine finishes_keep ids reason (s.finish x reason) ?_
      obtain ⟨seq, known⟩ := Option.isSome_iff_exists.mp live
      unfold Scheduler.finish
      simp only [known]
      split
      · rename_i done
        exact (q.mem .finished x).mpr ⟨seq, known, (SeqStatus.isFinished_iff _).mp done⟩
      · exact List.mem_append_right _ List.mem_cons_self
    · refine ih q' ((List.mem_cons.mp mem).resolve_left here) ?_
      change ((s.finish id reason).seqs x).isSome
      rcases finish_cases s id reason with same | ⟨seq, -, -, eq⟩
      · rw [same]
        exact live
      · rw [eq]
        change (Function.update s.seqs id _ x).isSome
        rw [Function.update_of_ne here]
        exact live

/-- What cancelling requests in turn comes to. -/
structure Cancels (requestIds : List RequestId) (s t : Scheduler B) : Prop where
  nextId : t.nextId = s.nextId
  queued : Queued t
  filed : Filed t
  lists : ∀ r, t.sequencesOf r = s.sequencesOf r
  keeps : ∀ id, id ∈ s.finished → id ∈ t.finished
  ends : ∀ r ∈ requestIds, ∀ id ∈ s.sequencesOf r, id ∈ t.finished

theorem cancels (requestIds : List RequestId) {s : Scheduler B} (q : Queued s) (f : Filed s) :
    Cancels requestIds s (requestIds.foldl (fun s r => (s.cancel r).1) s) := by
  induction requestIds generalizing s with
  | nil => exact ⟨rfl, q, f, fun _ => rfl, fun _ => id, fun _ mem => absurd mem List.not_mem_nil⟩
  | cons r rest ih =>
    have first := cancel_ends s r
    have spec := ih (cancel_queued q r) ((cancel_enrolls s r).filed f)
    have stays : ∀ id, id ∈ s.finished → id ∈ (s.cancel r).1.finished := by
      intro id mem
      rw [cancel_eq]
      exact finishes_keep _ _ _ mem
    refine ⟨spec.nextId.trans first.nextId, spec.queued, spec.filed, fun r' => (spec.lists r').trans (first.sequencesOf r'),
      fun id mem => spec.keeps id (stays id mem), fun r' mem id there => ?_⟩
    rcases List.mem_cons.mp mem with rfl | later
    · apply spec.keeps
      obtain ⟨seq, live, -⟩ := (f.mem r' id).mp there
      rw [cancel_eq]
      exact finishes_all .cancelled q there (by rw [live]; rfl)
    · exact spec.ends r' later id (first.sequencesOf r' ▸ there)

variable [DecidableEq H]

theorem passStep_ends {p p' : Pass B} (step : PassStep p p') : Ends ended p.scheduler p'.scheduler := by
  cases step with
  | batch => exact ⟨rfl, rfl, fun _ => .inl⟩
  | preempt => exact ⟨rfl, rfl, fun _ => .inl⟩
  | start => exact ⟨rfl, rfl, fun _ => .inl⟩
  | refuse => exact ⟨rfl, rfl, fun _ => .inl⟩

theorem passSteps_ends {p p' : Pass B} (steps : PassSteps p p') : Ends ended p.scheduler p'.scheduler := by
  induction steps with
  | refl => exact .refl _
  | tail _ step ih => exact ih.trans (passStep_ends step)

theorem schedule_ends {plan : StepPlan} (q : Queued s) (e : s.schedule = some (t, plan)) : Ends ended s t := by
  obtain ⟨p, steps, rfl, -⟩ := schedule_steps e q
  exact passSteps_ends steps

omit [DecidableEq H] in
theorem advanceLoop_ends {ids : List SeqId} {cu : List UInt32} (e : Scheduler.advanceLoop ids cu s = some t) :
    Ends ended s t :=
  advanceLoop_preserves (P := Ends ended s)
    (fun s' id q h => by
      refine h.trans ?_
      unfold Scheduler.advanceOne
      cases s'.seqs id with
      | none => exact .refl s'
      | some seq => exact ⟨rfl, rfl, fun _ => .inl⟩) (.refl s) e

omit [DecidableEq H] in
theorem pushSampled_ends (s : Scheduler B) (id : SeqId) (token : Token) : Ends (· = id) s (s.pushSampled id token) := by
  cases live : s.seqs id with
  | none =>
    unfold Scheduler.pushSampled
    simp only [live]
    exact .refl s
  | some seq =>
    have pushed : Ends (· = id) s (s.setSeq id (seq.pushToken token)) := ⟨rfl, rfl, fun _ => .inl⟩
    rcases pushSampled_cases live token with e | ⟨reason, -, e⟩ <;> rw [e]
    · exact pushed
    · exact pushed.trans (finish_ends _ id reason)

omit [DecidableEq H] in
theorem sampledLoop_ends (s : Scheduler B) (pairs : List (SeqId × Token)) :
    Ends (fun id => ∃ p ∈ pairs, p.1 = id) s (s.sampledLoop pairs) := by
  unfold Scheduler.sampledLoop
  induction pairs generalizing s with
  | nil => exact .refl s
  | cons p pairs ih =>
    have first := pushSampled_ends s p.1 p.2
    refine (first.mono fun x here => ⟨p, List.mem_cons_self, here.symm⟩).trans ((ih _).mono ?_)
    rintro x ⟨p', mem, here⟩
    exact ⟨p', List.mem_cons_of_mem p mem, here⟩

theorem publishLoop_ends {ids : List SeqId} (e : Scheduler.publishLoop ids s = some t) : Ends ended s t := by
  induction ids generalizing s with
  | nil => exact Option.some.inj e ▸ .refl s
  | cons id ids ih =>
    obtain ⟨s₁, one, rest⟩ := bind_some e
    refine Ends.trans ?_ (ih rest)
    rcases publishOne_cases one with rfl | ⟨seq, pool, swaps, blocks, pool', live, -, -, -, -, rfl⟩
    · exact .refl s₁
    · exact ⟨rfl, rfl, fun _ => .inl⟩

/-- The sequences to sample of a plan are batched ones, each once. -/
structure Drawn (plan : StepPlan) : Prop where
  nodup : plan.batchSeqs.Nodup
  sampled : plan.sampledSeqs.Sublist plan.batchSeqs

theorem passStep_drawn {p p' : Pass B} (step : PassStep p p') (h : Drawn p.plan) : Drawn p'.plan := by
  cases step with
  | @batch id seq q pool taken plan run new live chunk took pushed =>
    obtain ⟨batch, -, eq⟩ := bind_some pushed
    obtain rfl := Option.some.inj eq
    constructor
    · exact List.nodup_append.mpr ⟨h.nodup, List.nodup_singleton _, fun a ha b hb same =>
        new (List.mem_singleton.mp hb ▸ same ▸ ha)⟩
    · change (if _ then p.plan.sampledSeqs ++ [id] else p.plan.sampledSeqs).Sublist (p.plan.batchSeqs ++ [id])
      split
      · exact h.sampled.append (.refl _)
      · exact h.sampled.trans (List.sublist_append_left _ _)
  | preempt => exact ⟨h.nodup, h.sampled⟩
  | start => exact ⟨h.nodup, h.sampled⟩
  | refuse => exact h

theorem passSteps_drawn {p p' : Pass B} (steps : PassSteps p p') (h : Drawn p.plan) : Drawn p'.plan := by
  induction steps with
  | refl => exact h
  | tail _ step ih => exact passStep_drawn step ih

theorem schedule_sampled_nodup {plan : StepPlan} (q : Queued s) (e : s.schedule = some (t, plan)) :
    plan.sampledSeqs.Nodup := by
  obtain ⟨p, steps, rfl, rfl⟩ := schedule_steps e q
  have drawn := passSteps_drawn steps ⟨List.nodup_nil, .refl _⟩
  exact drawn.sampled.nodup drawn.nodup

/-- A commit ends none but what was sampled. -/
theorem commit_ends {plan : StepPlan} {sampled : List Token} (e : s.commit plan sampled = some t) :
    Ends (· ∈ plan.sampledSeqs) s t := by
  obtain ⟨s₁, advanced, e⟩ := bind_some e
  have pushed : Ends (· ∈ plan.sampledSeqs) s (s₁.sampledLoop (plan.sampledSeqs.zip sampled)) := by
    refine (advanceLoop_ends advanced).trans ((sampledLoop_ends s₁ _).mono ?_)
    rintro x ⟨p, mem, rfl⟩
    exact (List.of_mem_zip mem).1
  unfold Scheduler.publishFullBlocks at e
  split at e
  · exact pushed.trans (publishLoop_ends e)
  · exact Option.some.inj e ▸ pushed

end Calls

section Admissions

variable {s t : Scheduler B} {requestId : RequestId} {prompt : List Token} {params : SamplingParams} {tenant : String}

/-- What an admission enters. -/
structure Admits (requestId : RequestId) (id : SeqId) (s t : Scheduler B) : Prop where
  id : id = s.nextId
  nextId : t.nextId = s.nextId + 1
  own : t.sequencesOf requestId = s.sequencesOf requestId ++ [s.nextId]
  other : ∀ r, r ≠ requestId → t.sequencesOf r = s.sequencesOf r
  finished : t.finished = s.finished

theorem admit_error {err : Error} (e : s.admitRequest requestId prompt params tenant = (t, .error err)) : t = s := by
  rcases admit_cases s requestId prompt params tenant with ⟨error, eq⟩ | ⟨-, eq⟩
  · exact (Prod.mk.inj (e.symm.trans eq)).1
  · cases (Prod.mk.inj (e.symm.trans eq)).2

theorem admit_ok {id : SeqId} (e : s.admitRequest requestId prompt params tenant = (t, .ok id)) : Admits requestId id s t := by
  rcases admit_cases s requestId prompt params tenant with ⟨error, eq⟩ | ⟨-, eq⟩
  · cases (Prod.mk.inj (e.symm.trans eq)).2
  · obtain ⟨rfl, entered⟩ := Prod.mk.inj (e.symm.trans eq)
    refine ⟨Except.ok.inj entered, rfl, ?_, fun r ne => ?_, rfl⟩
    · unfold Scheduler.sequencesOf
      change (Function.update s.byRequest requestId _ requestId).getD [] = _
      rw [Function.update_self]
      rfl
    · unfold Scheduler.sequencesOf
      change (Function.update s.byRequest requestId _ r).getD [] = _
      rw [Function.update_of_ne ne]

end Admissions

section Forks

variable [DecidableEq H] {s t : Scheduler B} {requestId : RequestId}

/-- Sequences `n` that are entered for a request under the next ids, none of
which has finished. -/
structure Grows (requestId : RequestId) (n : Nat) (s t : Scheduler B) : Prop where
  nextId : t.nextId = s.nextId + n
  own : t.sequencesOf requestId = s.sequencesOf requestId ++ List.range' s.nextId n
  other : ∀ r, r ≠ requestId → t.sequencesOf r = s.sequencesOf r
  finished : t.finished = s.finished
  running : t.running = s.running ++ List.range' s.nextId n

omit [DecidableEq H] in
theorem Grows.none (nextId : t.nextId = s.nextId) (byRequest : t.byRequest = s.byRequest) (finished : t.finished = s.finished)
    (running : t.running = s.running) : Grows requestId 0 s t := by
  have lists : ∀ r, t.sequencesOf r = s.sequencesOf r := by
    intro r
    unfold Scheduler.sequencesOf
    rw [byRequest]
  exact ⟨nextId, by rw [lists]; simp, fun r _ => lists r, finished, by rw [running]; simp⟩

omit [DecidableEq H] in
theorem addFork_grows (s : Scheduler B) (pool : BlockPool H) (src : Scheduler.ForkSource) (blocks : List BlockId) :
    Grows src.requestId 1 s ((s.setPool pool).addFork src blocks) := by
  refine ⟨rfl, ?_, fun r other => ?_, rfl, rfl⟩
  · unfold Scheduler.sequencesOf
    change (Function.update s.byRequest src.requestId _ src.requestId).getD [] = _
    rw [Function.update_self]
    rfl
  · unfold Scheduler.sequencesOf
    change (Function.update s.byRequest src.requestId _ r).getD [] = _
    rw [Function.update_of_ne other]

omit [DecidableEq H] in
theorem Grows.trans {m n : Nat} {u : Scheduler B} (h : Grows requestId m s t) (k : Grows requestId n t u) :
    Grows requestId (m + n) s u where
  nextId := by rw [k.nextId, h.nextId, Nat.add_assoc]
  own := by
    rw [k.own, h.own, h.nextId, List.append_assoc, List.range'_append_1]
  other r ne := (k.other r ne).trans (h.other r ne)
  finished := k.finished.trans h.finished
  running := by
    rw [k.running, h.running, h.nextId, List.append_assoc, List.range'_append_1]

/-- A seed enters nothing. -/
theorem seedFork_grows (s : Scheduler B) (id : SeqId) (token : Token) : Grows requestId 0 s (s.seedFork id token).1 := by
  unfold Scheduler.seedFork
  cases s.seqs id with
  | none => exact .none rfl rfl rfl rfl
  | some seq =>
    simp only
    split <;> exact .none rfl rfl rfl rfl

/-- The children of a fork that were made before one could not be: all of them
where none was refused. -/
theorem forkChildren_grows (src : Scheduler.ForkSource) (n : Nat) (out : Fork) (s : Scheduler B) :
    ∃ m, Grows src.requestId m s (Scheduler.forkChildren src n out s).1 ∧
      ∀ fork, (Scheduler.forkChildren src n out s).2 = .ok fork →
        m = n ∧ fork.ids = out.ids ++ List.range' s.nextId n := by
  induction n generalizing s out with
  | zero =>
    refine ⟨0, .none rfl rfl rfl rfl, fun fork ok => ?_⟩
    obtain rfl := Except.ok.inj ok
    exact ⟨rfl, (List.append_nil _).symm⟩
  | succ n ih =>
    unfold Scheduler.forkChildren
    rcases Scheduler.childBlocks src s.cfg.blockSize s.pool with ⟨pool, e | ⟨blocks, copy⟩⟩
    · refine ⟨0, .none rfl rfl rfl rfl, fun fork ok => ?_⟩
      cases ok
    · have first := addFork_grows s pool src blocks
      obtain ⟨m, rest, all⟩ := ih { ids := out.ids ++ [s.nextId], copies := out.copies ++ copy.toList }
        ((s.setPool pool).addFork src blocks)
      refine ⟨1 + m, first.trans rest, fun fork ok => ?_⟩
      obtain ⟨rfl, ids⟩ := all fork ok
      refine ⟨Nat.add_comm 1 m, ?_⟩
      rw [ids, first.nextId, List.append_assoc]
      rfl

/-- A fork enters sequences of its parent's request, the number asked for where it is not refused. -/
theorem fork_grows {parent : SeqId} {seq : Sequence} (live : s.seqs parent = some seq) (n : Nat) :
    ∃ m, Grows seq.requestId m s (s.fork parent n).1 ∧
      ∀ fork, (s.fork parent n).2 = .ok fork → m = n ∧ fork.ids = List.range' s.nextId n := by
  unfold Scheduler.fork
  rw [live]
  simp only
  split
  · refine ⟨0, .none rfl rfl rfl rfl, fun fork ok => ?_⟩
    cases ok
  · exact forkChildren_grows (Scheduler.forkSource seq) n {} s

end Forks

section Drains

variable {s : Scheduler B}

/-- A drain lets go of what has finished, and of nothing else. -/
theorem drainFinished_sequencesOf (q : Queued s) (f : Filed s) (requestId : RequestId) :
    (s.drainFinished.1.sequencesOf requestId).Perm ((s.sequencesOf requestId).filter (· ∉ s.finished)) := by
  obtain ⟨-, -, left, filed⟩ := drainFinished_spec q
  have nodup : ∀ {t : Scheduler B}, Filed t → (t.sequencesOf requestId).Nodup := by
    intro t ft
    unfold Scheduler.sequencesOf
    cases known : t.byRequest requestId with
    | none => exact List.nodup_nil
    | some ids => exact (ft.list requestId ids known).2
  refine (List.perm_ext_iff_of_nodup (nodup (filed f)) ((nodup f).filter _)).mpr fun id => ?_
  rw [(filed f).mem, left, List.mem_filter, f.mem]
  by_cases gone : id ∈ s.finished
  · simp [gone]
  · simp [gone]

theorem drainFinished_queued (q : Queued s) : Queued s.drainFinished.1 := drainLoop_queued q rfl

theorem drainFinished_finished (q : Queued s) : s.drainFinished.1.finished = [] := by
  obtain ⟨-, -, left, -⟩ := drainFinished_spec q
  apply List.eq_nil_iff_forall_not_mem.mpr
  intro id mem
  obtain ⟨seq, live, place⟩ := ((drainFinished_queued q).mem .finished id).mp mem
  rw [left] at live
  split at live
  · cases live
  · rename_i kept
    exact kept ((q.mem .finished id).mpr ⟨seq, live, place⟩)

end Drains

end Vapi.Engine
