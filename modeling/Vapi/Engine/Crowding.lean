import Vapi.Engine.Accounting

/-!
# How many sequences run

A waiting sequence is started only below the limit, but a fork is not checked
against it: there are never more than the limit running, exactly when no fork
makes more children than there is room for.
-/

namespace Vapi.Engine

open Vapi.Cache
open Transition (Run Done)

variable {H : Type} {B : Blake3 H}

/-- How many children a fork gets to make: all, unless each takes a block of its
own out of what is free above the reserve. -/
def Scheduler.forkable (s : Scheduler B) (parent : SeqId) (extra : Nat) : Nat :=
  match s.seqs parent with
  | none => 0
  | some seq =>
    if seq.needsPrefill then 0
    else if seq.blocks.length ≤ seq.numComputed / s.cfg.blockSize then extra
    else min extra (s.pool.numFree - s.pool.watermark)

/-- A fork makes no more children than there is room for. -/
def Uncrowded (s : Scheduler B) (l : Op × Outcome) : Prop :=
  ∀ parent extra, l.1 = .fork parent extra →
    s.running.length + s.forkable parent extra ≤ s.cfg.maxConcurrentSeqs

section Forks

variable [DecidableEq H] {base s : Scheduler B} {extra : BlockId → Nat}

omit [DecidableEq H] in
theorem increfAll_numFree (bs : List BlockId) (p : BlockPool H) : (bs.foldl BlockPool.incref p).numFree = p.numFree := by
  induction bs generalizing p with
  | nil => rfl
  | cons b bs ih => exact ih (p.incref b)

/-- The children in turn, each with a block of its own if the source has an open one. -/
theorem forkChildren_running (h : Balanced base s extra) (src : Scheduler.ForkSource) (n : Nat) (out : Fork)
    (held : ∀ b ∈ src.blocks, 0 < s.pool.refcount b) :
    (Scheduler.forkChildren src n out s).1.running.length = s.running.length +
      if src.blocks.length ≤ src.computed / s.cfg.blockSize then n else min n (s.pool.numFree - s.pool.watermark) := by
  induction n generalizing s out with
  | zero => simp [Scheduler.forkChildren]
  | succ n ih =>
    have shared := sharedPool_spec src s.cfg.blockSize h.wf held
    have free : (sharedPool src s.cfg.blockSize s.pool).numFree = s.pool.numFree := increfAll_numFree _ _
    unfold Scheduler.forkChildren
    rcases made : Scheduler.childBlocks src s.cfg.blockSize s.pool with ⟨pool, e | ⟨blocks, copy⟩⟩
    · -- no block above the reserve is left for this child
      obtain ⟨rfl, open_, tight⟩ := childBlocks_error h.wf held made
      have lt : src.computed / s.cfg.blockSize < src.blocks.length := by simpa using open_
      rw [free, shared.shape.watermark] at tight
      rw [if_neg (Nat.not_le.mpr lt)]
      change s.running.length = _
      omega
    · obtain ⟨own, rfl, takes, kind⟩ := childBlocks_ok h.wf held made
      have counts : ∀ b, pool.refcount b = s.pool.refcount b +
          (src.blocks.take (src.computed / s.cfg.blockSize) ++ own).count b := by
        intro b
        have := takes.refcount b
        simp only [shared.refcount, List.count_append] at this ⊢
        omega
      have entered := h.enter (by exact ⟨rfl, rfl, rfl, shared.shape.trans takes.shape⟩)
        (addFork_queued (setPool_queued h.queued pool) src
          (src.blocks.take (src.computed / s.cfg.blockSize) ++ own)) takes.wf rfl rfl counts
      have rest := ih entered { ids := out.ids ++ [s.nextId], copies := out.copies ++ copy.toList } fun b hb => by
        have := held b hb
        have := counts b
        simp only [Scheduler.addFork, Scheduler.setRunning_pool, Scheduler.register_pool, Scheduler.setPool_pool]
        omega
      have one : (((s.setPool pool).addFork src (src.blocks.take (src.computed / s.cfg.blockSize) ++ own)).running).length =
          s.running.length + 1 := List.length_append
      have cfg : ((s.setPool pool).addFork src (src.blocks.take (src.computed / s.cfg.blockSize) ++ own)).cfg = s.cfg := rfl
      have pool' : ((s.setPool pool).addFork src (src.blocks.take (src.computed / s.cfg.blockSize) ++ own)).pool = pool := rfl
      have taken := takes.numFree
      have mark := shared.shape.watermark.symm.trans takes.shape.watermark.symm
      rw [rest, one, cfg, pool']
      rcases kind with ⟨rfl, none_, -⟩ | ⟨openBlock, x, rfl, some_, room, -⟩
      · rw [if_pos (List.getElem?_eq_none_iff.mp none_), if_pos (List.getElem?_eq_none_iff.mp none_)]
        omega
      · have lt : src.computed / s.cfg.blockSize < src.blocks.length := (List.getElem?_eq_some_iff.mp some_).1
        rw [if_neg (Nat.not_le.mpr lt), if_neg (Nat.not_le.mpr lt)]
        simp only [List.length_singleton] at taken
        omega

/-- A fork adds that many running sequences. -/
theorem fork_running (h : Balanced base s extra) (parent : SeqId) (n : Nat) :
    (s.fork parent n).1.running.length = s.running.length + s.forkable parent n := by
  unfold Scheduler.fork Scheduler.forkable
  cases live : s.seqs parent with
  | none => rfl
  | some seq =>
    by_cases prefilling : seq.needsPrefill
    · simp only [prefilling, if_true]
      rfl
    · simp only [prefilling, Bool.false_eq_true, if_false]
      exact forkChildren_running h _ n {} fun b hb => h.pos_refcount live hb

end Forks

section Passes

/-- What a pass has batched: each sequence once, between two cumulative lengths. -/
structure Lined (plan : StepPlan) : Prop where
  nodup : plan.batchSeqs.Nodup
  lengths : plan.batch.cuSeqlensQ.length = if plan.batchSeqs = [] then 0 else plan.batchSeqs.length + 1

theorem Lined.batchSize {plan : StepPlan} (h : Lined plan) : plan.batch.batchSize = plan.batchSeqs.length := by
  rw [ForwardBatch.batchSize, h.lengths]
  split
  · rename_i empty
    rw [empty]
    rfl
  · exact Nat.add_sub_cancel ..

theorem Lined.push {plan plan' : StepPlan} (h : Lined plan) {id : SeqId} {seq : Sequence} {q bs : Nat}
    (new : id ∉ plan.batchSeqs) (pushed : plan.pushSeq id seq q bs = some plan') : Lined plan' := by
  obtain ⟨batch, grown, eq⟩ := bind_some pushed
  obtain rfl := Option.some.inj eq
  refine ⟨List.nodup_append.mpr ⟨h.nodup, List.nodup_singleton _, fun x hx y hy same => ?_⟩, ?_⟩
  · rw [List.mem_singleton.mp hy] at same
    exact new (same ▸ hx)
  · obtain ⟨tokens, -, grown⟩ := bind_some grown
    obtain ⟨slots, -, grown⟩ := bind_some grown
    obtain ⟨prevQ, -, grown⟩ := bind_some grown
    obtain ⟨prevK, -, grown⟩ := bind_some grown
    obtain rfl := Option.some.inj grown
    have lengths := h.lengths
    by_cases empty : plan.batchSeqs = []
    · rw [if_pos empty, List.length_eq_zero_iff] at lengths
      simp [empty, lengths]
    · rw [if_neg empty] at lengths
      have some_ : plan.batch.cuSeqlensQ.isEmpty = false := by
        rw [← Bool.not_eq_true, List.isEmpty_iff, ← List.length_eq_zero_iff, lengths]
        omega
      simp [some_, lengths]

variable [DecidableEq H] {p p' : Pass B}

theorem passSteps_lined (steps : PassSteps p p') (h : Lined p.plan) : Lined p'.plan := by
  induction steps with
  | refl => exact h
  | tail _ step ih =>
    cases step with
    | batch run new live chunk took pushed => exact ih.push new pushed
    | preempt run new live chunk took => exact ⟨ih.nodup, ih.lengths⟩
    | start head live budget room hit fits took => exact ⟨ih.nodup, ih.lengths⟩
    | refuse head live hit took => exact ih

/-- A sequence is started only below the limit. -/
theorem passSteps_within (steps : PassSteps p p') {limit : Nat} (same : p.scheduler.cfg.maxConcurrentSeqs = limit)
    (h : p.scheduler.running.length ≤ limit) :
    p'.scheduler.cfg.maxConcurrentSeqs = limit ∧ p'.scheduler.running.length ≤ limit := by
  induction steps with
  | refl => exact ⟨same, h⟩
  | tail _ step ih =>
    obtain ⟨same, within⟩ := ih
    cases step with
    | batch run new live chunk took pushed => exact ⟨same, within⟩
    | preempt run new live chunk took => exact ⟨same, (List.length_filter_le ..).trans within⟩
    | @start id rest seq found pool matched taken cached head live budget room hit fits took =>
      refine ⟨same, ?_⟩
      change (_ ++ [id]).length ≤ limit
      rw [List.length_append, List.length_singleton, ← same]
      exact room
    | refuse head live hit took => exact ⟨same, within⟩

/-- So a schedule keeps to the limit, and its batch has each of its sequences once. -/
theorem schedule_within {s t : Scheduler B} {plan : StepPlan} (e : s.schedule = some (t, plan)) (q : Queued s)
    (h : s.running.length ≤ s.cfg.maxConcurrentSeqs) : t.running.length ≤ s.cfg.maxConcurrentSeqs ∧
      plan.batch.batchSize = plan.batchSeqs.length ∧ plan.batchSeqs.length ≤ s.cfg.maxConcurrentSeqs := by
  obtain ⟨p, steps, rfl, rfl⟩ := schedule_steps e q
  have within := (passSteps_within steps rfl h).2
  have lined : Lined p.plan := passSteps_lined steps ⟨List.nodup_nil, rfl⟩
  have batched : Batched p := passSteps_batched steps fun id hid => by simp at hid
  exact ⟨within, lined.batchSize, (lined.nodup.length_le_of_subset batched).trans within⟩

end Passes

section Calls

variable [DecidableEq H] {s t : Scheduler B} {n : Nat}

omit [DecidableEq H] in
theorem finish_within (h : s.running.length ≤ n) (id : SeqId) (reason : FinishReason) :
    (s.finish id reason).running.length ≤ n := by
  rcases finish_cases s id reason with e | ⟨seq, -, -, e⟩ <;> rw [e]
  · exact h
  · exact (List.length_filter_le ..).trans h

omit [DecidableEq H] in
theorem cancel_within (h : s.running.length ≤ n) (requestId : RequestId) :
    (s.cancel requestId).1.running.length ≤ n := by
  rw [cancel_eq]
  generalize s.sequencesOf requestId = ids
  induction ids generalizing s with
  | nil => exact h
  | cons id ids ih => exact ih (finish_within h id .cancelled)

omit [DecidableEq H] in
theorem sampledLoop_within (h : s.running.length ≤ n) (pairs : List (SeqId × Token)) :
    (s.sampledLoop pairs).running.length ≤ n := by
  unfold Scheduler.sampledLoop
  induction pairs generalizing s with
  | nil => exact h
  | cons p pairs ih =>
    refine ih (show (s.pushSampled p.1 p.2).running.length ≤ n from ?_)
    cases live : s.seqs p.1 with
    | none => simpa [Scheduler.pushSampled, live] using h
    | some seq =>
      rcases pushSampled_cases live p.2 with e | ⟨reason, -, e⟩ <;> rw [e]
      · exact h
      · exact finish_within (s := s.setSeq p.1 (seq.pushToken p.2)) h p.1 reason

theorem publishLoop_running {ids : List SeqId} (e : Scheduler.publishLoop ids s = some t) : t.running = s.running := by
  induction ids generalizing s with
  | nil =>
    obtain rfl := Option.some.inj e
    rfl
  | cons id ids ih =>
    obtain ⟨s₁, one, rest⟩ := bind_some e
    rw [ih rest]
    rcases publishOne_cases one with rfl | ⟨seq, pool, swaps, blocks, pool', -, -, -, -, -, rfl⟩ <;> rfl

theorem commit_within (h : s.running.length ≤ n) {plan : StepPlan} {sampled : List Token}
    (e : s.commit plan sampled = some t) : t.running.length ≤ n := by
  obtain ⟨s₁, advanced, e⟩ := bind_some e
  have advanced : s₁.running.length ≤ n := by
    refine advanceLoop_preserves (P := fun s => s.running.length ≤ n) (fun s id q h => ?_) h advanced
    unfold Scheduler.advanceOne
    split <;> exact h
  have pushed := sampledLoop_within advanced (plan.sampledSeqs.zip sampled)
  unfold Scheduler.publishFullBlocks at e
  split at e
  · rw [publishLoop_running e]
    exact pushed
  · exact Option.some.inj e ▸ pushed

omit [DecidableEq H] in
theorem drainLoop_running (ids : List SeqId) (s : Scheduler B) : (Scheduler.drainLoop ids s).1.running = s.running := by
  induction ids generalizing s with
  | nil => rfl
  | cons id ids ih =>
    refine (ih _).trans (show (s.drainOne id).1.running = s.running from ?_)
    unfold Scheduler.drainOne
    split <;> rfl

omit [DecidableEq H] in
theorem admit_running (s : Scheduler B) (requestId : RequestId) (prompt : List Token) (params : SamplingParams)
    (tenant : String) : (s.admitRequest requestId prompt params tenant).1.running = s.running := by
  unfold Scheduler.admitRequest
  split
  · rfl
  · split <;> rfl

theorem seedFork_running (s : Scheduler B) (id : SeqId) (token : Token) : (s.seedFork id token).1.running = s.running := by
  unfold Scheduler.seedFork
  cases s.seqs id with
  | none => rfl
  | some seq =>
    simp only
    split <;> rfl

/-- A call keeps to the limit, unless it is a fork without the room. -/
theorem step_within {base : Scheduler B} {extra : BlockId → Nat} {l : Op × Outcome} (bal : Balanced base s extra)
    (step : s.Step l t) (roomy : Uncrowded s l) (h : s.running.length ≤ s.cfg.maxConcurrentSeqs) :
    t.running.length ≤ s.cfg.maxConcurrentSeqs := by
  obtain ⟨op, outcome⟩ := l
  obtain ⟨-, e⟩ := step
  change s.exec op = some (t, outcome) at e
  cases op with
  | admitRequest requestId prompt params tenant =>
    obtain ⟨rfl, -⟩ := Prod.mk.inj (Option.some.inj e)
    exact (congrArg List.length (admit_running s requestId prompt params tenant)).trans_le h
  | schedule =>
    obtain ⟨⟨s', plan⟩, scheduled, eq⟩ := Option.map_eq_some_iff.mp e
    obtain ⟨rfl, -⟩ := Prod.mk.inj eq
    exact (schedule_within scheduled bal.queued h).1
  | commit plan sampled =>
    obtain ⟨s', committed, eq⟩ := Option.map_eq_some_iff.mp e
    obtain ⟨rfl, -⟩ := Prod.mk.inj eq
    exact commit_within h committed
  | fork parent n =>
    obtain ⟨rfl, -⟩ := Prod.mk.inj (Option.some.inj e)
    exact (fork_running bal parent n).trans_le (roomy parent n rfl)
  | seedFork id token =>
    obtain ⟨rfl, -⟩ := Prod.mk.inj (Option.some.inj e)
    exact (congrArg List.length (seedFork_running s id token)).trans_le h
  | cancel requestId =>
    obtain ⟨rfl, -⟩ := Prod.mk.inj (Option.some.inj e)
    exact cancel_within h requestId
  | finishWith id reason =>
    obtain ⟨rfl, -⟩ := Prod.mk.inj (Option.some.inj e)
    exact finish_within h id reason
  | drainFinished =>
    obtain ⟨rfl, -⟩ := Prod.mk.inj (Option.some.inj e)
    exact (congrArg List.length (drainLoop_running s.finished (s.setFinished []))).trans_le h

theorem run_within {cfg : SchedulerConfig} {n bs watermark : Nat} {ns : CacheNamespace B} {eos : List Token}
    {ls : List (Op × Outcome)}
    (run : Run (Transition.Guarded Uncrowded Scheduler.Step) (.new cfg (BlockPool.new n bs watermark) ns eos) ls s) :
    s.running.length ≤ cfg.maxConcurrentSeqs := by
  induction run with
  | nil => exact Nat.zero_le _
  | snoc run step ih =>
    obtain ⟨extra, bal⟩ := run_balanced (run.mono fun _ _ _ step => step.2)
    have same : _ = cfg := bal.setup.cfg
    rw [← same] at ih ⊢
    exact step_within bal step.2 step.1 ih

/-- In every run, never more sequences run than the limit exactly when each fork
has the room for the children it gets to make; and then no batch is larger. -/
theorem concurrency_iff {cfg : SchedulerConfig} {n bs watermark : Nat} {ns : CacheNamespace B} {eos : List Token}
    {ls : List (Op × Outcome)} (run : Run Scheduler.Step (.new cfg (BlockPool.new n bs watermark) ns eos) ls s) :
    ((∀ ks ms t, ls = ks ++ ms → Run Scheduler.Step (.new cfg (BlockPool.new n bs watermark) ns eos) ks t →
        Run Scheduler.Step t ms s → t.running.length ≤ cfg.maxConcurrentSeqs) ↔
      ¬Done Scheduler.Step (fun t l _ => ¬Uncrowded t l) (.new cfg (BlockPool.new n bs watermark) ns eos) ls s) ∧
    (s.running.length ≤ cfg.maxConcurrentSeqs → ∀ t plan, s.schedule = some (t, plan) →
      plan.batch.batchSize = plan.batchSeqs.length ∧ plan.batch.batchSize ≤ cfg.maxConcurrentSeqs) := by
  refine ⟨⟨?_, fun never ks ms t cut before after => ?_⟩, fun h t plan scheduled => ?_⟩
  · rintro within ⟨ks, l, ms, a, b, cut, before, step, after, tight⟩
    obtain ⟨extra, bal⟩ := run_balanced before
    have same : a.cfg = cfg := bal.setup.cfg
    refine tight fun parent children is => ?_
    obtain ⟨op, outcome⟩ := l
    obtain rfl : op = _ := is
    have made := fork_running bal parent children
    have forked : (a.fork parent children).1 = b := (Prod.mk.inj (Option.some.inj step.2)).1
    rw [← made, forked, same]
    exact within (ks ++ [_]) ms b (by rw [cut, List.append_assoc]; rfl) (before.snoc step) after
  · refine run_within (before.guarded fun done => never ?_)
    rw [cut]
    exact done.append after
  · obtain ⟨extra, bal⟩ := run_balanced run
    have same : s.cfg = cfg := bal.setup.cfg
    obtain ⟨-, size, most⟩ := schedule_within scheduled bal.queued (same ▸ h)
    exact ⟨size, size.trans_le (same ▸ most)⟩

end Calls

section Example

/-- One sequence at a time. -/
def narrow : Scheduler Blake3.identity := Scheduler.fresh { maxConcurrentSeqs := 1, blockSize := 4, prefixCache := false } 8 0

/-- A request for two choices has its first token. -/
def narrowServed : Option (Scheduler Blake3.identity) :=
  ((narrow.admitRequest ⟨"r"⟩ [1, 2] { n := 2 } "global").1).serve [3]

theorem narrowServed_run {s : Scheduler Blake3.identity} (served : narrowServed = some s) :
    ∃ ls, Run Scheduler.Step narrow ls s := by
  have entered : narrow.Step (.admitRequest ⟨"r"⟩ [1, 2] { n := 2 } "global", _)
      (narrow.admitRequest ⟨"r"⟩ [1, 2] { n := 2 } "global").1 := ⟨by simp, rfl⟩
  obtain ⟨plan, run⟩ := serve_run [3] served
  exact ⟨_, .cons entered run⟩

/-- Its second choice runs beside the first, over the limit, and is batched with it. -/
theorem fork_over_limit :
    ∃ ls s, Run Scheduler.Step narrow ls s ∧ narrow.cfg.maxConcurrentSeqs = 1 ∧ s.running.length = 2 ∧
      ∃ t plan, s.schedule = some (t, plan) ∧ plan.batch.batchSize = 2 := by
  have last : (narrowServed.any fun s =>
      (s.fork 0 1).1.running = [0, 1] ∧ ((s.fork 0 1).1.seedFork 1 4).1.running = [0, 1] ∧
        ((s.fork 0 1).1.seedFork 1 4).1.schedule.any fun r => r.2.batch.batchSize = 2) = true := by
    decide +kernel
  obtain ⟨s, served, last⟩ := (Option.any_eq_true ..).mp last
  obtain ⟨forked, seeded, scheduled⟩ := of_decide_eq_true last
  obtain ⟨⟨t, plan⟩, scheduled, size⟩ := (Option.any_eq_true ..).mp scheduled
  obtain ⟨ls, run⟩ := narrowServed_run served
  have fork : s.Step (.fork 0 1, _) (s.fork 0 1).1 := ⟨by simp, rfl⟩
  have seed : (s.fork 0 1).1.Step (.seedFork 1 4, _) ((s.fork 0 1).1.seedFork 1 4).1 :=
    ⟨fun id token same => by obtain ⟨rfl, -⟩ := Op.seedFork.inj same; simp [forked], rfl⟩
  exact ⟨_, _, (run.snoc fork).snoc seed, rfl, congrArg List.length seeded, t, plan, scheduled, of_decide_eq_true size⟩

/-- With one choice it stays alone. -/
theorem concurrency_iff_one : ∃ ls s, Run Scheduler.Step narrow ls s ∧
    ((∀ ks ms t, ls = ks ++ ms → Run Scheduler.Step narrow ks t → Run Scheduler.Step t ms s →
        t.running.length ≤ narrow.cfg.maxConcurrentSeqs) ↔
      ¬Done Scheduler.Step (fun t l _ => ¬Uncrowded t l) narrow ls s) := by
  have some_ : narrowServed.isSome = true := by decide +kernel
  obtain ⟨s, served⟩ := Option.isSome_iff_exists.mp some_
  obtain ⟨ls, run⟩ := narrowServed_run served
  exact ⟨ls, s, run, (concurrency_iff run).1⟩

end Example

end Vapi.Engine
