import Vapi.Engine.Progress
import Vapi.Engine.Queues

/-!
# The turns of the waiting queue

A schedule puts the sequences it preempts at the head of the queue, and starts
sequences from there. No other call puts one in the queue but an admission, at
its end.
-/

namespace Vapi.Engine

open Vapi.Cache

variable {H : Type} {B : Blake3 H}

/-- A sequence that has never started. -/
def Scheduler.Unstarted (s : Scheduler B) (id : SeqId) : Prop :=
  ∃ seq, s.seqs id = some seq ∧ seq.status = .waiting

/-- The sequences a plan starts, in order. -/
def StepPlan.startedIds (plan : StepPlan) : List SeqId := plan.started.map Prod.fst

section Queue

variable {s t : Scheduler B} {id x : SeqId} {old new : Sequence}

theorem unstarted_iff (live : s.seqs id = some old) : s.Unstarted id ↔ old.status = .waiting :=
  ⟨fun ⟨_, live', waits⟩ => Option.some.inj (live'.symm.trans live) ▸ waits, fun waits => ⟨old, live, waits⟩⟩

theorem unstarted_update (seqs : t.seqs = Function.update s.seqs id (some new)) :
    t.Unstarted x ↔ if x = id then new.status = .waiting else s.Unstarted x := by
  unfold Scheduler.Unstarted
  rw [seqs, Function.update_apply]
  split <;> simp

theorem Queued.waits (q : Queued s) (fresh : s.Unstarted id) : id ∈ s.waiting := by
  obtain ⟨seq, live, waits⟩ := fresh
  exact (q.mem .waiting id).mpr ⟨seq, live, congrArg SeqStatus.place waits⟩

theorem Queued.known (q : Queued s) (place : Place) (mem : id ∈ s.queue place) : id < s.nextId := by
  obtain ⟨seq, live, -⟩ := (q.mem place id).mp mem
  exact q.fresh id seq live

theorem Queued.not_fresh (q : Queued s) (run : id ∈ s.running) : ¬s.Unstarted id :=
  fun fresh => q.running_not_waiting run (q.waits fresh)

end Queue

variable [DecidableEq H]

section Pass

variable {base s : Scheduler B} {p p' : Pass B}

/-- Which sequences have never started, part way through a pass. -/
structure Turned (s : Scheduler B) (p : Pass B) : Prop where
  fresh : ∀ x, p.scheduler.Unstarted x ↔ s.Unstarted x ∧ x ∉ p.plan.startedIds
  preempted : ∀ x ∈ p.plan.preempted, ¬p.scheduler.Unstarted x

theorem Turned.step (h : Turned s p) (q : Queued p.scheduler) (step : PassStep p p') : Turned s p' := by
  cases step with
  | @batch id seq n pool taken plan run new live chunk took pushed =>
    obtain ⟨batch, -, eq⟩ := bind_some pushed
    obtain rfl := Option.some.inj eq
    have same : ∀ x, ((p.scheduler.setPool pool).setSeq id (seq.withBlocks (seq.blocks ++ taken))).Unstarted x ↔
        p.scheduler.Unstarted x := by
      intro x
      rw [unstarted_update (s := p.scheduler) rfl]
      split
      · rename_i here
        rw [here, unstarted_iff live]
        rfl
      · rfl
    exact ⟨fun x => (same x).trans (h.fresh x), fun x mem => (same x).not.mpr (h.preempted x mem)⟩
  | @preempt id seq n pool taken err run new live chunk took =>
    have same : ∀ x, ((((p.scheduler.setPool (pool.freeAll (seq.blocks ++ taken))).setSeq id
        seq.resetForRecompute).setRunning (p.scheduler.running.filter (· ≠ id))).setWaiting
          (id :: p.scheduler.waiting)).Unstarted x ↔ p.scheduler.Unstarted x := by
      intro x
      rw [unstarted_update (s := p.scheduler) rfl]
      split
      · rename_i here
        exact iff_of_false (by simp) (here ▸ q.not_fresh run)
      · rfl
    refine ⟨fun x => (same x).trans (h.fresh x), fun x mem => (same x).not.mpr ?_⟩
    rcases List.mem_append.mp mem with before | now
    · exact h.preempted x before
    · exact List.mem_singleton.mp now ▸ q.not_fresh run
  | @start id rest seq found pool matched taken cached head live budget room hit fits took =>
    have gone : ∀ x, (((((p.scheduler.setTenants (p.scheduler.tenantsFor seq.tenant)).setPool pool).setSeq id
        (seq.startOn matched cached taken)).setWaiting rest).setRunning (p.scheduler.running ++ [id])).Unstarted x ↔
        p.scheduler.Unstarted x ∧ x ≠ id := by
      intro x
      rw [unstarted_update (s := p.scheduler) rfl]
      split
      · rename_i here
        exact iff_of_false (by simp) fun fresh => fresh.2 here
      · rename_i other
        exact (and_iff_left other).symm
    refine ⟨fun x => (gone x).trans ?_, fun x mem fresh => h.preempted x mem ((gone x).mp fresh).1⟩
    rw [h.fresh]
    simp [StepPlan.startedIds, StepPlan.start, and_assoc]
  | refuse head live hit took => exact ⟨h.fresh, h.preempted⟩

theorem Turned.steps (h : Turned s p) (q : Queued p.scheduler) (steps : PassSteps p p') : Turned s p' := by
  induction steps with
  | refl => exact h
  | tail first step ih => exact ih.step (passSteps_queued first q) step

theorem decodeOne_demotes {id : SeqId} {kept : Bool} (h : p.decodeOne id = some (p', kept)) :
    ∃ down, Demotes p p' down := by
  have stays : ∀ b, some (p, b) = some (p', kept) → ∃ down, Demotes p p' down := by
    intro b eq
    obtain ⟨rfl, -⟩ := Prod.mk.inj (Option.some.inj eq)
    exact ⟨[], .refl p⟩
  unfold Pass.decodeOne at h
  split at h
  · exact stays _ h
  · split at h
    · exact stays _ h
    · split at h
      · exact stays _ h
      · split at h
        · exact stays _ h
        · exact extendOrPreempt_demotes h

theorem decodeLoop_demotes {ids survivors : List SeqId} (h : Pass.decodeLoop ids p = some (p', survivors)) :
    ∃ down, Demotes p p' down := by
  induction ids generalizing p survivors with
  | nil =>
    obtain ⟨rfl, -⟩ := Prod.mk.inj (Option.some.inj h)
    exact ⟨[], .refl p⟩
  | cons id ids ih =>
    obtain ⟨⟨p₁, kept⟩, one, h⟩ := bind_some h
    obtain ⟨⟨p₂, rest⟩, loop, h⟩ := bind_some h
    obtain ⟨rfl, -⟩ := Prod.mk.inj (Option.some.inj h)
    obtain ⟨down, first⟩ := decodeOne_demotes one
    obtain ⟨later, then_⟩ := ih loop
    exact ⟨_, first.trans then_⟩

theorem continueLoop_demotes {ids : List SeqId} (h : Pass.continueLoop ids p = some p') :
    ∃ down, Demotes p p' down := by
  induction ids generalizing p with
  | nil => exact ⟨[], Option.some.inj h ▸ .refl p⟩
  | cons id ids ih =>
    unfold Pass.continueLoop at h
    split at h
    · exact ⟨[], Option.some.inj h ▸ .refl p⟩
    · split at h
      · exact ih h
      · split at h
        · exact ih h
        · obtain ⟨p₁, chunk, loop⟩ := bind_some h
          obtain ⟨down, first⟩ := prefillChunk_demotes chunk
          obtain ⟨later, then_⟩ := ih loop
          exact ⟨_, first.trans then_⟩

/-- The start loop takes a first part of the queue, and batches what it takes. -/
theorem startLoop_takes (fuel : Nat) (ok : PassOk base p) (size : 0 < base.cfg.blockSize)
    (same : base.pool.blockSize = base.cfg.blockSize) (h : Pass.startLoop fuel p = some p') :
    ∃ ids, p.scheduler.waiting = ids ++ p'.scheduler.waiting ∧
      p'.plan.startedIds = p.plan.startedIds ++ ids ∧ p'.plan.preempted = p.plan.preempted ∧
      (base.cfg.prefillChunkTokens ≠ 0 → ∀ x ∈ ids, x ∈ p'.plan.batchSeqs) := by
  induction fuel generalizing p with
  | zero => cases h
  | succ fuel ih =>
    have none : p = p' → ∃ ids, p.scheduler.waiting = ids ++ p'.scheduler.waiting ∧
        p'.plan.startedIds = p.plan.startedIds ++ ids ∧ p'.plan.preempted = p.plan.preempted ∧
        (base.cfg.prefillChunkTokens ≠ 0 → ∀ x ∈ ids, x ∈ p'.plan.batchSeqs) := by
      rintro rfl
      exact ⟨[], rfl, (List.append_nil _).symm, rfl, by simp⟩
    by_cases stop : p.budget = 0 ∨ p.scheduler.cfg.maxConcurrentSeqs ≤ p.scheduler.running.length
    · rw [Pass.startLoop, if_pos stop] at h
      exact none (Option.some.inj h)
    · cases head : p.scheduler.waiting with
      | nil =>
        simp only [Pass.startLoop, if_neg stop, head] at h
        exact head ▸ none (Option.some.inj h)
      | cons id rest =>
        obtain ⟨seq, live, -⟩ := ok.queued.waiting (head ▸ List.mem_cons_self : id ∈ p.scheduler.waiting)
        rcases hit : p.scheduler.matchCached (p.scheduler.nsFor seq.tenant) seq with ⟨found, matched, cached⟩
        rw [not_or, Nat.not_le] at stop
        rcases startLoop_turn fuel ok size same stop.1 stop.2 head live hit with
          ⟨-, p₁, done, plan, waiting⟩ | ⟨-, p₁, next, steps, waiting, started, preempted, batched⟩
        · obtain rfl := Option.some.inj (done.symm.trans h)
          exact ⟨[], by rw [List.nil_append, waiting, head], by rw [plan, List.append_nil], by rw [plan], by simp⟩
        · rw [next] at h
          have ok₁ := ok.steps size steps
          obtain ⟨ids, queue, starts, demoted, inBatch⟩ := ih ok₁ h
          refine ⟨id :: ids, ?_, ?_, demoted.trans preempted, fun chunks x mem => ?_⟩
          · rw [List.cons_append, ← queue, waiting]
          · rw [starts, StepPlan.startedIds, started, List.map_append, List.append_assoc]
            rfl
          · rcases List.mem_cons.mp mem with rfl | mem
            · exact (passSteps_batchSeqs (startLoop_steps h ok₁.queued ok₁.batched)).subset (batched (ok.cfg ▸ chunks))
            · exact inBatch chunks x mem

/-- What a schedule does to the queue: the sequences it preempts join at the
head, and those it starts leave from there. -/
structure Reordered (s : Scheduler B) (plan : StepPlan) (t : Scheduler B) : Prop where
  nextId : s.nextId ≤ t.nextId
  queue : plan.preempted.reverse ++ s.waiting = plan.startedIds ++ t.waiting
  nodup : (plan.preempted.reverse ++ s.waiting).Nodup
  known : ∀ x ∈ plan.preempted.reverse ++ s.waiting, x < t.nextId
  demoted : ∀ x ∈ plan.preempted, ¬s.Unstarted x
  fresh : ∀ x, t.Unstarted x ↔ s.Unstarted x ∧ x ∉ plan.startedIds
  running : ∀ x ∈ plan.batchSeqs, x ∈ t.running
  sampled : ∀ x ∈ plan.sampledSeqs, x ∈ plan.batchSeqs
  batched : s.cfg.prefillChunkTokens ≠ 0 → ∀ x ∈ plan.startedIds, x ∈ plan.batchSeqs

theorem schedule_reordered {t : Scheduler B} {plan : StepPlan}
    (ok : PassOk base ⟨s, {}, s.cfg.maxBatchedTokens⟩) (size : 0 < base.cfg.blockSize)
    (same : base.pool.blockSize = base.cfg.blockSize) (e : s.schedule = some (t, plan)) : Reordered s plan t := by
  obtain ⟨p₁, decodes, e⟩ := bind_some e
  obtain ⟨p₃, prefills, e⟩ := bind_some e
  obtain ⟨rfl, rfl⟩ := Prod.mk.inj (Option.some.inj e)
  obtain ⟨p₂, continued, starts⟩ := bind_some prefills
  obtain ⟨decoding, only⟩ := scheduleDecodes_steps decodes ok.queued rfl
  have ok₁ := ok.steps size decoding
  have continuing := continueLoop_steps continued (ok₁.queued.nodup .running) (fun _ mem => mem)
    fun id _ mem => only id mem
  have ok₂ := ok₁.steps size continuing
  have starting := startLoop_steps starts ok₂.queued ok₂.batched
  have ok₃ := ok₂.steps size starting
  have turned : Turned s ⟨s, {}, s.cfg.maxBatchedTokens⟩ := ⟨by simp [StepPlan.startedIds], by simp⟩
  have turned₂ := turned.steps ok.queued (decoding.trans continuing)
  have turned₃ := turned₂.steps ok₂.queued starting
  obtain ⟨⟨p, survivors⟩, loop, eq⟩ := bind_some decodes
  obtain rfl := Option.some.inj eq
  obtain ⟨down, first⟩ := decodeLoop_demotes loop
  obtain ⟨later, second⟩ := continueLoop_demotes continued
  have first : Demotes ⟨s, {}, s.cfg.maxBatchedTokens⟩ (p.setScheduler (p.scheduler.setRunning survivors)) down :=
    ⟨first.started, first.preempted, first.waiting⟩
  have demotes := first.trans second
  obtain ⟨ids, taken, started, preempted, batched⟩ := startLoop_takes _ ok₂ size same starts
  have none : p₂.plan.startedIds = [] := congrArg (List.map Prod.fst) demotes.started
  have names : p₃.plan.preempted = down ++ later := preempted.trans demotes.preempted
  have head : p₃.plan.preempted.reverse ++ s.waiting = p₂.scheduler.waiting := by rw [names, demotes.waiting]
  refine ⟨(passSteps_lineage (decoding.trans (continuing.trans starting)) ok.queued).nextId, ?_, ?_, ?_, ?_,
    turned₃.fresh, ok₃.batched, ?_, fun chunks x mem => ?_⟩
  · change p₃.plan.preempted.reverse ++ s.waiting = p₃.plan.startedIds ++ p₃.scheduler.waiting
    rw [head, taken, started, none, List.nil_append]
  · exact head ▸ ok₂.queued.nodup .waiting
  · intro x mem
    have mem : x ∈ p₃.plan.preempted.reverse ++ s.waiting := mem
    rw [head] at mem
    exact Nat.lt_of_lt_of_le (ok₂.queued.known .waiting mem) (passSteps_lineage starting ok₂.queued).nextId
  · intro x mem fresh
    refine turned₂.preempted x (preempted ▸ mem) ((turned₂.fresh x).mpr ⟨fresh, ?_⟩)
    rw [none]
    exact List.not_mem_nil
  · intro x mem
    obtain ⟨es, plan⟩ := ok₃.plan
    change x ∈ p₃.plan.sampledSeqs at mem
    change x ∈ p₃.plan.batchSeqs
    rw [plan.sampledSeqs] at mem
    rw [plan.batchSeqs]
    exact (List.filter_sublist.map Entry.id).subset mem
  · refine batched (ok.cfg ▸ chunks) x ?_
    have mem : x ∈ p₃.plan.startedIds := mem
    rwa [started, none, List.nil_append] at mem

end Pass

/-- A call after which no other sequence waits, or waits unstarted. -/
structure Calm (s t : Scheduler B) : Prop where
  nextId : s.nextId ≤ t.nextId
  waiting : t.waiting.Sublist s.waiting
  fresh : ∀ x, t.Unstarted x → s.Unstarted x
  kept : ∀ x ∈ t.waiting, s.Unstarted x → t.Unstarted x

section Calls

variable {s t u : Scheduler B}

omit [DecidableEq H] in
theorem Calm.refl (s : Scheduler B) : Calm s s := ⟨Nat.le_refl _, List.Sublist.refl _, fun _ => id, fun _ _ => id⟩

omit [DecidableEq H] in
theorem Calm.trans (h : Calm s t) (k : Calm t u) : Calm s u where
  nextId := Nat.le_trans h.nextId k.nextId
  waiting := k.waiting.trans h.waiting
  fresh x fresh := h.fresh x (k.fresh x fresh)
  kept x mem fresh := k.kept x mem (h.kept x (k.waiting.subset mem) fresh)

omit [DecidableEq H] in
/-- One sequence changes, and not into or out of one that never started. -/
theorem Calm.update {id : SeqId} {new : Sequence} (nextId : s.nextId ≤ t.nextId) (waiting : t.waiting = s.waiting)
    (seqs : t.seqs = Function.update s.seqs id (some new)) (same : new.status = .waiting ↔ s.Unstarted id) : Calm s t := by
  have iff : ∀ x, t.Unstarted x ↔ s.Unstarted x := by
    intro x
    rw [unstarted_update seqs]
    split
    · rename_i here
      exact here ▸ same
    · rfl
  exact ⟨nextId, by rw [waiting], fun x => (iff x).mp, fun x _ => (iff x).mpr⟩

omit [DecidableEq H] in
/-- An admission is refused, or enters the sequence at the end of the queue. -/
theorem admit_cases (s : Scheduler B) (requestId : RequestId) (prompt : List Token) (params : SamplingParams)
    (tenant : String) :
    (∃ error, s.admitRequest requestId prompt params tenant = (s, .error error)) ∨
    prompt ≠ [] ∧ s.admitRequest requestId prompt params tenant =
      ((s.register (Sequence.new requestId prompt params tenant)).setWaiting (s.waiting ++ [s.nextId]), .ok s.nextId) := by
  unfold Scheduler.admitRequest
  split
  · exact .inl ⟨_, rfl⟩
  · rename_i some_
    split
    · exact .inl ⟨_, rfl⟩
    · exact .inr ⟨some_, rfl⟩

omit [DecidableEq H] in
theorem finish_calm (s : Scheduler B) (id : SeqId) (reason : FinishReason) : Calm s (s.finish id reason) := by
  rcases finish_cases s id reason with same | ⟨seq, -, -, eq⟩
  · rw [same]
    exact .refl s
  · rw [eq]
    refine ⟨Nat.le_refl _, List.filter_sublist, fun x fresh => ?_, fun x mem fresh => ?_⟩
    · rw [unstarted_update (s := s) rfl] at fresh
      split at fresh
      · cases fresh
      · exact fresh
    · have other : x ≠ id := of_decide_eq_true (List.mem_filter.mp mem).2
      rw [unstarted_update (s := s) rfl, if_neg other]
      exact fresh

omit [DecidableEq H] in
theorem finish_waits {id x : SeqId} (reason : FinishReason) (mem : x ∈ s.waiting) (other : x ≠ id) :
    x ∈ (s.finish id reason).waiting := by
  rcases finish_cases s id reason with same | ⟨seq, -, -, eq⟩
  · rwa [same]
  · rw [eq]
    exact List.mem_filter.mpr ⟨mem, decide_eq_true other⟩

omit [DecidableEq H] in
theorem cancel_calm (s : Scheduler B) (requestId : RequestId) : Calm s (s.cancel requestId).1 := by
  rw [cancel_eq]
  generalize s.sequencesOf requestId = ids
  induction ids generalizing s with
  | nil => exact .refl s
  | cons id ids ih => exact (finish_calm s id .cancelled).trans (ih _)

theorem forkChildren_calm (q : Queued s) (src : Scheduler.ForkSource) (n : Nat) (out : Fork) :
    Calm s (Scheduler.forkChildren src n out s).1 ∧ (Scheduler.forkChildren src n out s).1.waiting = s.waiting := by
  induction n generalizing s out with
  | zero => exact ⟨.refl s, rfl⟩
  | succ n ih =>
    unfold Scheduler.forkChildren
    rcases Scheduler.childBlocks src s.cfg.blockSize s.pool with ⟨pool, e | ⟨blocks, copy⟩⟩
    · exact ⟨⟨Nat.le_refl _, List.Sublist.refl _, fun _ => id, fun _ _ => id⟩, rfl⟩
    · have unknown : ¬s.Unstarted s.nextId := fun fresh => Nat.lt_irrefl _ (q.known .waiting (q.waits fresh))
      have entered : Calm s ((s.setPool pool).addFork src blocks) :=
        .update (Nat.le_succ _) rfl rfl (iff_of_false (by simp) unknown)
      obtain ⟨more, waiting⟩ := ih (addFork_queued (setPool_queued q pool) src blocks)
        { ids := out.ids ++ [s.nextId], copies := out.copies ++ copy.toList }
      exact ⟨entered.trans more, waiting⟩

theorem fork_calm (q : Queued s) (parent : SeqId) (n : Nat) :
    Calm s (s.fork parent n).1 ∧ (s.fork parent n).1.waiting = s.waiting := by
  unfold Scheduler.fork
  split
  · exact ⟨.refl s, rfl⟩
  · split
    · exact ⟨.refl s, rfl⟩
    · exact forkChildren_calm q _ n _

theorem seedFork_calm (s : Scheduler B) (id : SeqId) (token : Token) :
    Calm s (s.seedFork id token).1 ∧ (s.seedFork id token).1.waiting = s.waiting := by
  unfold Scheduler.seedFork
  cases live : s.seqs id with
  | none => exact ⟨.refl s, rfl⟩
  | some seq =>
    simp only
    split <;> exact ⟨.update (Nat.le_refl _) rfl rfl (unstarted_iff live).symm, rfl⟩

omit [DecidableEq H] in
theorem advanceOne_calm (s : Scheduler B) (id : SeqId) (n : Nat) :
    Calm s (s.advanceOne id n) ∧ (s.advanceOne id n).waiting = s.waiting := by
  unfold Scheduler.advanceOne
  cases live : s.seqs id with
  | none => exact ⟨.refl s, rfl⟩
  | some seq =>
    refine ⟨.update (Nat.le_refl _) rfl rfl ?_, rfl⟩
    rw [unstarted_iff live]
    split
    · rename_i prefilled
      have was : seq.status = .prefilling := prefilled.2
      rw [was]
      exact iff_of_false (by simp) (by simp)
    · rfl

omit [DecidableEq H] in
theorem pushSampled_calm (s : Scheduler B) (id : SeqId) (token : Token) :
    Calm s (s.pushSampled id token) ∧ ∀ x ∈ s.waiting, x ≠ id → x ∈ (s.pushSampled id token).waiting := by
  cases live : s.seqs id with
  | none =>
    unfold Scheduler.pushSampled
    simp only [live]
    exact ⟨.refl s, fun x mem _ => mem⟩
  | some seq =>
    have pushed : Calm s (s.setSeq id (seq.pushToken token)) :=
      .update (Nat.le_refl _) rfl rfl (unstarted_iff live).symm
    rcases pushSampled_cases live token with e | ⟨reason, -, e⟩ <;> rw [e]
    · exact ⟨pushed, fun x mem _ => mem⟩
    · exact ⟨pushed.trans (finish_calm _ id reason), fun x mem other => finish_waits reason mem other⟩

omit [DecidableEq H] in
theorem sampledLoop_calm (s : Scheduler B) (pairs : List (SeqId × Token)) :
    Calm s (s.sampledLoop pairs) ∧ ∀ x ∈ s.waiting, x ∉ pairs.map Prod.fst → x ∈ (s.sampledLoop pairs).waiting := by
  unfold Scheduler.sampledLoop
  induction pairs generalizing s with
  | nil => exact ⟨.refl s, fun x mem _ => mem⟩
  | cons p pairs ih =>
    obtain ⟨first, waits⟩ := pushSampled_calm s p.1 p.2
    obtain ⟨more, waits'⟩ := ih (s.pushSampled p.1 p.2)
    refine ⟨first.trans more, fun x mem out => ?_⟩
    obtain ⟨other, out⟩ := List.ne_and_not_mem_of_not_mem_cons out
    exact waits' x (waits x mem other) out

theorem publishLoop_calm {ids : List SeqId} (e : Scheduler.publishLoop ids s = some t) :
    Calm s t ∧ t.waiting = s.waiting := by
  induction ids generalizing s with
  | nil =>
    obtain rfl := Option.some.inj e
    exact ⟨.refl s, rfl⟩
  | cons id ids ih =>
    obtain ⟨s₁, one, rest⟩ := bind_some e
    obtain ⟨more, waiting⟩ := ih rest
    rcases publishOne_cases one with rfl | ⟨seq, pool, swaps, blocks, pool', live, -, -, -, -, eq⟩
    · exact ⟨more, waiting⟩
    · have published : Calm s s₁ :=
        .update (by rw [eq]; exact Nat.le_refl _) (by rw [eq]; rfl) (congrArg Scheduler.seqs eq)
          (by exact (unstarted_iff live).symm)
      exact ⟨published.trans more, waiting.trans (by rw [eq]; rfl)⟩

theorem commit_calm {plan : StepPlan} {sampled : List Token} (e : s.commit plan sampled = some t) :
    Calm s t ∧ ∀ x ∈ s.waiting, x ∉ plan.sampledSeqs → x ∈ t.waiting := by
  obtain ⟨s₁, advanced, e⟩ := bind_some e
  obtain ⟨first, waiting⟩ := advanceLoop_preserves (P := fun t => Calm s t ∧ t.waiting = s.waiting)
    (fun s' id n h => ⟨h.1.trans (advanceOne_calm s' id n).1, (advanceOne_calm s' id n).2.trans h.2⟩)
    ⟨.refl s, rfl⟩ advanced
  obtain ⟨second, waits⟩ := sampledLoop_calm s₁ (plan.sampledSeqs.zip sampled)
  have pushed := first.trans second
  have stays : ∀ x ∈ s.waiting, x ∉ plan.sampledSeqs → x ∈ (s₁.sampledLoop (plan.sampledSeqs.zip sampled)).waiting :=
    fun x mem out => waits x (waiting ▸ mem) fun named => by
      obtain ⟨pair, paired, rfl⟩ := List.mem_map.mp named
      exact out (List.of_mem_zip paired).1
  unfold Scheduler.publishFullBlocks at e
  split at e
  · obtain ⟨third, same⟩ := publishLoop_calm e
    exact ⟨pushed.trans third, fun x mem out => same ▸ stays x mem out⟩
  · exact Option.some.inj e ▸ ⟨pushed, stays⟩

omit [DecidableEq H] in
theorem drainLoop_waiting (ids : List SeqId) (s : Scheduler B) :
    (Scheduler.drainLoop ids s).1.waiting = s.waiting := by
  induction ids generalizing s with
  | nil => rfl
  | cons id ids ih =>
    unfold Scheduler.drainLoop
    refine (ih _).trans ?_
    unfold Scheduler.drainOne
    split <;> rfl

omit [DecidableEq H] in
theorem drainFinished_calm (q : Queued s) : Calm s s.drainFinished.1 ∧ s.drainFinished.1.waiting = s.waiting := by
  have waiting : s.drainFinished.1.waiting = s.waiting := drainLoop_waiting s.finished (s.setFinished [])
  obtain ⟨-, -, left, -⟩ := drainFinished_spec q
  refine ⟨⟨Nat.le_of_eq (drainFinished_emptied s).nextId.symm, by rw [waiting], ?_, ?_⟩, waiting⟩
  · rintro x ⟨seq, live, waits⟩
    rw [left] at live
    split at live
    · cases live
    · exact ⟨seq, live, waits⟩
  · rintro x - ⟨seq, live, waits⟩
    refine ⟨seq, ?_, waits⟩
    rw [left, if_neg fun ended => ?_]
    · exact live
    · obtain ⟨seq', live', place⟩ := (q.mem .finished x).mp ended
      obtain rfl := Option.some.inj (live.symm.trans live')
      rw [waits] at place
      cases place

end Calls

end Vapi.Engine
