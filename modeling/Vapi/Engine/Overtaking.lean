import Vapi.Engine.Turns

/-!
# Who starts before whom

The waiting queue holds the preempted sequences ahead of those that never
started, and these in the order of their admission.
-/

namespace Vapi.Engine

open Vapi.Cache
open Transition (Run Done)

variable {H : Type} {B : Blake3 H} [DecidableEq H]

section History

def Admitted (ls : List (Op × Outcome)) (id : SeqId) : Prop :=
  ∃ requestId prompt params tenant,
    (Op.admitRequest requestId prompt params tenant, Outcome.admitted (.ok id)) ∈ ls

def Planned (ls : List (Op × Outcome)) (plan : StepPlan) : Prop := (Op.schedule, Outcome.planned plan) ∈ ls

def Started (ls : List (Op × Outcome)) (id : SeqId) : Prop := ∃ plan, Planned ls plan ∧ id ∈ plan.startedIds

/-- In some batch. -/
def Appeared (ls : List (Op × Outcome)) (id : SeqId) : Prop := ∃ plan, Planned ls plan ∧ id ∈ plan.batchSeqs

/-- What is committed is a plan that was handed out. -/
def CommitsPlanned (ls : List (Op × Outcome)) : Prop :=
  ∀ ls₁ plan sampled outcome ls₂, ls = ls₁ ++ (.commit plan sampled, outcome) :: ls₂ → Planned ls₁ plan

/-- A sequence is cancelled, or finished, before it ever started. -/
def Withdrawn (id : SeqId) (s : Scheduler B) (l : Op × Outcome) (t : Scheduler B) : Prop :=
  ((∃ requestId, l.1 = .cancel requestId) ∨ ∃ reason, l.1 = .finishWith id reason) ∧ s.Unstarted id ∧ ¬t.Unstarted id

def StepPlan.Names (plan : StepPlan) (id : SeqId) : Prop :=
  id ∈ plan.startedIds ∨ id ∈ plan.preempted ∨ id ∈ plan.batchSeqs ∨ id ∈ plan.sampledSeqs

variable {s t : Scheduler B} {ls : List (Op × Outcome)} {l : Op × Outcome}

theorem CommitsPlanned.before (own : CommitsPlanned (ls ++ [l])) : CommitsPlanned ls := by
  rintro ls₁ plan sampled outcome ls₂ rfl
  exact own ls₁ plan sampled outcome (ls₂ ++ [l]) (by simp)

/-- What one call can do to the sequences that never started. -/
theorem step_turns (q : Queued s) (step : s.Step l t) :
    (∃ plan, l = (.schedule, .planned plan) ∧ s.schedule = some (t, plan)) ∨
    ((∃ requestId prompt params tenant, l = (.admitRequest requestId prompt params tenant, .admitted (.ok s.nextId))) ∧
      t.waiting = s.waiting ++ [s.nextId] ∧ t.nextId = s.nextId + 1 ∧
      ∀ x, t.Unstarted x ↔ x = s.nextId ∨ s.Unstarted x) ∨
    ((∀ plan, l ≠ (.schedule, .planned plan)) ∧ ¬(∃ id, Admitted [l] id) ∧ Calm s t ∧
      ∀ x, s.Unstarted x → t.Unstarted x ∨ Withdrawn x s l t ∨
        ∃ plan sampled outcome, l = (.commit plan sampled, outcome) ∧ x ∈ plan.sampledSeqs) := by
  obtain ⟨op, outcome⟩ := l
  obtain ⟨-, e⟩ := step
  change s.exec op = some (t, outcome) at e
  have still : Calm s t → t.waiting = s.waiting → ∀ x, s.Unstarted x → t.Unstarted x := fun calm waiting x fresh =>
    calm.kept x (waiting ▸ q.waits fresh) fresh
  cases op with
  | admitRequest requestId prompt params tenant =>
    change some ((s.admitRequest requestId prompt params tenant).1,
      Outcome.admitted (s.admitRequest requestId prompt params tenant).2) = some (t, outcome) at e
    rcases admit_cases s requestId prompt params tenant with ⟨error, refused⟩ | ⟨-, entered⟩
    · rw [refused] at e
      obtain ⟨rfl, rfl⟩ := Prod.mk.inj (Option.some.inj e)
      exact .inr (.inr ⟨by simp, by simp [Admitted], .refl s, fun x fresh => .inl fresh⟩)
    · rw [entered] at e
      obtain ⟨rfl, rfl⟩ := Prod.mk.inj (Option.some.inj e)
      refine .inr (.inl ⟨⟨requestId, prompt, params, tenant, rfl⟩, rfl, rfl, fun x => ?_⟩)
      rw [unstarted_update (s := s) rfl]
      split
      · rename_i here
        exact iff_of_true rfl (.inl here)
      · rename_i other
        exact (or_iff_right other).symm
  | schedule =>
    obtain ⟨⟨s', plan⟩, scheduled, eq⟩ := Option.map_eq_some_iff.mp e
    obtain ⟨rfl, rfl⟩ := Prod.mk.inj eq
    exact .inl ⟨plan, rfl, scheduled⟩
  | commit plan sampled =>
    obtain ⟨s', committed, eq⟩ := Option.map_eq_some_iff.mp e
    obtain ⟨rfl, rfl⟩ := Prod.mk.inj eq
    obtain ⟨calm, stays⟩ := commit_calm committed
    refine .inr (.inr ⟨by simp, by simp [Admitted], calm, fun x fresh => ?_⟩)
    by_cases named : x ∈ plan.sampledSeqs
    · exact .inr (.inr ⟨plan, sampled, _, rfl, named⟩)
    · exact .inl (calm.kept x (stays x (q.waits fresh) named) fresh)
  | fork parent extra =>
    obtain ⟨rfl, rfl⟩ := Prod.mk.inj (Option.some.inj e)
    obtain ⟨calm, waiting⟩ := fork_calm q parent extra
    exact .inr (.inr ⟨by simp, by simp [Admitted], calm, fun x fresh => .inl (still calm waiting x fresh)⟩)
  | seedFork id token =>
    obtain ⟨rfl, rfl⟩ := Prod.mk.inj (Option.some.inj e)
    obtain ⟨calm, waiting⟩ := seedFork_calm s id token
    exact .inr (.inr ⟨by simp, by simp [Admitted], calm, fun x fresh => .inl (still calm waiting x fresh)⟩)
  | cancel requestId =>
    obtain ⟨rfl, rfl⟩ := Prod.mk.inj (Option.some.inj e)
    refine .inr (.inr ⟨by simp, by simp [Admitted], cancel_calm s requestId, fun x fresh => ?_⟩)
    by_cases kept : (s.cancel requestId).1.Unstarted x
    · exact .inl kept
    · exact .inr (.inl ⟨.inl ⟨requestId, rfl⟩, fresh, kept⟩)
  | finishWith id reason =>
    obtain ⟨rfl, rfl⟩ := Prod.mk.inj (Option.some.inj e)
    have calm := finish_calm s id reason
    refine .inr (.inr ⟨by simp, by simp [Admitted], calm, fun x fresh => ?_⟩)
    by_cases kept : (s.finishWith id reason).Unstarted x
    · exact .inl kept
    · by_cases here : x = id
      · exact .inr (.inl ⟨.inr ⟨reason, here ▸ rfl⟩, fresh, kept⟩)
      · exact .inl (calm.kept x (finish_waits reason (q.waits fresh) here) fresh)
  | drainFinished =>
    obtain ⟨rfl, rfl⟩ := Prod.mk.inj (Option.some.inj e)
    obtain ⟨calm, waiting⟩ := drainFinished_calm q
    exact .inr (.inr ⟨by simp, by simp [Admitted], calm, fun x fresh => .inl (still calm waiting x fresh)⟩)

end History

section Runs

variable {s₀ s t : Scheduler B} {ls : List (Op × Outcome)} {l : Op × Outcome} {chunk : Nat}

/-- The invariant of a run: how the queue is ordered, and what is on record of
the sequences in it. -/
structure Fair (chunk : Nat) (s₀ : Scheduler B) (ls : List (Op × Outcome)) (s : Scheduler B) : Prop where
  queued : Queued s
  ordered : s.waiting.Pairwise fun a b => s.Unstarted a → s.Unstarted b ∧ a < b
  known : ∀ id, Admitted ls id → id < s.nextId
  waits : ∀ id, Admitted ls id → s.Unstarted id ∨ Started ls id ∨ Done Scheduler.Step (Withdrawn id) s₀ ls s
  turned : ∀ plan, Planned ls plan → ∀ id, plan.Names id → id < s.nextId ∧ ¬s.Unstarted id
  behind : ∀ a b, s.Unstarted a → a < b → Admitted ls b → Started ls b →
    Done Scheduler.Step (Withdrawn b) s₀ ls s
  batched : chunk ≠ 0 → ∀ plan, Planned ls plan → ∀ id ∈ plan.startedIds, id ∈ plan.batchSeqs

theorem planned_snoc {plan : StepPlan} : Planned (ls ++ [l]) plan ↔ Planned ls plan ∨ l = (.schedule, .planned plan) := by
  simp [Planned, eq_comm]

theorem admitted_snoc {id : SeqId} : Admitted (ls ++ [l]) id ↔ Admitted ls id ∨ Admitted [l] id := by
  simp only [Admitted, List.mem_append, exists_or]

theorem Started.snoc {id : SeqId} (h : Started ls id) : Started (ls ++ [l]) id :=
  h.imp fun _ ⟨planned, named⟩ => ⟨planned_snoc.mpr (.inl planned), named⟩

/-- The queue a schedule starts from is in the same order. -/
theorem Fair.order {plan : StepPlan} (h : Fair chunk s₀ ls s) (r : Reordered s plan t) :
    (plan.startedIds ++ t.waiting).Pairwise fun a b => s.Unstarted a → s.Unstarted b ∧ a < b := by
  rw [← r.queue]
  refine List.pairwise_append.mpr ⟨List.pairwise_of_forall_mem_list fun a mem b _ fresh => ?_, h.ordered,
    fun a mem b _ fresh => ?_⟩ <;>
    exact absurd fresh (r.demoted a (List.mem_reverse.mp mem))

theorem Fair.schedule {plan : StepPlan} (h : Fair chunk s₀ ls s) (q : Queued t) (r : Reordered s plan t)
    (chunks : chunk ≠ 0 → s.cfg.prefillChunkTokens ≠ 0) (step : s.Step (.schedule, .planned plan) t) :
    Fair chunk s₀ (ls ++ [(.schedule, .planned plan)]) t := by
  have admitted : ∀ id, Admitted (ls ++ [(.schedule, .planned plan)]) id → Admitted ls id := fun id known => by
    simpa [Admitted] using known
  obtain ⟨-, rest, ahead⟩ := List.pairwise_append.mp (h.order r)
  have apart : ∀ x ∈ t.waiting, x ∉ plan.startedIds := fun x waits starts =>
    (List.nodup_append.mp (r.queue ▸ r.nodup)).2.2 x starts x waits rfl
  have named : ∀ id, plan.Names id → id < t.nextId ∧ ¬t.Unstarted id := by
    have running : ∀ id ∈ plan.batchSeqs, id < t.nextId ∧ ¬t.Unstarted id := fun id mem =>
      ⟨q.known .running (r.running id mem), q.not_fresh (r.running id mem)⟩
    rintro id (starts | demoted | inBatch | sampled)
    · exact ⟨r.known id (r.queue ▸ List.mem_append_left _ starts), fun fresh => ((r.fresh id).mp fresh).2 starts⟩
    · exact ⟨r.known id (List.mem_append_left _ (List.mem_reverse.mpr demoted)),
        fun fresh => r.demoted id demoted ((r.fresh id).mp fresh).1⟩
    · exact running id inBatch
    · exact running id (r.sampled id sampled)
  refine ⟨q, rest.imp_of_mem fun {a b} _ waits before fresh => ?_,
    fun id known => Nat.lt_of_lt_of_le (h.known id (admitted id known)) r.nextId, fun id known => ?_,
    fun other planned id names => ?_, fun a b fresh lt known starts => ?_, fun some_ other planned => ?_⟩
  · obtain ⟨fresh', lt⟩ := before ((r.fresh a).mp fresh).1
    exact ⟨(r.fresh b).mpr ⟨fresh', apart b waits⟩, lt⟩
  · rcases h.waits id (admitted id known) with fresh | starts | gone
    · by_cases now : id ∈ plan.startedIds
      · exact .inr (.inl ⟨plan, planned_snoc.mpr (.inr rfl), now⟩)
      · exact .inl ((r.fresh id).mpr ⟨fresh, now⟩)
    · exact .inr (.inl starts.snoc)
    · exact .inr (.inr (gone.snoc step))
  · rcases planned_snoc.mp planned with before | now
    · obtain ⟨lt, not⟩ := h.turned other before id names
      exact ⟨Nat.lt_of_lt_of_le lt r.nextId, fun fresh => not ((r.fresh id).mp fresh).1⟩
    · obtain rfl : plan = other := by simpa using now
      exact named id names
  · obtain ⟨fresh, stays⟩ := (r.fresh a).mp fresh
    obtain ⟨other, planned, mem⟩ := starts
    rcases planned_snoc.mp planned with before | now
    · exact (h.behind a b fresh lt (admitted b known) ⟨other, before, mem⟩).snoc step
    · obtain rfl : plan = other := by simpa using now
      rcases h.waits b (admitted b known) with fresh' | starts | gone
      · have waits : a ∈ t.waiting := q.waits ((r.fresh a).mpr ⟨fresh, stays⟩)
        exact absurd lt (Nat.lt_asymm (ahead b mem a waits fresh').2)
      · exact (h.behind a b fresh lt (admitted b known) starts).snoc step
      · exact gone.snoc step
  · rcases planned_snoc.mp planned with before | now
    · exact h.batched some_ other before
    · obtain rfl : plan = other := by simpa using now
      exact r.batched (chunks some_)

theorem Fair.admit (h : Fair chunk s₀ ls s) (q : Queued t) (step : s.Step l t)
    (enters : ∃ requestId prompt params tenant, l = (.admitRequest requestId prompt params tenant, .admitted (.ok s.nextId)))
    (waiting : t.waiting = s.waiting ++ [s.nextId]) (nextId : t.nextId = s.nextId + 1)
    (fresh_iff : ∀ x, t.Unstarted x ↔ x = s.nextId ∨ s.Unstarted x) : Fair chunk s₀ (ls ++ [l]) t := by
  obtain ⟨requestId, prompt, params, tenant, rfl⟩ := enters
  have old : ∀ {id}, id < s.nextId → id < t.nextId := fun lt => nextId ▸ Nat.lt_succ_of_lt lt
  have admitted : ∀ id, Admitted (ls ++ [(.admitRequest requestId prompt params tenant, .admitted (.ok s.nextId))]) id →
      Admitted ls id ∨ id = s.nextId := fun id known =>
    (admitted_snoc.mp known).imp_right fun now => by simpa [Admitted] using now
  have planned : ∀ plan, Planned (ls ++ [(.admitRequest requestId prompt params tenant, .admitted (.ok s.nextId))]) plan →
      Planned ls plan := fun plan known => (planned_snoc.mp known).resolve_right (by simp)
  have new : ∀ plan, Planned ls plan → ¬plan.Names s.nextId := fun plan known names =>
    Nat.lt_irrefl _ (h.turned plan known _ names).1
  refine ⟨q, ?_, fun id known => ?_, fun id known => ?_, fun plan known id names => ?_,
    fun a b fresh lt known starts => ?_, fun some_ plan known => h.batched some_ plan (planned plan known)⟩
  · rw [waiting]
    refine List.pairwise_append.mpr ⟨h.ordered.imp_of_mem fun {a b} mem _ before fresh => ?_,
      List.pairwise_singleton _ _, fun a mem b last fresh => ?_⟩
    · have other : a ≠ s.nextId := Nat.ne_of_lt (h.queued.known .waiting mem)
      obtain ⟨fresh, lt⟩ := before (((fresh_iff a).mp fresh).resolve_left other)
      exact ⟨(fresh_iff b).mpr (.inr fresh), lt⟩
    · rw [List.mem_singleton.mp last]
      exact ⟨(fresh_iff _).mpr (.inl rfl), h.queued.known .waiting mem⟩
  · rcases admitted id known with before | rfl
    · exact old (h.known id before)
    · exact nextId ▸ Nat.lt_succ_self _
  · rcases admitted id known with before | rfl
    · rcases h.waits id before with fresh | starts | gone
      · exact .inl ((fresh_iff id).mpr (.inr fresh))
      · exact .inr (.inl starts.snoc)
      · exact .inr (.inr (gone.snoc step))
    · exact .inl ((fresh_iff _).mpr (.inl rfl))
  · obtain ⟨lt, not⟩ := h.turned plan (planned plan known) id names
    refine ⟨old lt, fun fresh => ?_⟩
    exact not (((fresh_iff id).mp fresh).resolve_left (Nat.ne_of_lt lt))
  · obtain ⟨plan, known', mem⟩ := starts
    have starts : Started ls b := ⟨plan, planned plan known', mem⟩
    rcases admitted b known with before | rfl
    · rcases (fresh_iff a).mp fresh with rfl | fresh
      · exact absurd lt (Nat.lt_asymm (h.known b before))
      · exact (h.behind a b fresh lt before starts).snoc step
    · exact absurd (.inl mem) (new plan (planned plan known'))

theorem Fair.calm (run : Run Scheduler.Step s₀ ls s) (h : Fair chunk s₀ ls s) (q : Queued t) (step : s.Step l t)
    (unplanned : ∀ plan, l ≠ (.schedule, .planned plan)) (unadmitted : ¬∃ id, Admitted [l] id) (calm : Calm s t)
    (kept : ∀ x, s.Unstarted x → t.Unstarted x ∨ Withdrawn x s l t ∨
      ∃ plan sampled outcome, l = (.commit plan sampled, outcome) ∧ x ∈ plan.sampledSeqs)
    (own : ∀ plan sampled outcome, l = (.commit plan sampled, outcome) → Planned ls plan) :
    Fair chunk s₀ (ls ++ [l]) t := by
  have admitted : ∀ id, Admitted (ls ++ [l]) id → Admitted ls id := fun id known =>
    (admitted_snoc.mp known).resolve_right fun now => unadmitted ⟨id, now⟩
  have planned : ∀ plan, Planned (ls ++ [l]) plan → Planned ls plan := fun plan known =>
    (planned_snoc.mp known).resolve_right (unplanned plan)
  have starts : ∀ id, Started (ls ++ [l]) id → Started ls id := fun id known =>
    known.imp fun plan ⟨known, mem⟩ => ⟨planned plan known, mem⟩
  refine ⟨q, (h.ordered.sublist calm.waiting).imp_of_mem fun {a b} _ mem before fresh => ?_,
    fun id known => Nat.lt_of_lt_of_le (h.known id (admitted id known)) calm.nextId, fun id known => ?_,
    fun plan known id names => ?_, fun a b fresh lt known started => ?_,
    fun some_ plan known => h.batched some_ plan (planned plan known)⟩
  · obtain ⟨fresh, lt⟩ := before (calm.fresh a fresh)
    exact ⟨calm.kept b mem fresh, lt⟩
  · rcases h.waits id (admitted id known) with fresh | starts | gone
    · rcases kept id fresh with fresh | now | ⟨plan, sampled, outcome, eq, mem⟩
      · exact .inl fresh
      · exact .inr (.inr (run.done step now))
      · exact absurd fresh (h.turned plan (own plan sampled outcome eq) id (.inr (.inr (.inr mem)))).2
    · exact .inr (.inl starts.snoc)
    · exact .inr (.inr (gone.snoc step))
  · obtain ⟨lt, not⟩ := h.turned plan (planned plan known) id names
    exact ⟨Nat.lt_of_lt_of_le lt calm.nextId, fun fresh => not (calm.fresh id fresh)⟩
  · exact (h.behind a b (calm.fresh a fresh) lt (admitted b known) (starts b started)).snoc step

section Queue

variable {cfg : SchedulerConfig} {n watermark : Nat} {ns : CacheNamespace B} {eos : List Token}

/-- A schedule at the end of a run. -/
theorem run_reordered (size : 0 < cfg.blockSize)
    (run : Run Scheduler.Step (Scheduler.new cfg (BlockPool.new n cfg.blockSize watermark) ns eos) ls s)
    {plan : StepPlan} (e : s.schedule = some (t, plan)) : s.cfg = cfg ∧ Reordered s plan t := by
  obtain ⟨extra, balanced⟩ := run_balanced run
  exact ⟨balanced.setup.cfg, schedule_reordered (.start ⟨_, balanced⟩ (run_regular run).2) size
    (new_fields n cfg.blockSize watermark).2.1 e⟩

theorem run_fair (size : 0 < cfg.blockSize)
    (run : Run Scheduler.Step (Scheduler.new cfg (BlockPool.new n cfg.blockSize watermark) ns eos) ls s)
    (own : CommitsPlanned ls) :
    Fair cfg.prefillChunkTokens (Scheduler.new cfg (BlockPool.new n cfg.blockSize watermark) ns eos) ls s := by
  induction run with
  | nil =>
    exact ⟨new_queued .., .nil, by simp [Admitted], by simp [Admitted], by simp [Planned], by simp [Admitted],
      by simp [Planned]⟩
  | @snoc ls s t l run step ih =>
    have fair := ih own.before
    have queued := step_queued fair.queued step
    rcases step_turns fair.queued step with
      ⟨plan, rfl, scheduled⟩ | ⟨enters, waiting, nextId, fresh⟩ | ⟨unplanned, unadmitted, calm, kept⟩
    · obtain ⟨cfg_eq, reordered⟩ := run_reordered size run scheduled
      exact fair.schedule queued reordered (fun some_ => cfg_eq ▸ some_) step
    · exact fair.admit queued step enters waiting nextId fresh
    · refine fair.calm run queued step unplanned unadmitted calm kept fun plan sampled outcome eq => ?_
      exact own ls plan sampled outcome [] (by rw [eq])

end Queue

section Empty

/-- All that is live has known text to forward. -/
def Prefilling (s : Scheduler B) : Prop := ∀ id seq, s.seqs id = some seq → seq.needsPrefill = true

omit [DecidableEq H] in
theorem Prefilling.update (h : Prefilling s) {id : SeqId} {new : Sequence}
    (seqs : t.seqs = Function.update s.seqs id (some new)) (more : new.needsPrefill = true) : Prefilling t := by
  intro x seq live
  rw [seqs, Function.update_apply] at live
  split at live
  · exact Option.some.inj live ▸ more
  · exact h x seq live

/-- With chunks of no tokens a pass batches nothing that is still prefilling,
and so has nothing to preempt. -/
theorem passSteps_prefilling {base : Scheduler B} {p p' : Pass B} (ok : PassOk base p) (size : 0 < base.cfg.blockSize)
    (same : base.pool.blockSize = base.cfg.blockSize) (none : base.cfg.prefillChunkTokens = 0)
    (h : Prefilling p.scheduler) (steps : PassSteps p p') :
    Prefilling p'.scheduler ∧ p'.plan.batchSeqs = p.plan.batchSeqs := by
  induction steps with
  | refl => exact ⟨h, rfl⟩
  | @tail p₁ p₂ first step ih =>
    obtain ⟨prefilling, batchSeqs⟩ := ih
    have ok₁ := ok.steps size first
    have idle : ∀ {id seq q}, p₁.scheduler.seqs id = some seq → ¬Chunk p₁ seq q := by
      rintro id seq q live ⟨pos, -, decodes | chunk⟩
      · rw [prefilling id seq live] at decodes
        exact absurd decodes.1 (by simp)
      · rw [ok₁.cfg, none] at chunk
        omega
    cases step with
    | batch run new live chunk took pushed => exact absurd chunk (idle live)
    | preempt run new live chunk took => exact absurd chunk (idle live)
    | @start id rest seq found pool matched taken cached head live budget room hit fits took =>
      refine ⟨prefilling.update rfl ?_, batchSeqs⟩
      have := ok₁.cached_lt same live hit
      simp only [Sequence.needsPrefill, Sequence.remainingPrefill, Sequence.startOn_prefillTarget,
        Sequence.startOn_numComputed, decide_eq_true_eq]
      omega
    | refuse head live hit took => exact ⟨prefilling, batchSeqs⟩

omit [DecidableEq H] in
theorem finish_prefilling (h : Prefilling s) (id : SeqId) (reason : FinishReason) : Prefilling (s.finish id reason) := by
  rcases finish_cases s id reason with same | ⟨seq, live, -, eq⟩
  · rwa [same]
  · rw [eq]
    exact h.update rfl (by exact h id seq live)

omit [DecidableEq H] in
theorem cancel_prefilling (h : Prefilling s) (requestId : RequestId) : Prefilling (s.cancel requestId).1 := by
  rw [cancel_eq]
  generalize s.sequencesOf requestId = ids
  induction ids generalizing s with
  | nil => exact h
  | cons id ids ih => exact ih (finish_prefilling h id .cancelled)

/-- What is prefilling is not forked. -/
theorem fork_prefilling (h : Prefilling s) (parent : SeqId) (extra : Nat) : Prefilling (s.fork parent extra).1 := by
  unfold Scheduler.fork
  split
  · exact h
  · rename_i seq live
    rw [if_pos (h parent seq live)]
    exact h

theorem seedFork_prefilling (h : Prefilling s) (id : SeqId) (token : Token) : Prefilling (s.seedFork id token).1 := by
  unfold Scheduler.seedFork
  cases live : s.seqs id with
  | none => exact h
  | some seq =>
    simp only
    split <;> exact h.update rfl (by exact h id seq live)

theorem commit_empty {plan : StepPlan} {sampled : List Token} (none : plan.batchSeqs = [] ∧ plan.sampledSeqs = [])
    (e : s.commit plan sampled = some t) : t = s := by
  simp only [Scheduler.commit, none.1, none.2, Scheduler.advanceLoop, Scheduler.sampledLoop, List.zip_nil_left,
    List.foldl_nil, Scheduler.publishFullBlocks, Scheduler.publishLoop, ite_self, Option.bind_eq_bind,
    Option.bind_some, Option.some.injEq] at e
  exact e.symm

/-- A call other than a schedule keeps it so. -/
theorem step_prefilling (h : Prefilling s) (step : s.Step l t) (unplanned : l.1 ≠ .schedule)
    (empty : ∀ plan sampled, l.1 = .commit plan sampled → plan.batchSeqs = [] ∧ plan.sampledSeqs = []) :
    Prefilling t := by
  obtain ⟨op, outcome⟩ := l
  obtain ⟨-, e⟩ := step
  change s.exec op = some (t, outcome) at e
  cases op with
  | admitRequest requestId prompt params tenant =>
    change some ((s.admitRequest requestId prompt params tenant).1,
      Outcome.admitted (s.admitRequest requestId prompt params tenant).2) = some (t, outcome) at e
    rcases admit_cases s requestId prompt params tenant with ⟨error, refused⟩ | ⟨some_, entered⟩
    · rw [refused] at e
      obtain ⟨rfl, -⟩ := Prod.mk.inj (Option.some.inj e)
      exact h
    · rw [entered] at e
      obtain ⟨rfl, -⟩ := Prod.mk.inj (Option.some.inj e)
      exact h.update rfl (decide_eq_true (List.length_pos_iff.mpr some_))
  | schedule => exact absurd rfl unplanned
  | commit plan sampled =>
    obtain ⟨s', committed, eq⟩ := Option.map_eq_some_iff.mp e
    obtain ⟨rfl, -⟩ := Prod.mk.inj eq
    rwa [commit_empty (empty plan sampled rfl) committed]
  | fork parent extra =>
    obtain ⟨rfl, -⟩ := Prod.mk.inj (Option.some.inj e)
    exact fork_prefilling h parent extra
  | seedFork id token =>
    obtain ⟨rfl, -⟩ := Prod.mk.inj (Option.some.inj e)
    exact seedFork_prefilling h id token
  | cancel requestId =>
    obtain ⟨rfl, -⟩ := Prod.mk.inj (Option.some.inj e)
    exact cancel_prefilling h requestId
  | finishWith id reason =>
    obtain ⟨rfl, -⟩ := Prod.mk.inj (Option.some.inj e)
    exact finish_prefilling h id reason
  | drainFinished =>
    obtain ⟨rfl, -⟩ := Prod.mk.inj (Option.some.inj e)
    exact fun id seq live => h id seq (drainLoop_seqs (s := s.setFinished []) live)

variable {cfg : SchedulerConfig} {n watermark : Nat} {ns : CacheNamespace B} {eos : List Token}

/-- With chunks of no tokens nothing is ever batched. -/
theorem run_prefilling (size : 0 < cfg.blockSize) (none : cfg.prefillChunkTokens = 0)
    (run : Run Scheduler.Step (Scheduler.new cfg (BlockPool.new n cfg.blockSize watermark) ns eos) ls s)
    (own : CommitsPlanned ls) :
    Prefilling s ∧ ∀ plan, Planned ls plan → plan.batchSeqs = [] ∧ plan.sampledSeqs = [] := by
  induction run with
  | nil => exact ⟨by simp [Prefilling, Scheduler.new], by simp [Planned]⟩
  | @snoc ls s t l run step ih =>
    obtain ⟨prefilling, empty⟩ := ih own.before
    have own' : ∀ plan sampled, l.1 = .commit plan sampled → Planned ls plan := fun plan sampled eq =>
      own ls plan sampled l.2 [] (by rw [← eq])
    obtain ⟨extra, balanced⟩ := run_balanced run
    have ok := PassOk.start ⟨_, balanced⟩ (run_regular run).2
    rcases step_turns ok.queued step with ⟨plan, rfl, scheduled⟩ | ⟨enters, -⟩ | ⟨unplanned, -⟩
    · obtain ⟨-, reordered⟩ := run_reordered size run scheduled
      obtain ⟨p, steps, rfl, rfl⟩ := schedule_steps scheduled ok.queued
      obtain ⟨still, batchSeqs⟩ :=
        passSteps_prefilling ok size (new_fields n cfg.blockSize watermark).2.1 none prefilling steps
      have batchSeqs : p.plan.measured.batchSeqs = [] := batchSeqs
      refine ⟨still, fun other planned => ?_⟩
      rcases planned_snoc.mp planned with before | now
      · exact empty other before
      · obtain rfl : p.plan.measured = other := by simpa using now
        exact ⟨batchSeqs, List.eq_nil_iff_forall_not_mem.mpr fun x mem => by
          simpa [batchSeqs] using reordered.sampled x mem⟩
    · obtain ⟨requestId, prompt, params, tenant, rfl⟩ := enters
      refine ⟨step_prefilling prefilling step (by simp) (by simp), fun plan planned => ?_⟩
      exact empty plan ((planned_snoc.mp planned).resolve_right (by simp))
    · refine ⟨step_prefilling prefilling step ?_ fun plan sampled eq => empty plan (own' plan sampled eq),
        fun plan planned => empty plan ((planned_snoc.mp planned).resolve_right (unplanned plan))⟩
      intro eq
      obtain ⟨op, outcome⟩ := l
      obtain rfl : op = .schedule := eq
      obtain ⟨r, -, eq⟩ := Option.map_eq_some_iff.mp step.2
      exact unplanned r.2 (congrArg (Prod.mk Op.schedule) (Prod.mk.inj eq).2.symm)

end Empty

/-- Ids are given in the order of admission. -/
theorem admitted_ge (q : Queued s₀) (run : Run Scheduler.Step s₀ ls s) {id : SeqId} (known : Admitted ls id) :
    s₀.nextId ≤ id := by
  suffices Queued s ∧ s₀.nextId ≤ s.nextId ∧ ∀ id, Admitted ls id → s₀.nextId ≤ id from this.2.2 id known
  clear known
  induction run with
  | nil => exact ⟨q, Nat.le_refl _, by simp [Admitted]⟩
  | @snoc ls s t l run step ih =>
    obtain ⟨queued, le, above⟩ := ih
    refine ⟨step_queued queued step, Nat.le_trans le (step_lineage queued step).nextId, fun id known => ?_⟩
    rcases admitted_snoc.mp known with before | now
    · exact above id before
    · rcases step_turns queued step with ⟨plan, rfl, -⟩ | ⟨⟨requestId, prompt, params, tenant, rfl⟩, -⟩ |
        ⟨-, unadmitted, -⟩
      · simp [Admitted] at now
      · obtain rfl : id = s.nextId := by simpa [Admitted] using now
        exact le
      · exact absurd ⟨id, now⟩ unadmitted

/-- Of two requests neither of which is withdrawn before it starts, the one
admitted first is in a batch no later than the other. And a schedule restarts
what was preempted, earlier or by itself, before it starts what never was. -/
theorem no_overtaking {cfg : SchedulerConfig} {n watermark : Nat} {ns : CacheNamespace B} {eos : List Token}
    (size : 0 < cfg.blockSize)
    (run : Run Scheduler.Step (Scheduler.new cfg (BlockPool.new n cfg.blockSize watermark) ns eos) ls s)
    (own : CommitsPlanned ls) :
    (∀ first second a b, ls = first ++ second → Admitted first a → Admitted second b →
      (∀ id, id = a ∨ id = b → ¬Done Scheduler.Step (Withdrawn id)
        (Scheduler.new cfg (BlockPool.new n cfg.blockSize watermark) ns eos) ls s) →
      Appeared ls b → Appeared ls a) ∧
    (∀ plan t p r, s.Step (.schedule, .planned plan) t →
      (p ∈ plan.preempted ∨ p ∈ s.waiting ∧ ∃ before, Planned ls before ∧ p ∈ before.preempted) →
      Admitted ls r → ¬Started ls r →
      ¬Done Scheduler.Step (Withdrawn r) (Scheduler.new cfg (BlockPool.new n cfg.blockSize watermark) ns eos) ls s →
      r ∈ plan.startedIds → [p, r].Sublist plan.startedIds) := by
  have fair := run_fair size run own
  constructor
  · rintro first second a b rfl before after stay ⟨plan, planned, inBatch⟩
    obtain ⟨u, run₁, run₂⟩ := run.split
    have own₁ : CommitsPlanned first := fun ls₁ plan sampled outcome ls₂ eq =>
      own ls₁ plan sampled outcome (ls₂ ++ second) (by rw [eq]; simp)
    have fair₁ := run_fair size run₁ own₁
    have lt : a < b := Nat.lt_of_lt_of_le (fair₁.known a before) (admitted_ge fair₁.queued run₂ after)
    have known : ∀ {id}, Admitted first id ∨ Admitted second id → Admitted (first ++ second) id := by
      rintro id (⟨requestId, prompt, params, tenant, mem⟩ | ⟨requestId, prompt, params, tenant, mem⟩)
      · exact ⟨requestId, prompt, params, tenant, List.mem_append_left _ mem⟩
      · exact ⟨requestId, prompt, params, tenant, List.mem_append_right _ mem⟩
    have chunks : cfg.prefillChunkTokens ≠ 0 := by
      intro none
      rw [((run_prefilling size none run own).2 plan planned).1] at inBatch
      exact absurd inBatch List.not_mem_nil
    have started : Started (first ++ second) b := by
      rcases fair.waits b (known (.inr after)) with fresh | starts | gone
      · exact absurd fresh (fair.turned plan planned b (.inr (.inr (.inl inBatch)))).2
      · exact starts
      · exact absurd gone (stay b (.inr rfl))
    rcases fair.waits a (known (.inl before)) with fresh | ⟨other, planned', mem⟩ | gone
    · exact absurd (fair.behind a b fresh lt (known (.inr after)) started) (stay b (.inr rfl))
    · exact ⟨other, planned', fair.batched chunks other planned' a mem⟩
    · exact absurd gone (stay a (.inl rfl))
  · intro plan t p r step demoted known never stay starts
    obtain ⟨⟨u, other⟩, scheduled, eq⟩ := Option.map_eq_some_iff.mp step.2
    obtain ⟨rfl, same⟩ := Prod.mk.inj eq
    obtain rfl : other = plan := Outcome.planned.inj same
    obtain ⟨-, reordered⟩ := run_reordered size run scheduled
    have fresh : s.Unstarted r := by
      rcases fair.waits r known with fresh | starts | gone
      · exact fresh
      · exact absurd starts never
      · exact absurd gone stay
    obtain ⟨queued, stale⟩ : p ∈ other.startedIds ++ u.waiting ∧ ¬s.Unstarted p := by
      rw [← reordered.queue, List.mem_append, List.mem_reverse]
      rcases demoted with now | ⟨waits, before, planned, mem⟩
      · exact ⟨.inl now, reordered.demoted p now⟩
      · exact ⟨.inr waits, (fair.turned before planned p (.inr (.inl mem))).2⟩
    -- behind a sequence that never started there is none that was preempted
    obtain ⟨xs, ys, split⟩ := List.append_of_mem starts
    have order := fair.order reordered
    rw [split, List.append_assoc, List.cons_append] at order queued
    have behind := (List.pairwise_cons.mp (List.pairwise_append.mp order).2.1).1
    have ahead : p ∈ xs := by
      rcases List.mem_append.mp queued with ahead | later
      · exact ahead
      · rcases List.mem_cons.mp later with rfl | later
        · exact absurd fresh stale
        · exact absurd (behind p later fresh).1 stale
    rw [split]
    exact (List.singleton_sublist.mpr ahead).append (List.singleton_sublist.mpr List.mem_cons_self)

end Runs

/-- Two requests in the queue. -/
def twoWaiting : Scheduler Blake3.identity :=
  ((Scheduler.fresh { blockSize := 4 } 4 0).admitRequest ⟨"a"⟩ [1, 2] {} "global").1.admitRequest ⟨"b"⟩ [3] {} "global" |>.1

/-- The second is in the first batch, and so is the first. -/
theorem no_overtaking_two :
    ∃ ls s, Run Scheduler.Step (Scheduler.fresh { blockSize := 4 } 4 0) ls s ∧ Appeared ls 1 ∧ Appeared ls 0 := by
  have batched : (twoWaiting.schedule.map fun r => decide (1 ∈ r.2.batchSeqs)) = some true := by decide +kernel
  obtain ⟨⟨t, plan⟩, scheduled, has⟩ := Option.map_eq_some_iff.mp batched
  have admits : Run Scheduler.Step (Scheduler.fresh { blockSize := 4 } 4 0)
      [(.admitRequest ⟨"a"⟩ [1, 2] {} "global", .admitted (.ok 0)),
        (.admitRequest ⟨"b"⟩ [3] {} "global", .admitted (.ok 1))] twoWaiting :=
    .cons ⟨by simp, rfl⟩ <| .cons ⟨by simp, rfl⟩ .nil
  have run : Run Scheduler.Step (Scheduler.fresh { blockSize := 4 } 4 0)
      ([(.admitRequest ⟨"a"⟩ [1, 2] {} "global", .admitted (.ok 0))] ++
        [(.admitRequest ⟨"b"⟩ [3] {} "global", .admitted (.ok 1)), (.schedule, .planned plan)]) t :=
    admits.snoc ⟨by simp, by
      change twoWaiting.schedule.map (fun r => (r.1, Outcome.planned r.2)) = _
      rw [scheduled]
      rfl⟩
  have second : Appeared ([(.admitRequest ⟨"a"⟩ [1, 2] {} "global", .admitted (.ok 0))] ++
      [(.admitRequest ⟨"b"⟩ [3] {} "global", .admitted (.ok 1)), (.schedule, .planned plan)]) 1 :=
    ⟨plan, List.mem_append_right _ (List.mem_cons_of_mem _ List.mem_cons_self), of_decide_eq_true has⟩
  refine ⟨_, _, run, second, (no_overtaking (by decide) run ?_).1 _ _ 0 1 rfl ?_ ?_ ?_ second⟩
  · intro ls₁ plan sampled outcome ls₂ eq
    have mem : (Op.commit plan sampled, outcome) ∈ ls₁ ++ (Op.commit plan sampled, outcome) :: ls₂ := by simp
    rw [← eq] at mem
    simp at mem
  · exact ⟨_, _, _, _, List.mem_cons_self⟩
  · exact ⟨_, _, _, _, List.mem_cons_self⟩
  · rintro id - ⟨ls₁, l, ls₂, a, b, eq, -, -, -, calls, -⟩
    have mem : l ∈ ls₁ ++ l :: ls₂ := by simp
    rw [← eq] at mem
    simp only [List.mem_append, List.mem_cons, List.not_mem_nil, or_false] at mem
    rcases mem with rfl | rfl | rfl <;> simp at calls

end Vapi.Engine
