import Vapi.Engine.Pass
import Vapi.Lib.Run

/-!
# Runs of the scheduler

The calls an engine makes on the scheduler, and what holds of the queues in
every state they lead to.
-/

namespace Vapi.Engine

open Vapi.Cache
open Transition (Run)

inductive Op
  | admitRequest (requestId : RequestId) (prompt : List Token) (params : SamplingParams) (tenant : String)
  | schedule
  | commit (plan : StepPlan) (sampled : List Token)
  | fork (parent : SeqId) (extra : Nat)
  | seedFork (id : SeqId) (token : Token)
  | cancel (requestId : RequestId)
  | finishWith (id : SeqId) (reason : FinishReason)
  | drainFinished

inductive Outcome
  | done
  | admitted (r : Except Error SeqId)
  | planned (plan : StepPlan)
  | forked (r : Except Error Fork)
  | seeded (r : Except Error Unit)
  | cancelled (first : Option SeqId)
  | drained (sequences : List (SeqId × Sequence))

variable {H : Type} [DecidableEq H] {B : Blake3 H}

namespace Scheduler

def exec (s : Scheduler B) : Op → Option (Scheduler B × Outcome)
  | .admitRequest requestId prompt params tenant =>
    let (s, r) := s.admitRequest requestId prompt params tenant
    some (s, .admitted r)
  | .schedule => s.schedule.map fun r => (r.1, .planned r.2)
  | .commit plan sampled => (s.commit plan sampled).map fun s => (s, .done)
  | .fork parent extra =>
    let (s, r) := s.fork parent extra
    some (s, .forked r)
  | .seedFork id token =>
    let (s, r) := s.seedFork id token
    some (s, .seeded r)
  | .cancel requestId =>
    let (s, first) := s.cancel requestId
    some (s, .cancelled first)
  | .finishWith id reason => some (s.finishWith id reason, .done)
  | .drainFinished =>
    let (s, sequences) := s.drainFinished
    some (s, .drained sequences)

/-- One call, with what it returned. A fork is seeded while it runs. -/
def Step (s : Scheduler B) (l : Op × Outcome) (t : Scheduler B) : Prop :=
  (∀ id token, l.1 = .seedFork id token → id ∈ s.running) ∧ s.exec l.1 = some (t, l.2)

end Scheduler

section Queues

variable {s t : Scheduler B}

omit [DecidableEq H] in
theorem new_queued (cfg : SchedulerConfig) (pool : BlockPool H) (ns : CacheNamespace B)
    (eos : List Token) : Queued (Scheduler.new cfg pool ns eos) where
  fresh := by simp [Scheduler.new]
  nodup := by intro place; cases place <;> simp [Scheduler.new, Scheduler.queue]
  mem := by intro place id; cases place <;> simp [Scheduler.new, Scheduler.queue]
  idle := by simp [Scheduler.new]

omit [DecidableEq H] in
/-- A new sequence joins the end of the queue of its status. -/
theorem Queued.enter (h : Queued s) {seq : Sequence} (nextId : t.nextId = s.nextId + 1)
    (seqs : t.seqs = Function.update s.seqs s.nextId (some seq))
    (queue : ∀ place, t.queue place =
      if seq.status.place = place then s.queue place ++ [s.nextId] else s.queue place)
    (idle : seq.status.place ≠ .running → seq.blocks = []) : Queued t := by
  have unknown : s.seqs s.nextId = none := by
    cases e : s.seqs s.nextId with
    | none => rfl
    | some old => exact absurd (h.fresh _ old e) (Nat.lt_irrefl _)
  have out : ∀ place, s.nextId ∉ s.queue place := by
    intro place hm
    obtain ⟨old, live, -⟩ := (h.mem place _).mp hm
    simp [unknown] at live
  refine ⟨?_, ?_, ?_, ?_⟩
  · intro x seq' live
    rw [seqs, Function.update_apply] at live
    rw [nextId]
    split at live
    · rename_i e; exact e ▸ Nat.lt_succ_self _
    · exact Nat.lt_succ_of_lt (h.fresh x seq' live)
  · intro place
    rw [queue]
    split
    · exact List.nodup_append.mpr ⟨h.nodup place, by simp, fun x hx y hy e =>
        out place (by simp at hy; exact hy ▸ e ▸ hx)⟩
    · exact h.nodup place
  · intro place x
    rw [queue, seqs, Function.update_apply]
    by_cases e : x = s.nextId
    · subst e
      by_cases same : seq.status.place = place <;> simp [same, out place]
    · by_cases same : seq.status.place = place <;> simp [same, e, h.mem place]
  · intro x seq' live
    rw [seqs, Function.update_apply] at live
    split at live
    · exact Option.some.inj live ▸ idle
    · exact h.idle x seq' live

omit [DecidableEq H] in
theorem admit_queued (h : Queued s) (requestId : RequestId) (prompt : List Token)
    (params : SamplingParams) (tenant : String) :
    Queued (s.admitRequest requestId prompt params tenant).1 := by
  unfold Scheduler.admitRequest
  split
  · exact h
  · split
    · exact h
    · exact h.enter rfl rfl (fun place => by cases place <;> rfl) (fun _ => rfl)

omit [DecidableEq H] in
theorem finish_cases (s : Scheduler B) (id : SeqId) (reason : FinishReason) :
    s.finish id reason = s ∨ ∃ seq, s.seqs id = some seq ∧ seq.status.place ≠ .finished ∧
      s.finish id reason = s.retire id seq reason := by
  unfold Scheduler.finish
  cases live : s.seqs id with
  | none => exact .inl rfl
  | some seq =>
    by_cases fin : seq.status.isFinished
    · exact .inl (by simp [fin])
    · exact .inr ⟨seq, rfl, fun e => fin ((SeqStatus.isFinished_iff _).mpr e), by simp [fin]⟩

omit [DecidableEq H] in
theorem retire_queued (h : Queued s) {id : SeqId} {seq : Sequence} (reason : FinishReason)
    (live : s.seqs id = some seq) (going : seq.status.place ≠ .finished) :
    Queued (s.retire id seq reason) := by
  have out : id ∉ s.finished := by
    intro hm
    obtain ⟨old, live', place⟩ := (h.mem .finished id).mp hm
    rw [live] at live'
    exact going (Option.some.inj live' ▸ place)
  refine h.change (h.fresh id seq live) rfl rfl ?_ ?_ (fun _ => rfl)
  · intro place
    cases place with
    | waiting => exact (h.nodup .waiting).filter _
    | running => exact (h.nodup .running).filter _
    | finished =>
      exact List.nodup_append.mpr ⟨h.nodup .finished, by simp, fun x hx y hy e =>
        out (by simp at hy; exact hy ▸ e ▸ hx)⟩
  · intro place x
    by_cases e : x = id <;> cases place <;>
      simp [Scheduler.queue, Scheduler.retire, e, SeqStatus.place]

omit [DecidableEq H] in
theorem finish_queued (h : Queued s) (id : SeqId) (reason : FinishReason) :
    Queued (s.finish id reason) := by
  rcases finish_cases s id reason with same | ⟨seq, live, going, eq⟩
  · rw [same]; exact h
  · rw [eq]; exact retire_queued h reason live going

omit [DecidableEq H] in
/-- Cancelling is finishing some sequences in turn. -/
theorem cancel_eq (s : Scheduler B) (requestId : RequestId) :
    (s.cancel requestId).1 =
      (s.sequencesOf requestId).foldl (fun s id => s.finish id .cancelled) s := by
  unfold Scheduler.cancel Scheduler.sequencesOf
  cases s.byRequest requestId <;> rfl

omit [DecidableEq H] in
theorem cancel_queued (h : Queued s) (requestId : RequestId) : Queued (s.cancel requestId).1 := by
  rw [cancel_eq]
  generalize s.sequencesOf requestId = ids
  induction ids generalizing s with
  | nil => exact h
  | cons id ids ih => exact ih (finish_queued h id .cancelled)

omit [DecidableEq H] in
theorem addFork_queued (h : Queued s) (src : Scheduler.ForkSource) (blocks : List BlockId) :
    Queued (s.addFork src blocks) :=
  h.enter rfl rfl (fun place => by cases place <;> rfl) (fun e => absurd rfl e)

omit [DecidableEq H] in
theorem setPool_queued (h : Queued s) (pool : BlockPool H) : Queued (s.setPool pool) :=
  h.congr rfl rfl (funext fun place => by cases place <;> rfl)

theorem forkChildren_queued (h : Queued s) (src : Scheduler.ForkSource) (extra : Nat) (out : Fork) :
    Queued (Scheduler.forkChildren src extra out s).1 := by
  induction extra generalizing s out with
  | zero => exact h
  | succ extra ih =>
    unfold Scheduler.forkChildren
    rcases Scheduler.childBlocks src s.cfg.blockSize s.pool with ⟨pool, e | ⟨blocks, copy⟩⟩
    · exact setPool_queued h pool
    · exact ih (addFork_queued (setPool_queued h pool) src blocks) _

theorem fork_queued (h : Queued s) (parent : SeqId) (extra : Nat) :
    Queued (s.fork parent extra).1 := by
  unfold Scheduler.fork
  split
  · exact h
  · split
    · exact h
    · exact forkChildren_queued h _ _ _

theorem seedFork_queued (h : Queued s) {id : SeqId} (run : id ∈ s.running) (token : Token) :
    Queued (s.seedFork id token).1 := by
  obtain ⟨seq, live, place⟩ := h.running run
  unfold Scheduler.seedFork
  simp only [live]
  rcases takeBlocks BlockPool.allocateGuarded _ s.pool with ⟨pool, taken, failed⟩
  have kept : Queued ((s.setPool pool).setSeq id
      ((seq.pushToken token).withBlocks ((seq.pushToken token).blocks ++ taken))) :=
    h.keep live (by rfl) rfl rfl (funext fun place => by cases place <;> rfl)
      (fun idle => absurd place idle)
  cases failed <;> exact kept

omit [DecidableEq H] in
/-- The commit's effect on one sequence of the batch. -/
theorem advanceOne_queued (h : Queued s) (id : SeqId) (q : Nat) : Queued (s.advanceOne id q) := by
  unfold Scheduler.advanceOne
  split
  · exact h
  · rename_i seq live
    refine h.keep live ?_ rfl rfl (funext fun place => by cases place <;> rfl) ?_
    · split
      · rename_i prefilled
        exact (congrArg SeqStatus.place prefilled.2).symm
      · rfl
    · intro idle
      have := h.idle id seq live
      split at idle
      · exact absurd rfl idle
      · split
        · exact this idle
        · exact this idle

omit [DecidableEq H] in
/-- The first phase of a commit preserves what advancing one sequence does. -/
theorem advanceLoop_preserves {t : Scheduler B} {P : Scheduler B → Prop}
    (step : ∀ s id q, P s → P (s.advanceOne id q)) (h : P s) {ids : List SeqId} {cu : List UInt32}
    (e : Scheduler.advanceLoop ids cu s = some t) : P t := by
  induction ids generalizing s cu with
  | nil => simp only [Scheduler.advanceLoop, Option.some.injEq] at e; exact e ▸ h
  | cons id ids ih =>
    cases cu with
    | nil => cases e
    | cons lo cu =>
      cases cu with
      | nil => cases e
      | cons hi cu => exact ih (step s id (hi - lo).toNat h) e

omit [DecidableEq H] in
theorem advanceLoop_queued {t : Scheduler B} (h : Queued s) {ids : List SeqId} {cu : List UInt32}
    (e : Scheduler.advanceLoop ids cu s = some t) : Queued t :=
  advanceLoop_preserves (fun _ id q h => advanceOne_queued h id q) h e

omit [DecidableEq H] in
theorem pushSampled_cases {id : SeqId} {seq : Sequence} (live : s.seqs id = some seq)
    (token : Token) :
    s.pushSampled id token = s.setSeq id (seq.pushToken token) ∨
    ∃ reason, (seq.pushToken token).checkFinished s.eosTokenIds s.cfg.maxContext = some reason ∧
      s.pushSampled id token = (s.setSeq id (seq.pushToken token)).finish id reason := by
  unfold Scheduler.pushSampled
  simp only [live, Scheduler.setSeq_eosTokenIds, Scheduler.setSeq_cfg]
  cases (seq.pushToken token).checkFinished s.eosTokenIds s.cfg.maxContext with
  | none => exact .inl rfl
  | some reason => exact .inr ⟨reason, rfl, rfl⟩

omit [DecidableEq H] in
theorem pushSampled_queued (h : Queued s) (id : SeqId) (token : Token) :
    Queued (s.pushSampled id token) := by
  cases live : s.seqs id with
  | none => simpa [Scheduler.pushSampled, live] using h
  | some seq =>
    have pushed : Queued (s.setSeq id (seq.pushToken token)) :=
      h.keep live (by rfl) rfl rfl (funext fun place => by cases place <;> rfl) (h.idle id seq live)
    rcases pushSampled_cases live token with e | ⟨reason, -, e⟩ <;> rw [e]
    · exact pushed
    · exact finish_queued pushed id reason

omit [DecidableEq H] in
theorem sampledLoop_queued (h : Queued s) (pairs : List (SeqId × Token)) :
    Queued (s.sampledLoop pairs) := by
  unfold Scheduler.sampledLoop
  induction pairs generalizing s with
  | nil => exact h
  | cons p pairs ih => exact ih (pushSampled_queued h p.1 p.2)

theorem publishBlocks_nil (items : List (Nat × H)) (pool : BlockPool H) :
    Scheduler.publishBlocks [] items pool = (pool, []) := by
  induction items with
  | nil => rfl
  | cons item items ih => simpa [Scheduler.publishBlocks] using ih

/-- Publishing changes one sequence's blocks, never how many there are. -/
theorem publishOne_cases {t : Scheduler B} {id : SeqId} (e : s.publishOne id = some t) :
    t = s ∨ ∃ seq pool swaps blocks pool',
      s.seqs id = some seq ∧ seq.numCachedBlocks < seq.numComputed / s.cfg.blockSize ∧
      seq.numComputed / s.cfg.blockSize * s.cfg.blockSize ≤ seq.tokens.length ∧
      Scheduler.publishBlocks seq.blocks
        ((((List.range (hashBlockChain (s.nsFor seq.tenant)
          (seq.tokens.take (seq.numComputed / s.cfg.blockSize * s.cfg.blockSize))
          s.cfg.blockSize).length).zip (hashBlockChain (s.nsFor seq.tenant)
          (seq.tokens.take (seq.numComputed / s.cfg.blockSize * s.cfg.blockSize))
          s.cfg.blockSize)).take (seq.numComputed / s.cfg.blockSize)).drop seq.numCachedBlocks)
        s.pool = (pool, swaps) ∧
      Scheduler.swapBlocks swaps (seq.blocks, pool) = (blocks, pool') ∧
      t = ((s.setTenants (s.tenantsFor seq.tenant)).setPool pool').setSeq id
        ((seq.withCached (seq.numComputed / s.cfg.blockSize)).withBlocks blocks) := by
  unfold Scheduler.publishOne at e
  cases live : s.seqs id with
  | none => simp only [live, Option.some.injEq] at e; exact .inl e.symm
  | some seq =>
    simp only [live] at e
    split at e
    · exact .inl (Option.some.inj e).symm
    · split at e
      · simp at e
      · rw [namespaceFor_eq] at e
        rename_i more inRange
        exact .inr ⟨seq, _, _, _, _, rfl, by omega, by omega, rfl, rfl, (Option.some.inj e).symm⟩

omit [DecidableEq H] in
theorem swapBlocks_length (swaps : List (Nat × BlockId × BlockId)) (blocks : List BlockId)
    (pool : BlockPool H) :
    (Scheduler.swapBlocks swaps (blocks, pool)).1.length = blocks.length := by
  induction swaps generalizing blocks pool with
  | nil => rfl
  | cons swap swaps ih =>
    obtain ⟨i, old, canonical⟩ := swap
    exact (ih _ _).trans (List.length_set ..)

theorem publishOne_queued {t : Scheduler B} (h : Queued s) {id : SeqId}
    (e : s.publishOne id = some t) : Queued t := by
  rcases publishOne_cases e with rfl | ⟨seq, pool, swaps, blocks, pool', live, -, -, -, swapped, rfl⟩
  · exact h
  · refine h.keep live (by rfl) rfl rfl (funext fun place => by cases place <;> rfl) ?_
    intro idle
    have none : seq.blocks = [] := h.idle id seq live idle
    have len := swapBlocks_length swaps seq.blocks pool
    rw [swapped, none] at len
    exact List.length_eq_zero_iff.mp len

theorem publishLoop_queued {t : Scheduler B} (h : Queued s) {ids : List SeqId}
    (e : Scheduler.publishLoop ids s = some t) : Queued t := by
  induction ids generalizing s with
  | nil => simp only [Scheduler.publishLoop, Option.some.injEq] at e; exact e ▸ h
  | cons id ids ih =>
    obtain ⟨s₁, one, rest⟩ := bind_some e
    exact ih (publishOne_queued h one) rest

theorem commit_queued {t : Scheduler B} (h : Queued s) {plan : StepPlan} {sampled : List Token}
    (e : s.commit plan sampled = some t) : Queued t := by
  obtain ⟨s₁, advanced, e⟩ := bind_some e
  have sampledQueued := sampledLoop_queued (advanceLoop_queued h advanced) (plan.sampledSeqs.zip sampled)
  unfold Scheduler.publishFullBlocks at e
  split at e
  · exact publishLoop_queued sampledQueued e
  · exact Option.some.inj e ▸ sampledQueued

omit [DecidableEq H] in
/-- Draining goes down the finished list it has taken. -/
theorem drainLoop_queued {ids : List SeqId} (h : Queued (s.setFinished ids)) (empty : s.finished = []) :
    Queued (Scheduler.drainLoop ids s).1 := by
  induction ids generalizing s with
  | nil =>
    have same : s.setFinished [] = s := by rw [← empty]; rfl
    exact same ▸ h
  | cons id ids ih =>
    obtain ⟨seq, live, place⟩ := (h.mem .finished id).mp (by simp [Scheduler.queue])
    change s.seqs id = some seq at live
    have nodup : (id :: ids).Nodup := h.nodup .finished
    have step : s.drainOne id = ({ s with
        seqs := Function.update s.seqs id none, byRequest := s.unfile id seq.requestId },
        some (id, seq)) := by
      unfold Scheduler.drainOne
      simp only [live]
    unfold Scheduler.drainLoop
    rw [step]
    refine ih ⟨?_, ?_, ?_, ?_⟩ empty
    · intro x seq' live'
      by_cases e : x = id
      · simp [e] at live'
      · exact h.fresh x seq' (by simpa [e] using live')
    · intro place
      cases place with
      | waiting => exact h.nodup .waiting
      | running => exact h.nodup .running
      | finished => exact (List.nodup_cons.mp nodup).2
    · intro place' x
      have mem := h.mem place' x
      by_cases e : x = id
      · subst e
        have other : place' ≠ .finished → x ∉ (s.setFinished (x :: ids)).queue place' := by
          intro ne hm
          obtain ⟨seq', live', place''⟩ := mem.mp hm
          change s.seqs x = some seq' at live'
          rw [live] at live'
          rw [← Option.some.inj live', place] at place''
          exact ne place''.symm
        cases place' with
        | waiting => simpa [Scheduler.queue] using other (by decide)
        | running => simpa [Scheduler.queue] using other (by decide)
        | finished => simpa [Scheduler.queue] using (List.nodup_cons.mp nodup).1
      · cases place' <;> simpa [Scheduler.queue, e] using mem
    · intro x seq' live'
      by_cases e : x = id
      · simp [e] at live'
      · exact h.idle x seq' (by simpa [e] using live')

theorem step_queued {l : Op × Outcome} (h : Queued s) (step : s.Step l t) : Queued t := by
  obtain ⟨op, outcome⟩ := l
  obtain ⟨seeds, e⟩ := step
  change s.exec op = some (t, outcome) at e
  cases op with
  | admitRequest requestId prompt params tenant =>
    obtain ⟨rfl, -⟩ := Prod.mk.inj (Option.some.inj e)
    exact admit_queued h requestId prompt params tenant
  | schedule =>
    obtain ⟨⟨s', plan⟩, scheduled, eq⟩ := Option.map_eq_some_iff.mp e
    obtain ⟨rfl, -⟩ := Prod.mk.inj eq
    obtain ⟨p, steps, rfl, -⟩ := schedule_steps scheduled h
    exact passSteps_queued steps h
  | commit plan sampled =>
    obtain ⟨s', committed, eq⟩ := Option.map_eq_some_iff.mp e
    obtain ⟨rfl, -⟩ := Prod.mk.inj eq
    exact commit_queued h committed
  | fork parent extra =>
    obtain ⟨rfl, -⟩ := Prod.mk.inj (Option.some.inj e)
    exact fork_queued h parent extra
  | seedFork id token =>
    obtain ⟨rfl, -⟩ := Prod.mk.inj (Option.some.inj e)
    exact seedFork_queued h (seeds id token rfl) token
  | cancel requestId =>
    obtain ⟨rfl, -⟩ := Prod.mk.inj (Option.some.inj e)
    exact cancel_queued h requestId
  | finishWith id reason =>
    obtain ⟨rfl, -⟩ := Prod.mk.inj (Option.some.inj e)
    exact finish_queued h id reason
  | drainFinished =>
    obtain ⟨rfl, -⟩ := Prod.mk.inj (Option.some.inj e)
    exact drainLoop_queued h rfl

end Queues

/-- A scheduler over a fresh pool, without prefix caching. -/
def Scheduler.fresh (cfg : SchedulerConfig) (numBlocks watermark : Nat) :
    Scheduler Blake3.identity :=
  .new cfg (BlockPool.new numBlocks cfg.blockSize watermark)
    (CacheNamespace.new "model" "weights" .f32 none "global") []

/-- A step of an engine that samples these tokens, whatever the batch. -/
def Scheduler.serve (s : Scheduler B) (sampled : List Token) : Option (Scheduler B) := do
  let (s, plan) ← s.schedule
  s.commit plan sampled

theorem serve_run {s t : Scheduler B} (sampled : List Token) (e : s.serve sampled = some t) :
    ∃ plan, Run Scheduler.Step s [(.schedule, .planned plan), (.commit plan sampled, .done)] t := by
  obtain ⟨⟨s', plan⟩, scheduled, committed⟩ := bind_some e
  have planned : s.Step (.schedule, .planned plan) s' := ⟨by simp, by simp [Scheduler.exec, scheduled]⟩
  have done : s'.Step (.commit plan sampled, .done) t :=
    ⟨by simp, congrArg (Option.map fun s => (s, Outcome.done)) committed⟩
  exact ⟨plan, .cons planned (.cons done .nil)⟩

end Vapi.Engine
