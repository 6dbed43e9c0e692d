import Vapi.Cache.Isolation
import Vapi.Engine.Accounting
import Vapi.Engine.Lineage
import Vapi.Engine.Plan

/-!
# When a schedule has work

The start loop always ends, and starts the head of the queue whenever the
pool has the blocks for it. With nothing running, that is a matter of the
pool's size alone.
-/

namespace Vapi.Engine

open Vapi.Cache
open Transition (Run)

variable {H : Type} {B : Blake3 H}

section Blocks

variable {p : BlockPool H}

theorem le_blocksFor_mul (size : 0 < p.blockSize) (n : Nat) : n ≤ p.blocksFor n * p.blockSize := by
  have div := Nat.div_add_mod (n + p.blockSize - 1) p.blockSize
  have lt := Nat.mod_lt (n + p.blockSize - 1) size
  unfold BlockPool.blocksFor
  rw [Nat.mul_comm]
  omega

theorem blocksFor_mono {m n : Nat} (h : m ≤ n) : p.blocksFor m ≤ p.blocksFor n :=
  Nat.div_le_div_right (by omega)

theorem div_le_blocksFor (size : 0 < p.blockSize) (n : Nat) : n / p.blockSize ≤ p.blocksFor n :=
  Nat.div_le_div_right (by omega)

/-- Blocks taken into use come off the free list. -/
theorem numFree_of_matched {q : BlockPool H} {l : List BlockId}
    (counts : Recounts p q fun b => p.refcount b + l.count b) (unused : ∀ b, p.refcount b = 0)
    (nodup : l.Nodup) : q.numFree + l.length = p.numBlocks := by
  have isBlock : ∀ b ∈ l, b < p.numBlocks := by
    intro b hb
    rw [← counts.shape.numBlocks]
    refine counts.wf.lt_of_pos ?_
    rw [counts.refcount]
    exact Nat.lt_of_lt_of_le (List.count_pos_iff.mpr hb) (Nat.le_add_left _ _)
  have taken : ((List.range p.numBlocks).filter fun b => !decide (q.refcount b = 0)).length = l.length := by
    refine ((List.perm_ext_iff_of_nodup (List.nodup_range.filter _) nodup).mpr fun b => ?_).length_eq
    simp only [List.mem_filter, List.mem_range, counts.refcount, unused, Nat.zero_add,
      Bool.not_eq_true', decide_eq_false_iff_not, List.count_eq_zero, not_not]
    exact ⟨fun h => h.2, fun h => ⟨isBlock b h, h⟩⟩
  have split := List.length_eq_length_filter_add (l := List.range p.numBlocks)
    (fun b => decide (q.refcount b = 0))
  rw [counts.wf.numFree, counts.shape.numBlocks, ← taken, ← split, List.length_range]

end Blocks

variable [DecidableEq H]

section Totality

variable {base : Scheduler B} {p : Pass B} {id : SeqId} {seq : Sequence}

/-- What the loops of a pass go by. -/
structure PassOk (base : Scheduler B) (p : Pass B) : Prop where
  balanced : ∃ extra, Balanced base p.scheduler extra
  regular : Regular p.scheduler
  batched : Batched p
  plan : ∃ es, PlanFor p.scheduler p.plan es

omit [DecidableEq H] in
/-- A schedule starts from an empty plan. -/
theorem PassOk.start {s : Scheduler B} (balanced : ∃ extra, Balanced base s extra) (regular : Regular s) :
    PassOk base ⟨s, {}, s.cfg.maxBatchedTokens⟩ :=
  ⟨balanced, regular, by intro x hx; simp at hx, [], by exact ⟨rfl, rfl, rfl, by simp, by simp, by simp⟩⟩

omit [DecidableEq H] in
theorem PassOk.queued (ok : PassOk base p) : Queued p.scheduler := ok.balanced.elim fun _ h => h.queued

omit [DecidableEq H] in
theorem PassOk.wf (ok : PassOk base p) : Wf p.scheduler.pool := ok.balanced.elim fun _ h => h.wf

omit [DecidableEq H] in
theorem PassOk.cfg (ok : PassOk base p) : p.scheduler.cfg = base.cfg :=
  ok.balanced.elim fun _ h => h.setup.cfg

omit [DecidableEq H] in
theorem PassOk.shape (ok : PassOk base p) : SameShape base.pool p.scheduler.pool :=
  ok.balanced.elim fun _ h => h.setup.shape

theorem PassOk.step {p' : Pass B} (ok : PassOk base p) (size : 0 < base.cfg.blockSize)
    (step : PassStep p p') : PassOk base p' where
  balanced := ok.balanced.elim fun extra h => ⟨extra, passStep_balanced step h⟩
  regular := ok.regular.lineage (passStep_lineage step ok.queued)
  batched := passStep_batched step ok.batched
  plan := by
    obtain ⟨es, plan⟩ := ok.plan
    obtain ⟨es', plan', -⟩ := passStep_planFor step (ok.cfg ▸ size) ok.queued ok.batched plan
    exact ⟨es', plan'⟩

theorem PassOk.steps {p' : Pass B} (ok : PassOk base p) (size : 0 < base.cfg.blockSize)
    (steps : PassSteps p p') : PassOk base p' := by
  induction steps with
  | refl => exact ok
  | tail _ step ih => exact ih.step size step

omit [DecidableEq H] in
theorem preempt_total (live : p.scheduler.seqs id = some seq) : ∃ p', p.preempt id = some p' := by
  simp [Pass.preempt, Scheduler.preempt, live]

/-- Only the sequences preempted join the queue, each at its head. -/
structure Demotes (p p' : Pass B) (ids : List SeqId) : Prop where
  started : p'.plan.started = p.plan.started
  preempted : p'.plan.preempted = p.plan.preempted ++ ids
  waiting : p'.scheduler.waiting = ids.reverse ++ p.scheduler.waiting

omit [DecidableEq H] in
theorem Demotes.refl (p : Pass B) : Demotes p p [] := ⟨rfl, (List.append_nil _).symm, rfl⟩

omit [DecidableEq H] in
theorem Demotes.trans {p₁ p₂ : Pass B} {ids ids' : List SeqId} (h : Demotes p p₁ ids) (k : Demotes p₁ p₂ ids') :
    Demotes p p₂ (ids ++ ids') where
  started := k.started.trans h.started
  preempted := by rw [k.preempted, h.preempted, List.append_assoc]
  waiting := by rw [k.waiting, h.waiting, List.reverse_append, List.append_assoc]

theorem extendOrPreempt_demotes {p' : Pass B} {q : Nat} {kept : Bool} (h : p.extendOrPreempt id q = some (p', kept)) :
    ∃ ids, Demotes p p' ids := by
  obtain ⟨s, fits, ext, rfl, h⟩ := extendOrPreempt_eq h
  obtain ⟨seq, pool, taken, failed, -, -, rfl, rfl⟩ := tryExtend_eq ext
  cases failed with
  | none =>
    obtain ⟨seq', plan, -, pushed, rfl⟩ := pushSeqIntoBatch_eq h
    obtain ⟨batch, -, eq⟩ := bind_some pushed
    obtain rfl := Option.some.inj eq
    exact ⟨[], rfl, (List.append_nil _).symm, rfl⟩
  | some err =>
    obtain ⟨seq', -, rfl⟩ := preempt_eq h
    exact ⟨[id], rfl, rfl, rfl⟩

theorem prefillChunk_demotes {p' : Pass B} (h : p.prefillChunk id = some p') : ∃ ids, Demotes p p' ids := by
  rcases prefillChunk_cases h with rfl | ⟨seq, q, kept, -, -, ext⟩
  · exact ⟨[], .refl _⟩
  · exact extendOrPreempt_demotes ext

/-- What batching a sequence goes by, whatever the running queue. -/
structure Ready (p : Pass B) : Prop where
  wf : Wf p.scheduler.pool
  size : 0 < p.scheduler.cfg.blockSize
  blockSize : p.scheduler.pool.blockSize = p.scheduler.cfg.blockSize
  batch : ∃ es, p.plan.batch = batchOf p.scheduler.cfg.blockSize es

omit [DecidableEq H] in
theorem PassOk.ready (ok : PassOk base p) (size : 0 < base.cfg.blockSize)
    (same : base.pool.blockSize = base.cfg.blockSize) : Ready p :=
  ⟨ok.wf, ok.cfg ▸ size, by rw [ok.shape.blockSize, same, ok.cfg], ok.plan.imp fun _ plan => plan.batch⟩

/-- Extending and batching known tokens never panics, and never preempts a
sequence whose blocks cover them already. -/
theorem extendOrPreempt_total {q : Nat} (ready : Ready p) (live : p.scheduler.seqs id = some seq)
    (pos : 0 < q) (known : seq.numComputed + q ≤ seq.tokens.length) :
    ∃ p' kept, p.extendOrPreempt id q = some (p', kept) ∧
      (p.scheduler.pool.blocksFor (seq.numComputed + q) ≤ seq.blocks.length →
        kept = true ∧ p'.scheduler.waiting = p.scheduler.waiting) := by
  obtain ⟨wf, size, blockSize, es, batch⟩ := ready
  rcases took : takeBlocks BlockPool.allocate
    (p.scheduler.pool.blocksFor (seq.numComputed + q) - seq.blocks.length) p.scheduler.pool with
    ⟨pool, taken, failed⟩
  have extended : p.scheduler.tryExtend id q = some
      ((p.scheduler.setPool pool).setSeq id (seq.withBlocks (seq.blocks ++ taken)), failed.isNone) := by
    simp [Scheduler.tryExtend, live, took]
  unfold Pass.extendOrPreempt
  rw [extended]
  cases failed with
  | none =>
    have covers : Entry.Covered ⟨id, seq.withBlocks (seq.blocks ++ taken), q⟩
        p.scheduler.cfg.blockSize := by
      have enough := le_blocksFor_mul (blockSize.symm ▸ size) (seq.numComputed + q)
      have length := takeBlocks_length wf took
      rw [blockSize] at enough
      refine ⟨pos, known, Nat.le_trans enough (Nat.mul_le_mul_right _ ?_)⟩
      simp only [Sequence.withBlocks_blocks, List.length_append]
      omega
    have pushed := pushSeq_batchOf es size covers
    rw [← batch] at pushed
    simp [Pass.pushSeqIntoBatch, StepPlan.pushSeq, pushed]
  | some err =>
    obtain ⟨p', preempted⟩ := preempt_total (p := p.setScheduler ((p.scheduler.setPool pool).setSeq id
      (seq.withBlocks (seq.blocks ++ taken)))) (Function.update_self ..)
    simp only [Option.isNone_some, Option.bind_eq_bind, Option.bind_some, Bool.false_eq_true, if_false,
      preempted]
    refine ⟨p', false, rfl, fun covered => ?_⟩
    rw [Nat.sub_eq_zero_of_le covered] at took
    simp [takeBlocks] at took

/-- A start is refused, or takes the blocks it asks for. -/
theorem tryStart_eq {s : Scheduler B} {found : BlockPool H} {matched : List BlockId} {cached : Nat}
    (live : s.seqs id = some seq)
    (hit : s.matchCached (s.nsFor seq.tenant) seq = (found, matched, cached)) :
    (found.canAllocate (found.blocksFor (seq.prefillTarget + 1) - matched.length) = false →
      s.tryStart id = some ((s.setTenants (s.tenantsFor seq.tenant)).setPool (found.freeAll matched), false)) ∧
    (∀ pool taken, found.canAllocate (found.blocksFor (seq.prefillTarget + 1) - matched.length) = true →
      takeBlocks BlockPool.allocate (found.blocksFor (seq.prefillTarget + 1) - matched.length) found =
        (pool, taken, none) →
      s.tryStart id = some (((s.setTenants (s.tenantsFor seq.tenant)).setPool pool).setSeq id
        (seq.startOn matched cached taken), true)) := by
  have hit' : (s.setTenants (s.tenantsFor seq.tenant)).matchCached (s.nsFor seq.tenant) seq =
      (found, matched, cached) := hit
  constructor
  · intro refused
    simp [Scheduler.tryStart, live, namespaceFor_eq, hit', refused]
  · intro pool taken fits took
    simp [Scheduler.tryStart, live, namespaceFor_eq, hit', fits, took]

/-- The first chunk of a sequence just started: within its blocks, and not
empty unless chunks are. -/
theorem prefillChunk_started {matched taken : List BlockId} {cached : Nat}
    (ok : PassOk base p) (size : 0 < base.cfg.blockSize) (same : base.pool.blockSize = base.cfg.blockSize)
    (new : id ∉ p.plan.batchSeqs) (budget : p.budget ≠ 0) (run : id ∈ p.scheduler.running)
    (live : p.scheduler.seqs id = some (seq.startOn matched cached taken))
    (cachedLt : cached < seq.prefillTarget)
    (blocks : p.scheduler.pool.blocksFor (seq.prefillTarget + 1) ≤ (matched ++ taken).length) :
    ∃ p', p.prefillChunk id = some p' ∧ PassSteps p p' ∧ p'.scheduler.waiting = p.scheduler.waiting ∧
      (p.scheduler.cfg.prefillChunkTokens ≠ 0 → id ∈ p'.plan.batchSeqs) := by
  have remaining : (seq.startOn matched cached taken).remainingPrefill = seq.prefillTarget - cached := rfl
  rcases e : p.prefillChunk id with _ | p'
  · unfold Pass.prefillChunk at e
    simp only [live, Option.bind_eq_bind, Option.bind_some, remaining] at e
    split at e
    · simp at e
    · rename_i pos
      obtain ⟨p', kept, ext, -⟩ := extendOrPreempt_total (ok.ready size same) live (Nat.pos_of_ne_zero pos) (by
        have := seq.target_le
        change cached + min (min (seq.prefillTarget - cached) _) _ ≤ seq.tokens.length
        omega)
      rw [ext] at e
      simp at e
  · refine ⟨p', rfl, ?_⟩
    rcases prefillChunk_cases e with rfl | ⟨seq', q, kept, live', chunk, ext⟩
    · refine ⟨.refl, rfl, fun chunkTokens => ?_⟩
      -- nothing batched: the chunk was empty
      unfold Pass.prefillChunk at e
      simp only [live, Option.bind_eq_bind, Option.bind_some, remaining] at e
      split at e
      · omega
      · rename_i pos
        obtain ⟨⟨p₁, kept⟩, ext, eq⟩ := bind_some e
        obtain rfl := Option.some.inj eq
        have step := extendOrPreempt_step ext live ⟨Nat.pos_of_ne_zero pos, by omega, .inr rfl⟩ run new
        have := step.batchSeqs
        cases kept with
        | true => simp at this
        | false =>
          have := step.running
          rw [if_neg Bool.false_ne_true] at this
          exact absurd (this ▸ run) (by simp)
    · obtain rfl := Option.some.inj (live.symm.trans live')
      have step := extendOrPreempt_step ext live chunk run new
      have known : cached + q ≤ seq.prefillTarget := by
        rcases chunk.2.2 with ⟨no, rfl⟩ | eq
        · simp [Sequence.needsPrefill, remaining] at no
          omega
        · rw [remaining] at eq
          omega
      obtain ⟨p₁, kept', ext', covered⟩ := extendOrPreempt_total (ok.ready size same) live chunk.1
        (Nat.le_trans known seq.target_le)
      obtain ⟨rfl, rfl⟩ := Prod.mk.inj (Option.some.inj (ext.symm.trans ext'))
      obtain ⟨rfl, waiting⟩ := covered (Nat.le_trans
        (blocksFor_mono (Nat.le_trans known (Nat.le_succ _))) blocks)
      exact ⟨.single (extendOrPreempt_here step), waiting, fun _ => by rw [step.batchSeqs]; simp⟩

omit [DecidableEq H] in
/-- The cached prefix leaves a token of the known text to compute. -/
theorem PassOk.cached_lt {found : BlockPool H} {matched : List BlockId} {cached : Nat} (ok : PassOk base p)
    (same : base.pool.blockSize = base.cfg.blockSize) (live : p.scheduler.seqs id = some seq)
    (hit : p.scheduler.matchCached (p.scheduler.nsFor seq.tenant) seq = (found, matched, cached)) :
    cached < seq.prefillTarget := by
  obtain ⟨-, exact_⟩ := matchCached_spec ok.wf hit
  obtain ⟨cached_eq, few⟩ := exact_ (by rw [ok.shape.blockSize, same, ok.cfg])
  have := ok.regular.prompts id seq live
  have := seq.promptLen_le
  rcases few with none | lt
  · rw [cached_eq, none, List.length_nil]
    omega
  · exact lt

/-- One turn of the start loop: the head of the queue is refused, which ends
the loop, or it starts. -/
theorem startLoop_turn (fuel : Nat) {rest : List SeqId} {found : BlockPool H} {matched : List BlockId}
    {cached : Nat} (ok : PassOk base p) (size : 0 < base.cfg.blockSize)
    (same : base.pool.blockSize = base.cfg.blockSize) (budget : p.budget ≠ 0)
    (room : p.scheduler.running.length < p.scheduler.cfg.maxConcurrentSeqs)
    (head : p.scheduler.waiting = id :: rest) (live : p.scheduler.seqs id = some seq)
    (hit : p.scheduler.matchCached (p.scheduler.nsFor seq.tenant) seq = (found, matched, cached)) :
    (found.canAllocate (found.blocksFor (seq.prefillTarget + 1) - matched.length) = false ∧
      ∃ p', Pass.startLoop (fuel + 1) p = some p' ∧ p'.plan = p.plan ∧
        p'.scheduler.waiting = p.scheduler.waiting) ∨
    (found.canAllocate (found.blocksFor (seq.prefillTarget + 1) - matched.length) = true ∧
      ∃ p', Pass.startLoop (fuel + 1) p = Pass.startLoop fuel p' ∧ PassSteps p p' ∧
        p'.scheduler.waiting = rest ∧ p'.plan.started = p.plan.started ++ [(id, cached)] ∧
        p'.plan.preempted = p.plan.preempted ∧ (p.scheduler.cfg.prefillChunkTokens ≠ 0 → id ∈ p'.plan.batchSeqs)) := by
  have waits : id ∈ p.scheduler.waiting := by simp [head]
  have unfinished : seq.status.isFinished = false := by
    rw [Bool.eq_false_iff, ne_eq, SeqStatus.isFinished_iff, ok.queued.place_of_waiting waits live]
    decide
  obtain ⟨prefix_, -⟩ := matchCached_spec ok.wf hit
  obtain ⟨refused, started⟩ := tryStart_eq (s := p.scheduler.setWaiting rest) live hit
  have turn : Pass.startLoop (fuel + 1) p = (do
      let r ← (p.scheduler.setWaiting rest).tryStart id
      if ¬r.2 then some (p.setScheduler (r.1.setWaiting (id :: r.1.waiting)))
      else
        let seq ← r.1.seqs id
        let plan := p.plan.start id seq.cachedPrefixTokens
        let p ← Pass.prefillChunk ⟨r.1.setRunning (r.1.running ++ [id]), plan, p.budget⟩ id
        Pass.startLoop fuel p) := by
    rw [Pass.startLoop, if_neg (by omega)]
    simp only [head, Pass.setScheduler_scheduler, Scheduler.setWaiting_seqs, live, unfinished,
      Bool.false_eq_true, if_false]
  cases fits : found.canAllocate (found.blocksFor (seq.prefillTarget + 1) - matched.length) with
  | false =>
    exact .inl ⟨rfl, _, turn.trans (by rw [refused fits]; rfl), by rfl, by exact head.symm⟩
  | true =>
    have enough : found.blocksFor (seq.prefillTarget + 1) - matched.length ≤ found.numFree := by
      exact Nat.le_trans (Nat.le_add_right _ _) (of_decide_eq_true fits)
    obtain ⟨pool, taken, took⟩ := takeBlocks_enough prefix_.counts.wf enough
    have step := PassStep.start head live budget room hit fits took
    have ok' := ok.step size step
    have taken_length := takeBlocks_length prefix_.counts.wf took
    have pool_shape := (takeBlocks_takes prefix_.counts.wf took).shape
    obtain ⟨p', chunk, steps, waiting, batched⟩ := prefillChunk_started ok' size same
      (fun hb => ok.queued.running_not_waiting (ok.batched id hb) waits) budget (by simp)
      (Function.update_self ..) (ok.cached_lt same live hit) (by
        change pool.blocksFor _ ≤ _
        rw [pool_shape.blocksFor, List.length_append]
        omega)
    obtain ⟨ids, demotes⟩ := prefillChunk_demotes chunk
    -- the head of the queue is the next one, so the sequence was kept
    have none : ids = [] := by
      have grown := congrArg List.length (demotes.waiting.symm.trans waiting)
      rw [List.length_append, List.length_reverse] at grown
      exact List.length_eq_zero_iff.mp (by omega)
    have preempted := demotes.preempted
    rw [none, List.append_nil] at preempted
    refine .inr ⟨rfl, p', ?_, .head step steps, waiting, demotes.started, preempted, batched⟩
    rw [turn, started pool taken fits took]
    simp only [Option.bind_eq_bind, Option.bind_some, not_true_eq_false, if_false,
      Scheduler.setSeq_seqs, Function.update_self]
    exact congrArg (·.bind (Pass.startLoop fuel)) chunk

/-- The start loop comes to an end: a sequence started is never preempted in
its own turn, so each turn shortens the queue. -/
theorem startLoop_total (fuel : Nat) (ok : PassOk base p) (size : 0 < base.cfg.blockSize)
    (same : base.pool.blockSize = base.cfg.blockSize) (more : p.scheduler.waiting.length < fuel) :
    ∃ p', Pass.startLoop fuel p = some p' := by
  induction fuel generalizing p with
  | zero => omega
  | succ fuel ih =>
    by_cases stop : p.budget = 0 ∨ p.scheduler.cfg.maxConcurrentSeqs ≤ p.scheduler.running.length
    · exact ⟨p, by rw [Pass.startLoop, if_pos stop]⟩
    · cases head : p.scheduler.waiting with
      | nil => exact ⟨p, by rw [Pass.startLoop, if_neg stop]; simp [head]⟩
      | cons id rest =>
        obtain ⟨seq, live, -⟩ := ok.queued.waiting (show id ∈ _ by simp [head])
        rcases hit : p.scheduler.matchCached (p.scheduler.nsFor seq.tenant) seq with ⟨found, matched, cached⟩
        rcases startLoop_turn fuel ok size same (by omega) (by omega) head live hit with
          ⟨-, p', done, -⟩ | ⟨-, p', next, steps, waiting, -⟩
        · exact ⟨p', done⟩
        · rw [next]
          exact ih (ok.steps size steps) (by rw [head, List.length_cons] at more; rw [waiting]; omega)

end Totality

section Idle

variable {s : Scheduler B} {id : SeqId} {seq : Sequence}

omit [DecidableEq H] in
/-- Blocks found under distinct hashes are distinct. -/
theorem CachedPrefix.nodup {p q : BlockPool H} {base : CacheNamespace B} {tenant : String}
    {ts : List Token} {bs : Nat} {matched : List BlockId} (w : Wf p) (size : 0 < bs)
    (free : CollisionFree base bs)
    (c : CachedPrefix p q (hashBlockChain (base.forTenant tenant) ts bs) matched) : matched.Nodup := by
  rw [List.nodup_iff_getElem?_ne_getElem?]
  intro i j lt hj same
  obtain ⟨b, hb⟩ : ∃ b, matched[j]? = some b := ⟨_, List.getElem?_eq_getElem hj⟩
  obtain ⟨h, hi, named⟩ := c.named i b (same.trans hb)
  obtain ⟨h', hj', named'⟩ := c.named j b hb
  obtain rfl := w.index_inj named named'
  have takes := congrArg List.length (free _ _ _ _ _ _ _ hi hj').2
  have known := (List.getElem?_eq_some_iff.mp hj').1
  rw [hashBlockChain_length] at known
  have full : (j + 1) * bs ≤ ts.length := (Nat.le_div_iff_mul_le size).mp known
  have less : (i + 1) * bs < (j + 1) * bs := Nat.mul_lt_mul_of_pos_right (by omega) size
  rw [List.length_take, List.length_take] at takes
  omega

theorem schedule_of_idle (idle : s.running = []) :
    s.schedule = (Pass.startLoop (s.waiting.length + 1) ⟨s, {}, s.cfg.maxBatchedTokens⟩).map
      fun p => (p.scheduler, p.plan.measured) := by
  have same : s.setRunning [] = s := by rw [← idle]; rfl
  simp only [Scheduler.schedule, Pass.scheduleDecodes, idle, Pass.decodeLoop, Pass.setScheduler, same,
    Option.bind_eq_bind, Option.bind_some, Pass.schedulePrefills, Pass.continueLoop]
  cases Pass.startLoop (s.waiting.length + 1) ⟨s, {}, s.cfg.maxBatchedTokens⟩ <;> rfl

theorem passSteps_batchSeqs {p p' : Pass B} (h : PassSteps p p') : p.plan.batchSeqs <+: p'.plan.batchSeqs := by
  induction h with
  | refl => exact List.prefix_rfl
  | tail _ step ih =>
    refine ih.trans ?_
    cases step with
    | batch run new live chunk took pushed =>
      rw [pushSeq_batchSeqs pushed]
      exact List.prefix_append _ _
    | preempt run new live chunk took => exact List.prefix_rfl
    | start head live budget room hit fits took => exact List.prefix_rfl
    | refuse head live hit took => exact List.prefix_rfl

/-- With nothing running, the scheduler has a batch for the head of its queue
exactly when the whole pool, less its reserve, holds what is known of it and
one token more. A head that needs more is refused every time. -/
theorem schedule_progress {cfg : SchedulerConfig} {numBlocks bs watermark : Nat} {ns : CacheNamespace B}
    {eos : List Token} {ls : List (Op × Outcome)} {rest : List SeqId} (size : 0 < bs)
    (same : cfg.blockSize = bs) (seqsLimit : 0 < cfg.maxConcurrentSeqs)
    (batchLimit : 0 < cfg.maxBatchedTokens) (chunkLimit : 0 < cfg.prefillChunkTokens)
    (free : CollisionFree ns bs)
    (run : Run (Transition.Guarded ForkSucceeds Scheduler.Step)
      (Scheduler.new cfg (BlockPool.new numBlocks bs watermark) ns eos) ls s)
    (waits : s.waiting = id :: rest) (live : s.seqs id = some seq) (idle : s.running = []) :
    (∃ t plan, s.schedule = some (t, plan) ∧ plan.batch.tokens ≠ []) ↔
      (BlockPool.new numBlocks bs watermark : BlockPool H).blocksFor (seq.prefillTarget + 1) + watermark ≤
        numBlocks := by
  have balanced := run_exact run
  have regular := (run_regular (run.mono fun _ _ _ h => h.2)).2
  obtain ⟨numBlocks_eq, blockSize_eq, -, -⟩ := new_fields (H := H) numBlocks bs watermark
  have setup := balanced.setup
  have cfg_eq : s.cfg = cfg := setup.cfg
  have ns_eq : s.cacheNamespace = ns := setup.cacheNamespace
  have size' : 0 < s.cfg.blockSize := by rw [cfg_eq, same]; exact size
  have poolSize : s.pool.blockSize = s.cfg.blockSize := by
    rw [setup.shape.blockSize, cfg_eq, same]
    exact blockSize_eq
  have unused : ∀ b, s.pool.refcount b = 0 := by
    intro b
    rw [balanced.counts]
    change s.occurrences b = 0
    refine Finset.sum_eq_zero fun x _ => ?_
    unfold Scheduler.held
    cases known : s.seqs x with
    | none => rfl
    | some seq' =>
      have : seq'.status.place ≠ .running := fun place => by
        have := (balanced.queued.mem .running x).mpr ⟨seq', known, place⟩
        simp [Scheduler.queue, idle] at this
      simp [balanced.queued.idle x seq' known this]
  have ok := PassOk.start ⟨_, balanced⟩ regular
  rcases hit : s.matchCached (s.nsFor seq.tenant) seq with ⟨found, matched, cached⟩
  obtain ⟨cachedPrefix, -⟩ := matchCached_spec balanced.wf hit
  have few := cachedPrefix.length_le
  rw [regular.nsFor, ns_eq, cfg_eq, same] at cachedPrefix
  have left := numFree_of_matched cachedPrefix.counts unused
    (cachedPrefix.nodup balanced.wf size free)
  have needs : found.blocksFor (seq.prefillTarget + 1) =
      (BlockPool.new numBlocks bs watermark : BlockPool H).blocksFor (seq.prefillTarget + 1) :=
    (setup.shape.trans cachedPrefix.counts.shape).blocksFor _
  have reserve : found.watermark = min watermark numBlocks := by
    rw [cachedPrefix.counts.shape.watermark, setup.shape.watermark]
    exact new_watermark numBlocks bs watermark
  have fewer : matched.length ≤ found.blocksFor (seq.prefillTarget + 1) := by
    refine Nat.le_trans few ?_
    rw [hashBlockChain_length, List.length_take_of_le seq.target_le, ← poolSize,
      ← cachedPrefix.counts.shape.blockSize]
    refine Nat.le_trans (div_le_blocksFor ?_ _) (blocksFor_mono (Nat.le_succ _))
    rw [cachedPrefix.counts.shape.blockSize, poolSize]
    exact size'
  have fits_iff : found.canAllocate (found.blocksFor (seq.prefillTarget + 1) - matched.length) = true ↔
      (BlockPool.new numBlocks bs watermark : BlockPool H).blocksFor (seq.prefillTarget + 1) + watermark ≤
        numBlocks := by
    rw [← needs, BlockPool.canAllocate, decide_eq_true_iff, reserve]
    have some_ := le_blocksFor_mul (p := (BlockPool.new numBlocks bs watermark : BlockPool H))
      (blockSize_eq.symm ▸ size) (seq.prefillTarget + 1)
    have pos : 0 < (BlockPool.new numBlocks bs watermark : BlockPool H).blocksFor (seq.prefillTarget + 1) :=
      Nat.pos_of_mul_pos_right (Nat.lt_of_lt_of_le (Nat.succ_pos _) some_)
    have total : s.pool.numBlocks = numBlocks := setup.shape.numBlocks.trans numBlocks_eq
    omega
  rw [← fits_iff, schedule_of_idle idle]
  rcases startLoop_turn s.waiting.length ok (same ▸ size) (blockSize_eq.trans same.symm)
    (cfg_eq ▸ Nat.ne_of_gt batchLimit) (by rw [cfg_eq]; simpa [idle] using seqsLimit) waits live hit with
    ⟨refused, p, done, plan, -⟩ | ⟨fits, p, next, steps, waiting, -, -, batched⟩
  · rw [done, refused]
    simp only [Option.map_some, Option.some.injEq, Prod.mk.injEq, Bool.false_eq_true, iff_false]
    rintro ⟨t, plan', ⟨-, rfl⟩, some_⟩
    rw [plan] at some_
    exact some_ rfl
  · obtain ⟨p', done⟩ := startLoop_total s.waiting.length (ok.steps (same ▸ size) steps)
      (same ▸ size) (blockSize_eq.trans same.symm) (by rw [waiting, waits]; exact Nat.lt_succ_self _)
    have ok₁ := ok.steps (same ▸ size) steps
    have more := startLoop_steps done ok₁.queued ok₁.batched
    obtain ⟨es, planFor⟩ := (ok₁.steps (same ▸ size) more).plan
    rw [next, done]
    simp only [fits, iff_true]
    refine ⟨_, _, rfl, ?_⟩
    have here : id ∈ p'.plan.batchSeqs :=
      (passSteps_batchSeqs more).subset (batched (by rw [cfg_eq]; exact Nat.ne_of_gt chunkLimit))
    rw [planFor.batchSeqs, List.mem_map] at here
    obtain ⟨e, he, -⟩ := here
    have pos := (planFor.covered e he).pos
    have le : e.q ≤ (es.map Entry.q).sum := List.le_sum_of_mem (List.mem_map_of_mem he)
    change p'.plan.batch.tokens ≠ []
    rw [planFor.batch, ← List.length_pos_iff, batchOf_tokens_length]
    omega

end Idle

/-- A prompt of four tokens asks for two blocks of four, and is admitted over
a pool of one: the schedule is empty and leaves everything as it was. -/
theorem schedule_wedged :
    ∃ ls s, Run (Transition.Guarded ForkSucceeds Scheduler.Step)
      (Scheduler.fresh { blockSize := 4, prefixCache := false } 1 0) ls s ∧
      s.waiting ≠ [] ∧ s.running = [] ∧ s.finished = [] ∧ s.schedule = some (s, {}) := by
  have run : Run (Transition.Guarded ForkSucceeds Scheduler.Step)
      (Scheduler.fresh { blockSize := 4, prefixCache := false } 1 0)
      [(.admitRequest ⟨"r"⟩ [1, 2, 3, 4] {} "global", .admitted (.ok 0))] _ :=
    .cons ⟨by simp [ForkSucceeds], by simp, rfl⟩ .nil
  exact ⟨_, _, run, by decide, rfl, rfl, rfl⟩

/-- Over a pool of two it starts. -/
theorem schedule_progress_two :
    ∃ ls s, Run (Transition.Guarded ForkSucceeds Scheduler.Step)
      (Scheduler.fresh { blockSize := 4, prefixCache := false } 2 0) ls s ∧
      ∃ t plan, s.schedule = some (t, plan) ∧ plan.batch.tokens ≠ [] := by
  have run : Run (Transition.Guarded ForkSucceeds Scheduler.Step)
      (Scheduler.fresh { blockSize := 4, prefixCache := false } 2 0)
      [(.admitRequest ⟨"r"⟩ [1, 2, 3, 4] {} "global", .admitted (.ok 0))] _ :=
    .cons ⟨by simp [ForkSucceeds], by simp, rfl⟩ .nil
  exact ⟨_, _, run, (schedule_progress (by decide) rfl (by decide) (by decide) (by decide)
    (identity_collisionFree _ _) run rfl rfl rfl).mpr (by decide)⟩

end Vapi.Engine
