import Vapi.Cache.Eviction
import Vapi.Engine.Children

/-!
# Names between publications

Only publishing gives a block a name. Every other call of the scheduler lets
names fade, and puts down as evicted only what had one.
-/

namespace Vapi.Engine

open Vapi.Cache

variable {H : Type} {B : Blake3 H}

section Blocks

variable {take : BlockPool H → Except AllocError (BlockPool H × BlockId)} {n : Nat} {p q : BlockPool H}
  {bs : List BlockId} {failed : Option AllocError}

theorem takeBlocks_fades (first : ∀ p q b, Wf p → take p = .ok (q, b) → Wf q ∧ Fades p q) (w : Wf p)
    (e : takeBlocks take n p = (q, bs, failed)) : Fades p q := by
  induction n generalizing p bs with
  | zero =>
    obtain ⟨rfl, -⟩ := Prod.mk.inj e
    exact .refl p
  | succ n ih =>
    unfold takeBlocks at e
    cases took : take p with
    | error err =>
      simp only [took, Prod.mk.injEq] at e
      exact e.1 ▸ .refl p
    | ok r =>
      obtain ⟨r, b⟩ := r
      simp only [took, Prod.mk.injEq] at e
      obtain ⟨rfl, -, rfl⟩ := e
      obtain ⟨wf, fades⟩ := first p r b w took
      exact fades.trans (ih wf rfl)

theorem giveBack_fades (target bs : Nat) (l : List BlockId) (cached : Nat) (p : BlockPool H) :
    Fades p (Scheduler.giveBack target bs l cached p).1 := by
  induction l generalizing cached p with
  | nil => exact .refl p
  | cons b l ih =>
    unfold Scheduler.giveBack
    split
    · exact (free_fades p b).trans (ih _ _)
    · exact .refl p

variable [DecidableEq H]

theorem takes_fades (w : Wf p) (e : takeBlocks BlockPool.allocate n p = (q, bs, failed)) : Fades p q :=
  takeBlocks_fades (fun p q b w e => ⟨(allocate_allocates p q b w e).wf, (allocate_first w e).1⟩) w e

theorem takesGuarded_fades (w : Wf p) (e : takeBlocks BlockPool.allocateGuarded n p = (q, bs, failed)) : Fades p q :=
  takeBlocks_fades (fun p q b w e => ⟨(allocateGuarded_allocates p q b w e).wf, (allocateGuarded_first w e).1⟩) w e

omit [DecidableEq H] in
theorem matchCached_fades {s : Scheduler B} {ns : CacheNamespace B} {seq : Sequence} {found : BlockPool H}
    {matched : List BlockId} {cached : Nat} (e : s.matchCached ns seq = (found, matched, cached)) :
    Fades s.pool found := by
  unfold Scheduler.matchCached at e
  split at e
  · rcases found : s.pool.matchPrefix (hashBlockChain ns (seq.tokens.take seq.prefillTarget) s.cfg.blockSize) with ⟨pool, m⟩
    have matched := matchPrefix_fades s.pool (hashBlockChain ns (seq.tokens.take seq.prefillTarget) s.cfg.blockSize)
    have given := giveBack_fades seq.prefillTarget s.cfg.blockSize m.blocks.reverse m.tokens pool
    simp only [found] at e matched
    rw [e] at given
    exact matched.trans given
  · obtain ⟨rfl, -⟩ := Prod.mk.inj e
    exact .refl _

end Blocks

variable [DecidableEq H]

section Passes

variable {base : Scheduler B} {extra : BlockId → Nat} {p p' : Pass B}

theorem passStep_fades (step : PassStep p p') (bal : Balanced base p.scheduler extra) :
    Fades p.scheduler.pool p'.scheduler.pool := by
  cases step with
  | batch run new live chunk took pushed => exact takes_fades bal.wf took
  | preempt run new live chunk took => exact (takes_fades bal.wf took).trans (freeAll_fades _ _)
  | start head live budget room hit fits took =>
    exact (matchCached_fades hit).trans (takes_fades (matchCached_spec bal.wf hit).1.counts.wf took)
  | refuse head live hit took =>
    exact ((matchCached_fades hit).trans (takes_fades (matchCached_spec bal.wf hit).1.counts.wf took)).trans
      (freeAll_fades _ _)

theorem passSteps_fades (steps : PassSteps p p') (bal : Balanced base p.scheduler extra) :
    Fades p.scheduler.pool p'.scheduler.pool := by
  induction steps with
  | refl => exact .refl _
  | tail before step ih => exact ih.trans (passStep_fades step (passSteps_balanced before bal))

end Passes

section Calls

variable {base s t : Scheduler B} {extra : BlockId → Nat}

theorem schedule_fades (bal : Balanced base s extra) {plan : StepPlan} (e : s.schedule = some (t, plan)) :
    Fades s.pool t.pool := by
  obtain ⟨p, steps, rfl, -⟩ := schedule_steps e bal.queued
  exact passSteps_fades steps bal

omit [DecidableEq H] in
theorem admit_fades (s : Scheduler B) (requestId : RequestId) (prompt : List Token) (params : SamplingParams)
    (tenant : String) : Fades s.pool (s.admitRequest requestId prompt params tenant).1.pool := by
  unfold Scheduler.admitRequest
  split
  · exact .refl _
  · split <;> exact .refl _

omit [DecidableEq H] in
theorem finish_fades (s : Scheduler B) (id : SeqId) (reason : FinishReason) :
    Fades s.pool (s.finish id reason).pool := by
  rcases finish_cases s id reason with same | ⟨seq, -, -, eq⟩
  · rw [same]
    exact .refl _
  · rw [eq]
    exact freeAll_fades _ _

omit [DecidableEq H] in
theorem cancel_fades (s : Scheduler B) (requestId : RequestId) : Fades s.pool (s.cancel requestId).1.pool := by
  rw [cancel_eq]
  generalize s.sequencesOf requestId = ids
  induction ids generalizing s with
  | nil => exact .refl _
  | cons id ids ih => exact (finish_fades s id .cancelled).trans (ih _)

omit [DecidableEq H] in
theorem pushSampled_fades (s : Scheduler B) (id : SeqId) (token : Token) : Fades s.pool (s.pushSampled id token).pool := by
  cases live : s.seqs id with
  | none =>
    unfold Scheduler.pushSampled
    simp only [live]
    exact .refl _
  | some seq =>
    rcases pushSampled_cases live token with e | ⟨reason, -, e⟩ <;> rw [e]
    · exact .refl _
    · exact finish_fades (s.setSeq id (seq.pushToken token)) id reason

omit [DecidableEq H] in
theorem sampledLoop_fades (s : Scheduler B) (pairs : List (SeqId × Token)) :
    Fades s.pool (s.sampledLoop pairs).pool := by
  unfold Scheduler.sampledLoop
  induction pairs generalizing s with
  | nil => exact .refl _
  | cons p pairs ih => exact (pushSampled_fades s p.1 p.2).trans (ih _)

omit [DecidableEq H] in
theorem advanceLoop_pool {ids : List SeqId} {cu : List UInt32} (e : Scheduler.advanceLoop ids cu s = some t) :
    t.pool = s.pool :=
  advanceLoop_preserves (P := fun t => t.pool = s.pool)
    (fun s id n same => by
      unfold Scheduler.advanceOne
      split <;> exact same) rfl e

theorem seedFork_fades (w : Wf s.pool) (id : SeqId) (token : Token) : Fades s.pool (s.seedFork id token).1.pool := by
  unfold Scheduler.seedFork
  cases live : s.seqs id with
  | none => exact .refl _
  | some seq =>
    simp only
    rcases took : takeBlocks BlockPool.allocateGuarded
      (s.pool.blocksFor ((seq.pushToken token).numComputed + 1) - (seq.pushToken token).blocks.length)
      s.pool with ⟨pool, taken, failed⟩
    cases failed <;> exact takesGuarded_fades w took

/-- A child takes the first free block, or none. -/
theorem childBlocks_first {src : Scheduler.ForkSource} {bs : Nat} {p q : BlockPool H} {blocks : List BlockId}
    {copy : Option (BlockId × BlockId)} (w : Wf p) (held : ∀ b ∈ src.blocks, 0 < p.refcount b)
    (e : Scheduler.childBlocks src bs p = (q, .ok (blocks, copy))) :
    Fades p q ∧ (q.freeList = p.freeList ∧ copy = none ∨
      ∃ own, p.freeList = own :: q.freeList ∧ ∀ c ∈ copy, c.2 = own) := by
  obtain ⟨free, fades⟩ := increfAll_freeList p (src.blocks.take (src.computed / bs))
  have wf := (sharedPool_spec src bs w held).wf
  unfold sharedPool at wf
  unfold Scheduler.childBlocks at e
  cases isOpen : src.blocks[src.computed / bs]? with
  | none =>
    simp only [isOpen, Prod.mk.injEq, Except.ok.injEq] at e
    obtain ⟨rfl, -, rfl⟩ := e
    exact ⟨fades, .inl ⟨free, rfl⟩⟩
  | some openBlock =>
    simp only [isOpen] at e
    cases took : ((src.blocks.take (src.computed / bs)).foldl BlockPool.incref p).allocateGuarded with
    | error err => simp [took] at e
    | ok r =>
      obtain ⟨r, own⟩ := r
      simp only [took, Prod.mk.injEq, Except.ok.injEq] at e
      obtain ⟨rfl, -, rfl⟩ := e
      obtain ⟨taken, first⟩ := allocateGuarded_first wf took
      refine ⟨fades.trans taken, .inr ⟨own, free.symm.trans first, fun c hc => ?_⟩⟩
      split at hc
      · rw [← Option.some.inj hc]
      · cases hc

/-- The copies of a fork go to blocks among the first free ones. -/
theorem forkChildren_fades (bal : Balanced base s extra) {src : Scheduler.ForkSource}
    (held : ∀ b ∈ src.blocks, 0 < s.pool.refcount b) (n : Nat) (out : Fork) :
    Fades s.pool (Scheduler.forkChildren src n out s).1.pool ∧
    ∀ fork, (Scheduler.forkChildren src n out s).2 = .ok fork →
      ∀ c ∈ fork.copies, c ∈ out.copies ∨ c.2 ∈ s.pool.freeList.take n := by
  induction n generalizing s out with
  | zero => exact ⟨.refl _, fun fork same c hc => .inl (Except.ok.inj same ▸ hc)⟩
  | succ n ih =>
    unfold Scheduler.forkChildren
    rcases made : Scheduler.childBlocks src s.cfg.blockSize s.pool with ⟨pool, err | ⟨blocks, copy⟩⟩
    · obtain ⟨rfl, -, -⟩ := childBlocks_error bal.wf held made
      exact ⟨(increfAll_freeList _ _).2, by simp⟩
    · obtain ⟨entered, held', -, -⟩ := forkChildren_entered bal held made
      obtain ⟨fades, first⟩ := childBlocks_first bal.wf held made
      obtain ⟨fades', copies⟩ := ih entered held'
        { ids := out.ids ++ [s.nextId], copies := out.copies ++ copy.toList }
      refine ⟨fades.trans fades', fun fork same c hc => ?_⟩
      change ∀ fork, _ → ∀ c ∈ Fork.copies fork, c ∈ out.copies ++ copy.toList ∨ c.2 ∈ pool.freeList.take n at copies
      rcases first with ⟨free, rfl⟩ | ⟨own, free, here⟩
      · rcases copies fork same c hc with before | later
        · exact .inl (by simpa using before)
        · rw [free] at later
          exact .inr (List.take_subset_take_left _ (Nat.le_succ n) later)
      · rw [free, List.take_succ_cons]
        rcases copies fork same c hc with before | later
        · rcases List.mem_append.mp before with before | new
          · exact .inl before
          · exact .inr (by rw [here c (Option.mem_toList.mp new)]; exact List.mem_cons_self ..)
        · exact .inr (List.mem_cons_of_mem _ later)

theorem fork_fades (bal : Balanced base s extra) (parent : SeqId) (n : Nat) :
    Fades s.pool (s.fork parent n).1.pool ∧
    ∀ fork, (s.fork parent n).2 = .ok fork → ∀ c ∈ fork.copies, c.2 ∈ s.pool.freeList.take n := by
  unfold Scheduler.fork
  cases live : s.seqs parent with
  | none => exact ⟨.refl _, by simp⟩
  | some seq =>
    simp only
    split
    · exact ⟨.refl _, by simp⟩
    · have held : ∀ b ∈ (Scheduler.forkSource seq).blocks, 0 < s.pool.refcount b := fun b hb => bal.pos_refcount live hb
      obtain ⟨fades, copies⟩ := forkChildren_fades bal held n {}
      exact ⟨fades, fun fork same c hc => (copies fork same c hc).resolve_left (by simp)⟩

end Calls

end Vapi.Engine
