import Vapi.Engine.Operations
import Mathlib.Algebra.BigOperators.Group.Finset.Basic
import Mathlib.Algebra.Order.BigOperators.Group.Finset

/-!
# References are conserved

`Balanced s extra`: the pool counts, for every block, the places in the live
sequences' block lists that name it, and `extra` references nobody names. Each
call on the scheduler moves references between the two sides; only a refused
fork adds to `extra`.
-/

namespace Vapi.Engine

open Vapi.Cache
open Transition (Run)

variable {H : Type} [DecidableEq H] {B : Blake3 H}

namespace Scheduler

/-- How often sequence `id` names block `b`. -/
def held (s : Scheduler B) (b : BlockId) (id : SeqId) : Nat :=
  match s.seqs id with
  | some seq => seq.blocks.count b
  | none => 0

/-- How often the live sequences name block `b`. -/
def occurrences (s : Scheduler B) (b : BlockId) : Nat := ∑ id ∈ Finset.range s.nextId, s.held b id

end Scheduler

/-- What no call changes. -/
structure SameSetup (s t : Scheduler B) : Prop where
  cfg : t.cfg = s.cfg
  cacheNamespace : t.cacheNamespace = s.cacheNamespace
  eosTokenIds : t.eosTokenIds = s.eosTokenIds
  shape : SameShape s.pool t.pool

omit [DecidableEq H] in
theorem SameSetup.trans {s t u : Scheduler B} (h : SameSetup s t) (k : SameSetup t u) : SameSetup s u :=
  ⟨k.cfg.trans h.cfg, k.cacheNamespace.trans h.cacheNamespace, k.eosTokenIds.trans h.eosTokenIds,
    h.shape.trans k.shape⟩

structure Balanced (base s : Scheduler B) (extra : BlockId → Nat) : Prop where
  setup : SameSetup base s
  wf : Wf s.pool
  queued : Queued s
  counts : ∀ b, s.pool.refcount b = s.occurrences b + extra b

/-- A sum in which one term changes. -/
theorem sum_change {f g : Nat → Nat} {n i : Nat} (hi : i < n) (same : ∀ j, j ≠ i → g j = f j) :
    (∑ j ∈ Finset.range n, g j) + f i = (∑ j ∈ Finset.range n, f j) + g i := by
  have rest : (∑ j ∈ (Finset.range n).erase i, g j) = ∑ j ∈ (Finset.range n).erase i, f j :=
    Finset.sum_congr rfl fun j hj => same j (Finset.ne_of_mem_erase hj)
  have before := Finset.add_sum_erase (Finset.range n) f (Finset.mem_range.mpr hi)
  have after := Finset.add_sum_erase (Finset.range n) g (Finset.mem_range.mpr hi)
  omega

section Moves

variable {base s t : Scheduler B} {extra extra' : BlockId → Nat}

omit [DecidableEq H] in
theorem held_of (s : Scheduler B) (b : BlockId) {id : SeqId} {seq : Sequence}
    (live : s.seqs id = some seq) : s.held b id = seq.blocks.count b := by
  unfold Scheduler.held
  rw [live]

omit [DecidableEq H] in
theorem held_le (h : Queued s) (b : BlockId) {id : SeqId} {seq : Sequence}
    (live : s.seqs id = some seq) : seq.blocks.count b ≤ s.occurrences b := by
  rw [← held_of s b live]
  exact Finset.single_le_sum (f := fun id => s.held b id) (fun _ _ => Nat.zero_le _)
    (Finset.mem_range.mpr (h.fresh id seq live))

omit [DecidableEq H] in
theorem Balanced.le_refcount (h : Balanced base s extra) (b : BlockId) {id : SeqId} {seq : Sequence}
    (live : s.seqs id = some seq) : seq.blocks.count b ≤ s.pool.refcount b := by
  rw [h.counts]
  exact Nat.le_trans (held_le h.queued b live) (Nat.le_add_right _ _)

omit [DecidableEq H] in
theorem Balanced.pos_refcount (h : Balanced base s extra) {b : BlockId} {id : SeqId} {seq : Sequence}
    (live : s.seqs id = some seq) (hb : b ∈ seq.blocks) : 0 < s.pool.refcount b :=
  Nat.lt_of_lt_of_le (List.count_pos_iff.mpr hb) (h.le_refcount b live)

omit [DecidableEq H] in
/-- One sequence's block list changes along with the pool's counts. -/
theorem Balanced.change (h : Balanced base s extra) {id : SeqId} {old new : Sequence}
    (live : s.seqs id = some old) (setup : SameSetup s t) (queued : Queued t) (wf : Wf t.pool) (nextId : t.nextId = s.nextId)
    (seqs : t.seqs = Function.update s.seqs id (some new))
    (moved : ∀ b, t.pool.refcount b + old.blocks.count b + extra b =
      s.pool.refcount b + new.blocks.count b + extra' b) : Balanced base t extra' := by
  refine ⟨h.setup.trans setup, wf, queued, fun b => ?_⟩
  have sum := sum_change (f := fun id => s.held b id) (g := fun id => t.held b id)
    (h.queued.fresh id old live) (by
      intro j hj
      simp [Scheduler.held, seqs, Function.update_of_ne hj])
  have new_held : t.held b id = new.blocks.count b := held_of t b (by rw [seqs, Function.update_self])
  simp only [held_of s b live, new_held, ← nextId] at sum
  have before := h.counts b
  have after := moved b
  unfold Scheduler.occurrences at before ⊢
  rw [← nextId] at before
  omega

omit [DecidableEq H] in
/-- Nothing but the pool's order and index changes. -/
theorem Balanced.congr (h : Balanced base s extra) (setup : SameSetup s t) (queued : Queued t) (wf : Wf t.pool)
    (nextId : t.nextId = s.nextId) (seqs : t.seqs = s.seqs)
    (refcount : ∀ b, t.pool.refcount b + extra b = s.pool.refcount b + extra' b) :
    Balanced base t extra' := by
  refine ⟨h.setup.trans setup, wf, queued, fun b => ?_⟩
  have before := h.counts b
  have after := refcount b
  have same : t.occurrences b = s.occurrences b := by
    unfold Scheduler.occurrences Scheduler.held
    rw [nextId, seqs]
  omega

omit [DecidableEq H] in
/-- A new sequence brings the references it holds. -/
theorem Balanced.enter (h : Balanced base s extra) {new : Sequence} (setup : SameSetup s t) (queued : Queued t) (wf : Wf t.pool)
    (nextId : t.nextId = s.nextId + 1) (seqs : t.seqs = Function.update s.seqs s.nextId (some new))
    (moved : ∀ b, t.pool.refcount b = s.pool.refcount b + new.blocks.count b) : Balanced base t extra := by
  refine ⟨h.setup.trans setup, wf, queued, fun b => ?_⟩
  have before := h.counts b
  have after := moved b
  have new_held : t.held b s.nextId = new.blocks.count b :=
    held_of t b (by rw [seqs, Function.update_self])
  have same : (∑ id ∈ Finset.range s.nextId, t.held b id) = s.occurrences b := by
    refine Finset.sum_congr rfl fun id hid => ?_
    have : id ≠ s.nextId := Nat.ne_of_lt (Finset.mem_range.mp hid)
    simp [Scheduler.held, seqs, Function.update_of_ne this]
  unfold Scheduler.occurrences
  rw [nextId, Finset.sum_range_succ, same, new_held]
  omega

end Moves

section Passes

variable {base s t : Scheduler B} {extra : BlockId → Nat}

theorem passStep_balanced {p p' : Pass B} (h : PassStep p p') (bal : Balanced base p.scheduler extra) :
    Balanced base p'.scheduler extra := by
  have queued := passStep_queued h bal.queued
  cases h with
  | @batch id seq q pool taken plan run new live chunk took pushed =>
    have takes := takeBlocks_takes bal.wf took
    refine bal.change live ⟨rfl, rfl, rfl, takes.shape⟩ queued takes.wf rfl rfl fun b => ?_
    have := takes.refcount b
    simp only [Scheduler.setSeq_pool, Scheduler.setPool_pool, Sequence.withBlocks_blocks,
      List.count_append]
    omega
  | @preempt id seq q pool taken err run new live chunk took =>
    have takes := takeBlocks_takes bal.wf took
    have free := freeAll_spec takes.wf (l := seq.blocks ++ taken) (by
      intro b
      have := takes.refcount b
      have := bal.le_refcount b live
      rw [List.count_append]
      omega)
    refine bal.change live ⟨rfl, rfl, rfl, takes.shape.trans free.shape⟩ queued free.wf rfl rfl fun b => ?_
    have := takes.refcount b
    have := bal.le_refcount b live
    have := congrFun free.refcount b
    simp only [Scheduler.setSeq_pool, Scheduler.setPool_pool, Scheduler.setRunning_pool,
      Scheduler.setWaiting_pool, Sequence.resetForRecompute_blocks, List.count_append,
      List.count_nil] at this ⊢
    omega
  | @start id rest seq found pool matched taken cached head live budget room hit fits took =>
    obtain ⟨cachedPrefix, -⟩ := matchCached_spec bal.wf hit
    have takes := takeBlocks_takes cachedPrefix.counts.wf took
    have idle := bal.queued.idle id seq live (by
      rw [bal.queued.place_of_waiting (by simp [head]) live]; decide)
    refine bal.change live ⟨rfl, rfl, rfl, cachedPrefix.counts.shape.trans takes.shape⟩ queued takes.wf
      rfl rfl fun b => ?_
    have := takes.refcount b
    have := congrFun cachedPrefix.counts.refcount b
    simp only [Scheduler.setSeq_pool, Scheduler.setPool_pool, Scheduler.setRunning_pool,
      Scheduler.setWaiting_pool, Sequence.startOn_blocks, List.count_append, idle,
      List.count_nil] at this ⊢
    omega
  | @refuse id rest seq found pool matched taken cached n failed head live hit took =>
    obtain ⟨cachedPrefix, -⟩ := matchCached_spec bal.wf hit
    have takes := takeBlocks_takes cachedPrefix.counts.wf took
    have free := freeAll_spec takes.wf (l := matched ++ taken) (by
      intro b
      have := takes.refcount b
      have := congrFun cachedPrefix.counts.refcount b
      simp only [List.count_append] at this ⊢
      omega)
    refine bal.congr ⟨rfl, rfl, rfl, (cachedPrefix.counts.shape.trans takes.shape).trans free.shape⟩
      queued free.wf rfl rfl fun b => ?_
    have := takes.refcount b
    have := congrFun cachedPrefix.counts.refcount b
    have := congrFun free.refcount b
    simp only [Scheduler.setPool_pool, List.count_append] at this ⊢
    omega

theorem passSteps_balanced {p p' : Pass B} (h : PassSteps p p') (bal : Balanced base p.scheduler extra) :
    Balanced base p'.scheduler extra := by
  induction h with
  | refl => exact bal
  | tail _ step ih => exact passStep_balanced step ih

end Passes

section Calls

variable {base s t : Scheduler B} {extra : BlockId → Nat}

omit [DecidableEq H] in
theorem new_balanced (cfg : SchedulerConfig) (n bs watermark : Nat) (ns : CacheNamespace B)
    (eos : List Token) :
    Balanced (Scheduler.new cfg (BlockPool.new n bs watermark) ns eos)
      (Scheduler.new cfg (BlockPool.new n bs watermark) ns eos) (fun _ => 0) where
  setup := ⟨rfl, rfl, rfl, .refl _⟩
  wf := wf_new n bs watermark
  queued := new_queued _ _ _ _
  counts := fun b => (new_fields (H := H) n bs watermark).2.2.1 b

omit [DecidableEq H] in
theorem admit_balanced (h : Balanced base s extra) (requestId : RequestId) (prompt : List Token)
    (params : SamplingParams) (tenant : String) :
    Balanced base (s.admitRequest requestId prompt params tenant).1 extra := by
  have queued := admit_queued h.queued requestId prompt params tenant
  unfold Scheduler.admitRequest at queued ⊢
  split at queued
  · rename_i empty; rw [if_pos empty]; exact h
  · rename_i nonempty
    rw [if_neg nonempty]
    split at queued
    · rename_i long; rw [if_pos long]; exact h
    · rename_i fits
      rw [if_neg fits]
      exact h.enter ⟨rfl, rfl, rfl, .refl _⟩ queued h.wf rfl rfl fun b => rfl

omit [DecidableEq H] in
theorem finish_balanced (h : Balanced base s extra) (id : SeqId) (reason : FinishReason) :
    Balanced base (s.finish id reason) extra := by
  rcases finish_cases s id reason with same | ⟨seq, live, going, eq⟩
  · rw [same]; exact h
  · rw [eq]
    have free := freeAll_spec h.wf fun b => h.le_refcount b live
    refine h.change live ⟨rfl, rfl, rfl, free.shape⟩ (retire_queued h.queued reason live going)
      free.wf rfl rfl fun b => ?_
    have := congrFun free.refcount b
    have := h.le_refcount b live
    simp only [Scheduler.retire_pool, Sequence.withBlocks_blocks, List.count_nil] at this ⊢
    omega

omit [DecidableEq H] in
theorem cancel_balanced (h : Balanced base s extra) (requestId : RequestId) :
    Balanced base (s.cancel requestId).1 extra := by
  rw [cancel_eq]
  generalize s.sequencesOf requestId = ids
  induction ids generalizing s with
  | nil => exact h
  | cons id ids ih => exact ih (finish_balanced h id .cancelled)

/-- The references a refused fork leaves behind. -/
def leak (src : Scheduler.ForkSource) (bs : Nat) (extra : BlockId → Nat) : BlockId → Nat :=
  fun b => extra b + (src.blocks.take (src.computed / bs)).count b

/-- A fork that succeeds moves references to its children; one that is refused
leaves those of the child it was making unnamed. -/
theorem forkChildren_balanced (h : Balanced base s extra) (src : Scheduler.ForkSource) (n : Nat) (out : Fork)
    (held : ∀ b ∈ src.blocks, 0 < s.pool.refcount b) :
    match (Scheduler.forkChildren src n out s).2 with
    | .ok _ => Balanced base (Scheduler.forkChildren src n out s).1 extra
    | .error _ => Balanced base (Scheduler.forkChildren src n out s).1 (leak src s.cfg.blockSize extra) := by
  induction n generalizing s out with
  | zero => exact h
  | succ n ih =>
    have shared := sharedPool_spec src s.cfg.blockSize h.wf held
    unfold Scheduler.forkChildren
    rcases hc : Scheduler.childBlocks src s.cfg.blockSize s.pool with ⟨pool, e | ⟨blocks, copy⟩⟩
    · obtain ⟨rfl, -, -⟩ := childBlocks_error h.wf held hc
      refine h.congr ⟨rfl, rfl, rfl, shared.shape⟩ (setPool_queued h.queued _) shared.wf rfl rfl fun b => ?_
      simp only [Scheduler.setPool_pool, shared.refcount, leak]
      omega
    · obtain ⟨own, rfl, takes, -⟩ := childBlocks_ok h.wf held hc
      have counts : ∀ b, pool.refcount b = s.pool.refcount b +
          (src.blocks.take (src.computed / s.cfg.blockSize) ++ own).count b := by
        intro b
        have := takes.refcount b
        simp only [shared.refcount, List.count_append] at this ⊢
        omega
      have entered := h.enter (by exact ⟨rfl, rfl, rfl, shared.shape.trans takes.shape⟩)
        (addFork_queued (setPool_queued h.queued pool) src
          (src.blocks.take (src.computed / s.cfg.blockSize) ++ own)) takes.wf rfl rfl counts
      exact ih entered _ fun b hb => by
        have := held b hb
        have := counts b
        simp only [Scheduler.addFork, Scheduler.setRunning_pool, Scheduler.register_pool,
          Scheduler.setPool_pool]
        omega

theorem fork_balanced (h : Balanced base s extra) (parent : SeqId) (n : Nat) :
    (∀ out, (s.fork parent n).2 = .ok out → Balanced base (s.fork parent n).1 extra) ∧
    ∃ extra', Balanced base (s.fork parent n).1 extra' := by
  unfold Scheduler.fork
  cases live : s.seqs parent with
  | none => exact ⟨fun _ _ => h, extra, h⟩
  | some seq =>
    by_cases prefilling : seq.needsPrefill
    · simp only [prefilling, if_true]
      exact ⟨fun _ _ => h, extra, h⟩
    · simp only [prefilling, Bool.false_eq_true, if_false]
      have := forkChildren_balanced h (Scheduler.forkSource seq) n {}
        fun b hb => h.pos_refcount live hb
      cases outcome : (Scheduler.forkChildren (Scheduler.forkSource seq) n {} s).2 with
      | ok out => simp only [outcome] at this; exact ⟨fun _ _ => this, extra, this⟩
      | error e => simp only [outcome] at this; exact ⟨fun _ h => by simp at h, _, this⟩

theorem seedFork_balanced (h : Balanced base s extra) {id : SeqId} (run : id ∈ s.running) (token : Token) :
    Balanced base (s.seedFork id token).1 extra := by
  have queued := seedFork_queued h.queued run token
  obtain ⟨seq, live, -⟩ := h.queued.running run
  unfold Scheduler.seedFork at queued ⊢
  simp only [live] at queued ⊢
  rcases took : takeBlocks BlockPool.allocateGuarded
    (s.pool.blocksFor ((seq.pushToken token).numComputed + 1) - (seq.pushToken token).blocks.length)
    s.pool with ⟨pool, taken, failed⟩
  obtain ⟨takes, -⟩ := takeBlocks_spec allocateGuarded_allocates h.wf took
  simp only [took] at queued ⊢
  have moved : Balanced base ((s.setPool pool).setSeq id
      ((seq.pushToken token).withBlocks ((seq.pushToken token).blocks ++ taken))) extra := by
    refine h.change live ⟨rfl, rfl, rfl, takes.shape⟩ (by cases failed <;> exact queued) takes.wf rfl rfl fun b => ?_
    have := takes.refcount b
    simp only [Scheduler.setSeq_pool, Scheduler.setPool_pool, Sequence.withBlocks_blocks,
      Sequence.pushToken_blocks, List.count_append]
    omega
  cases failed <;> exact moved

omit [DecidableEq H] in
/-- A change of one sequence that leaves its blocks alone. -/
theorem Balanced.keep (h : Balanced base s extra) {id : SeqId} {old new : Sequence}
    (live : s.seqs id = some old) (queued : Queued (s.setSeq id new)) (same : new.blocks = old.blocks) :
    Balanced base (s.setSeq id new) extra :=
  h.change live ⟨rfl, rfl, rfl, .refl _⟩ queued h.wf rfl rfl fun b => by rw [same]; rfl

omit [DecidableEq H] in
theorem advanceLoop_balanced (h : Balanced base s extra) {ids : List SeqId} {cu : List UInt32}
    (e : Scheduler.advanceLoop ids cu s = some t) : Balanced base t extra := by
  refine advanceLoop_preserves (P := fun s => Balanced base s extra) (fun s id q h => ?_) h e
  have queued := advanceOne_queued h.queued id q
  unfold Scheduler.advanceOne at queued ⊢
  cases live : s.seqs id with
  | none => exact h
  | some seq =>
    simp only [live] at queued ⊢
    refine h.keep live queued ?_
    split <;> rfl

omit [DecidableEq H] in
theorem pushSampled_balanced (h : Balanced base s extra) (id : SeqId) (token : Token) :
    Balanced base (s.pushSampled id token) extra := by
  cases live : s.seqs id with
  | none => simpa [Scheduler.pushSampled, live] using h
  | some seq =>
    have pushed : Balanced base (s.setSeq id (seq.pushToken token)) extra :=
      h.keep live (h.queued.keep live (by rfl) rfl rfl
        (funext fun place => by cases place <;> rfl) (h.queued.idle _ seq live)) rfl
    rcases pushSampled_cases live token with e | ⟨reason, -, e⟩ <;> rw [e]
    · exact pushed
    · exact finish_balanced pushed id reason

omit [DecidableEq H] in
theorem sampledLoop_balanced (h : Balanced base s extra) (pairs : List (SeqId × Token)) :
    Balanced base (s.sampledLoop pairs) extra := by
  unfold Scheduler.sampledLoop
  induction pairs generalizing s with
  | nil => exact h
  | cons p pairs ih => exact ih (pushSampled_balanced h p.1 p.2)

/-- What publishing some of a sequence's blocks and adopting the canonical ones
does to the pool. -/
theorem publish_swaps (h : Balanced base s extra) {id : SeqId} {seq : Sequence} {hashes : List H} {n m : Nat}
    {pool pool' : BlockPool H} {swaps : List (Nat × BlockId × BlockId)} {blocks : List BlockId}
    (live : s.seqs id = some seq)
    (pub : Scheduler.publishBlocks seq.blocks ((((List.range hashes.length).zip hashes).take n).drop m) s.pool =
      (pool, swaps)) (swapped : Scheduler.swapBlocks swaps (seq.blocks, pool) = (blocks, pool')) :
    PublishedAll seq.blocks s.pool pool ((((List.range hashes.length).zip hashes).take n).drop m) swaps ∧
    SameShape pool pool' ∧ Wf pool' ∧ pool'.byHash = pool.byHash ∧
    ∀ b, pool'.refcount b + seq.blocks.count b + (swaps.map fun x => x.2.2).count b =
      pool.refcount b + blocks.count b := by
  have published := publishBlocks_spec h.wf (fun b hb => h.wf.lt_of_pos (h.pos_refcount live hb)) pub
  have nodup : (swaps.map Prod.fst).Nodup := by
    refine published.indices.nodup (List.Nodup.sublist (List.Sublist.map _
      ((List.drop_sublist _ _).trans (List.take_sublist _ _))) ?_)
    rw [List.map_fst_zip (by simp)]
    exact List.nodup_range
  refine ⟨published, swapBlocks_spec published.wf nodup (fun x hx => (published.here x hx).1) (fun b => ?_) swapped⟩
  have := h.le_refcount b live
  rw [published.refcount]
  omega

theorem publishOne_balanced (h : Balanced base s extra) {id : SeqId} (e : s.publishOne id = some t) :
    Balanced base t extra := by
  have queued := publishOne_queued h.queued e
  rcases publishOne_cases e with rfl | ⟨seq, pool, swaps, blocks, pool', live, -, -, pub, swapped, rfl⟩
  · exact h
  · obtain ⟨published, shape, wf, -, counts⟩ := publish_swaps h live pub swapped
    refine h.change live ⟨rfl, rfl, rfl, published.shape.trans shape⟩ queued wf rfl rfl fun b => ?_
    have h₁ := counts b
    have h₂ := published.refcount b
    simp only [Scheduler.setSeq_pool, Scheduler.setPool_pool, Sequence.withBlocks_blocks]
    omega

theorem publishLoop_balanced (h : Balanced base s extra) {ids : List SeqId}
    (e : Scheduler.publishLoop ids s = some t) : Balanced base t extra := by
  induction ids generalizing s with
  | nil => simp only [Scheduler.publishLoop, Option.some.injEq] at e; exact e ▸ h
  | cons id ids ih =>
    obtain ⟨s₁, one, rest⟩ := bind_some e
    exact ih (publishOne_balanced h one) rest

theorem commit_balanced (h : Balanced base s extra) {plan : StepPlan} {sampled : List Token}
    (e : s.commit plan sampled = some t) : Balanced base t extra := by
  obtain ⟨s₁, advanced, e⟩ := bind_some e
  have pushed := sampledLoop_balanced (advanceLoop_balanced h advanced) (plan.sampledSeqs.zip sampled)
  unfold Scheduler.publishFullBlocks at e
  split at e
  · exact publishLoop_balanced pushed e
  · exact Option.some.inj e ▸ pushed

omit [DecidableEq H] in
/-- Draining sequences without blocks changes no count. -/
theorem drainLoop_held (ids : List SeqId)
    (idle : ∀ id ∈ ids, ∀ seq, s.seqs id = some seq → seq.blocks = []) (b : BlockId) (x : SeqId) :
    (Scheduler.drainLoop ids s).1.held b x = s.held b x ∧
    SameSetup s (Scheduler.drainLoop ids s).1 ∧ (Scheduler.drainLoop ids s).1.pool = s.pool ∧
    (Scheduler.drainLoop ids s).1.nextId = s.nextId := by
  induction ids generalizing s with
  | nil => exact ⟨rfl, ⟨rfl, rfl, rfl, .refl _⟩, rfl, rfl⟩
  | cons id ids ih =>
    unfold Scheduler.drainLoop Scheduler.drainOne
    cases live : s.seqs id with
    | none => exact ih fun y hy => idle y (by simp [hy])
    | some seq =>
      obtain ⟨rest, setup, pool, nextId⟩ := ih (s := { s with
        seqs := Function.update s.seqs id none, byRequest := s.unfile id seq.requestId })
        (by
          intro y hy seq' live'
          by_cases e : y = id
          · simp [e] at live'
          · exact idle y (by simp [hy]) seq' (by simpa [e] using live'))
      refine ⟨rest.trans ?_, ⟨setup.cfg, setup.cacheNamespace, setup.eosTokenIds, setup.shape⟩, pool,
        nextId⟩
      unfold Scheduler.held
      by_cases e : x = id
      · subst e; simp [live, idle x (by simp) seq live]
      · simp [e]

omit [DecidableEq H] in
theorem drainFinished_balanced (h : Balanced base s extra) : Balanced base s.drainFinished.1 extra := by
  have same := fun b x => drainLoop_held (s := s.setFinished []) s.finished (by
    intro id hid seq live
    obtain ⟨seq', live', place⟩ := (h.queued.mem .finished id).mp hid
    change s.seqs id = some seq at live
    rw [live] at live'
    exact h.queued.idle id seq live (by rw [Option.some.inj live', place]; decide)) b x
  obtain ⟨-, setup, pool, nextId⟩ := same 0 0
  refine ⟨h.setup.trans ⟨setup.cfg, setup.cacheNamespace, setup.eosTokenIds, setup.shape⟩, ?_,
    drainLoop_queued h.queued rfl, fun b => ?_⟩
  · change Wf (Scheduler.drainLoop s.finished (s.setFinished [])).1.pool
    rw [pool]
    exact h.wf
  · unfold Scheduler.occurrences Scheduler.drainFinished
    rw [pool, nextId, Finset.sum_congr rfl fun x _ => (same b x).1]
    exact h.counts b

/-- The fork succeeded, if the call was one. -/
def ForkSucceeds (_ : Scheduler B) (l : Op × Outcome) : Prop := ∀ e, l.2 ≠ .forked (.error e)

theorem step_balanced {l : Op × Outcome} (h : Balanced base s extra) (step : s.Step l t) :
    (ForkSucceeds s l → Balanced base t extra) ∧ ∃ extra', Balanced base t extra' := by
  obtain ⟨op, outcome⟩ := l
  obtain ⟨seeds, e⟩ := step
  change s.exec op = some (t, outcome) at e
  have plain : Balanced base t extra → (ForkSucceeds s (op, outcome) → Balanced base t extra) ∧
      ∃ extra', Balanced base t extra' := fun b => ⟨fun _ => b, extra, b⟩
  cases op with
  | admitRequest requestId prompt params tenant =>
    obtain ⟨rfl, -⟩ := Prod.mk.inj (Option.some.inj e)
    exact plain (admit_balanced h requestId prompt params tenant)
  | schedule =>
    obtain ⟨⟨s', plan⟩, scheduled, eq⟩ := Option.map_eq_some_iff.mp e
    obtain ⟨rfl, -⟩ := Prod.mk.inj eq
    obtain ⟨p, steps, rfl, -⟩ := schedule_steps scheduled h.queued
    exact plain (passSteps_balanced steps h)
  | commit plan sampled =>
    obtain ⟨s', committed, eq⟩ := Option.map_eq_some_iff.mp e
    obtain ⟨rfl, -⟩ := Prod.mk.inj eq
    exact plain (commit_balanced h committed)
  | fork parent n =>
    obtain ⟨rfl, rfl⟩ := Prod.mk.inj (Option.some.inj e)
    obtain ⟨good, any⟩ := fork_balanced h parent n
    refine ⟨fun succeeds => ?_, any⟩
    cases outcome : (s.fork parent n).2 with
    | ok out => exact good out outcome
    | error err => exact absurd (congrArg Outcome.forked outcome) (succeeds err)
  | seedFork id token =>
    obtain ⟨rfl, -⟩ := Prod.mk.inj (Option.some.inj e)
    exact plain (seedFork_balanced h (seeds id token rfl) token)
  | cancel requestId =>
    obtain ⟨rfl, -⟩ := Prod.mk.inj (Option.some.inj e)
    exact plain (cancel_balanced h requestId)
  | finishWith id reason =>
    obtain ⟨rfl, -⟩ := Prod.mk.inj (Option.some.inj e)
    exact plain (finish_balanced h id reason)
  | drainFinished =>
    obtain ⟨rfl, -⟩ := Prod.mk.inj (Option.some.inj e)
    exact plain (drainFinished_balanced h)

/-- In every run the pool counts at least what the live sequences name. -/
theorem run_balanced {cfg : SchedulerConfig} {n bs watermark : Nat} {ns : CacheNamespace B}
    {eos : List Token} {ls : List (Op × Outcome)}
    (run : Run Scheduler.Step (Scheduler.new cfg (BlockPool.new n bs watermark) ns eos) ls s) :
    ∃ extra, Balanced (Scheduler.new cfg (BlockPool.new n bs watermark) ns eos) s extra :=
  run.invariant (fun s => ∃ extra, Balanced _ s extra) ⟨_, new_balanced cfg n bs watermark ns eos⟩
    fun _ _ _ ⟨_, h⟩ step => (step_balanced h step).2

/-- And exactly that in every run whose forks succeed. -/
theorem run_exact {cfg : SchedulerConfig} {n bs watermark : Nat} {ns : CacheNamespace B}
    {eos : List Token} {ls : List (Op × Outcome)}
    (run : Run (Transition.Guarded ForkSucceeds Scheduler.Step)
      (Scheduler.new cfg (BlockPool.new n bs watermark) ns eos) ls s) :
    Balanced (Scheduler.new cfg (BlockPool.new n bs watermark) ns eos) s (fun _ => 0) :=
  run.invariant (fun s => Balanced _ s fun _ => 0) (new_balanced cfg n bs watermark ns eos)
    fun _ _ _ h step => (step_balanced h step.2).1 step.1

omit [DecidableEq H] in
/-- A block on the free list has no reference, and no sequence names it. -/
theorem Balanced.unused (h : Balanced base s extra) {b : BlockId}
    (hb : b ∈ IntrusiveList.walk s.pool.lru.next s.pool.lru.head s.pool.numFree) :
    s.pool.refcount b = 0 ∧ ∀ id seq, s.seqs id = some seq → b ∉ seq.blocks := by
  obtain ⟨L, r⟩ := h.wf
  obtain ⟨links, -, -, free, -⟩ := refines_reads r
  rw [(links _ (Nat.le_refl _)).1] at hb
  have unused := ((free b).mp hb).2
  refine ⟨unused, fun id seq live named => ?_⟩
  have := h.pos_refcount live named
  omega

omit [DecidableEq H] in
/-- With exact accounts, blocks nobody holds are free. -/
theorem Balanced.all_free (h : Balanced base s fun _ => 0)
    (idle : ∀ id seq, s.seqs id = some seq → seq.blocks = []) :
    s.pool.numFree = s.pool.numBlocks := by
  refine h.wf.numFree_of_unused fun b => ?_
  rw [h.counts]
  have none : ∀ id ∈ Finset.range s.nextId, s.held b id = 0 := by
    intro id _
    unfold Scheduler.held
    cases live : s.seqs id with
    | none => rfl
    | some seq => simp [idle id seq live]
  unfold Scheduler.occurrences
  rw [Finset.sum_eq_zero none]

/-- References are conserved: in every state of every run whose forks succeed
a block is counted as often as the live sequences name it. So a block on the
free list is named by none, and when none holds a block all are free. -/
theorem references_conserved {cfg : SchedulerConfig} {n bs watermark : Nat} {ns : CacheNamespace B}
    {eos : List Token} {ls : List (Op × Outcome)}
    (run : Run (Transition.Guarded ForkSucceeds Scheduler.Step)
      (Scheduler.new cfg (BlockPool.new n bs watermark) ns eos) ls s) :
    (∀ id seq, s.seqs id = some seq → id < s.nextId) ∧
    (∀ b, s.pool.refcount b = ∑ id ∈ Finset.range s.nextId, s.held b id) ∧
    (∀ b ∈ IntrusiveList.walk s.pool.lru.next s.pool.lru.head s.pool.numFree,
      s.pool.refcount b = 0 ∧ ∀ id seq, s.seqs id = some seq → b ∉ seq.blocks) ∧
    ((∀ id seq, s.seqs id = some seq → seq.blocks = []) → s.pool.numFree = n) := by
  have h := run_exact run
  refine ⟨h.queued.fresh, h.counts, fun b hb => h.unused hb, fun idle => ?_⟩
  rw [h.all_free idle, h.setup.shape.numBlocks]
  exact (new_fields (H := H) n bs watermark).1

end Calls

/-- A prompt of two tokens holds one block of four once it is scheduled. -/
theorem references_conserved_scheduled :
    ∃ ls s, Run (Transition.Guarded ForkSucceeds Scheduler.Step)
      (Scheduler.fresh { blockSize := 4, prefixCache := false } 4 0) ls s ∧
      s.pool.refcount 0 = 1 ∧ (∑ id ∈ Finset.range s.nextId, s.held 0 id) = 1 := by
  have run : Run (Transition.Guarded ForkSucceeds Scheduler.Step)
      (Scheduler.fresh { blockSize := 4, prefixCache := false } 4 0)
      [(.admitRequest ⟨"r"⟩ [1, 2] {} "global", _), (.schedule, _)] _ :=
    .cons ⟨by simp [ForkSucceeds], by simp, rfl⟩ <|
      .cons ⟨by simp [ForkSucceeds], by simp, rfl⟩ .nil
  have counts := (references_conserved run).2.1 0
  exact ⟨_, _, run, rfl, counts.symm.trans rfl⟩

end Vapi.Engine
