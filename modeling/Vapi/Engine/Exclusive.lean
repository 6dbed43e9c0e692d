import Vapi.Engine.Commit
import Vapi.Engine.Fork
import Vapi.Engine.Lineage

/-!
# Blocks being written

A sequence writes to its blocks from its first open one on. Such a block has
one reference and no hash: no other sequence holds it, and none can come to
hold it by its content.
-/

namespace Vapi.Engine

open Vapi.Cache

variable {H : Type} {B : Blake3 H}

/-- One reference, and no content in the index. -/
structure Sole (p : BlockPool H) (b : BlockId) : Prop where
  refcount : p.refcount b = 1
  unnamed : ∀ h, p.byHash h ≠ some b

/-- The sequence's blocks that are not full, the first of them on. -/
def Sequence.Open (seq : Sequence) (bs : Nat) (b : BlockId) : Prop :=
  ∃ i, seq.numComputed / bs ≤ i ∧ seq.blocks[i]? = some b

def Exclusive (s : Scheduler B) : Prop :=
  ∀ id seq b, s.seqs id = some seq → seq.Open s.cfg.blockSize b → Sole s.pool b

section Pools

variable {p q : BlockPool H} {l : List BlockId} {b : BlockId}

theorem Sole.takes (h : Sole p b) (t : Takes p q l) : Sole q b where
  refcount := by
    have out : b ∉ l := fun hb => by have := t.unused b hb; have := h.refcount; omega
    rw [t.refcount, h.refcount, List.count_eq_zero_of_not_mem out]
  unnamed k named := h.unnamed k ((t.byHash k b).mp named).1

theorem Takes.sole (t : Takes p q l) (hb : b ∈ l) : Sole q b where
  refcount := by rw [t.refcount, t.unused b hb, List.count_eq_one_of_mem t.nodup hb]
  unnamed k named := ((t.byHash k b).mp named).2 hb

theorem Sole.recounts {f : BlockId → Nat} (h : Sole p b) (r : Recounts p q f) (same : f b = p.refcount b) :
    Sole q b where
  refcount := by rw [r.refcount, same, h.refcount]
  unnamed k named := h.unnamed k (r.byHash ▸ named)

end Pools

section Holders

variable {base s t : Scheduler B} {extra : BlockId → Nat} {id x : SeqId} {seq seq' : Sequence} {b : BlockId}

/-- Two holders of a block are two references to it. -/
theorem Balanced.two (h : Balanced base s extra) (ne : x ≠ id) (live : s.seqs id = some seq)
    (live' : s.seqs x = some seq') : seq.blocks.count b + seq'.blocks.count b ≤ s.pool.refcount b := by
  have sub : ({id, x} : Finset SeqId) ⊆ Finset.range s.nextId := by
    intro y hy
    rcases Finset.mem_insert.mp hy with rfl | hy
    · exact Finset.mem_range.mpr (h.queued.fresh _ _ live)
    · rw [Finset.mem_singleton.mp hy]
      exact Finset.mem_range.mpr (h.queued.fresh _ _ live')
  have sum := Finset.sum_le_sum_of_subset (f := fun y => s.held b y) sub
  rw [Finset.sum_pair ne.symm, held_of s b live, held_of s b live'] at sum
  rw [h.counts]
  exact Nat.le_trans sum (Nat.le_add_right _ _)

theorem Exclusive.apart (e : Exclusive s) (h : Balanced base s extra) (ne : x ≠ id)
    (live' : s.seqs x = some seq') (isOpen : seq'.Open s.cfg.blockSize b) (live : s.seqs id = some seq) :
    b ∉ seq.blocks := by
  intro hb
  have two := h.two (b := b) ne live live'
  have one := (e x seq' b live' isOpen).refcount
  obtain ⟨i, -, get⟩ := isOpen
  have := List.count_pos_iff.mpr hb
  have := List.count_pos_iff.mpr (List.mem_of_getElem? get)
  omega

/-- A list that names something once names it in one place. -/
theorem index_unique {l : List BlockId} {i j : Nat} (once : l.count b ≤ 1) (hi : l[i]? = some b)
    (hj : l[j]? = some b) : i = j := by
  have lt : ∀ {i j : Nat}, l[i]? = some b → l[j]? = some b → ¬i < j := by
    intro i j hi hj lt
    have split := List.take_append_drop (i + 1) l
    have before : b ∈ l.take (i + 1) := List.mem_of_getElem? (i := i) (by
      rw [List.getElem?_take_of_lt (Nat.lt_succ_self i)]; exact hi)
    have after : b ∈ l.drop (i + 1) := List.mem_of_getElem? (i := j - (i + 1)) (by
      rw [List.getElem?_drop, Nat.add_sub_cancel' lt]; exact hj)
    have := List.count_pos_iff.mpr before
    have := List.count_pos_iff.mpr after
    rw [← split, List.count_append] at once
    omega
  exact Nat.le_antisymm (Nat.not_lt.mp (lt hj hi)) (Nat.not_lt.mp (lt hi hj))

/-- An open block is at one place of its own sequence. -/
theorem Exclusive.place (e : Exclusive s) (h : Balanced base s extra) (live : s.seqs id = some seq)
    (isOpen : seq.Open s.cfg.blockSize b) {i : Nat} (hi : seq.blocks[i]? = some b) :
    seq.numComputed / s.cfg.blockSize ≤ i := by
  have once : seq.blocks.count b ≤ 1 := (e id seq b live isOpen).refcount ▸ h.le_refcount b live
  obtain ⟨j, le, hj⟩ := isOpen
  exact index_unique once hi hj ▸ le

/-- One sequence changes; the open blocks of the others stay theirs. -/
theorem Exclusive.change (s : Scheduler B) (id : SeqId) {new : Sequence} (cfg : t.cfg = s.cfg)
    (seqs : t.seqs = Function.update s.seqs id (some new))
    (mine : ∀ b, new.Open s.cfg.blockSize b → Sole t.pool b)
    (others : ∀ x seq' b, x ≠ id → s.seqs x = some seq' → seq'.Open s.cfg.blockSize b → Sole t.pool b) :
    Exclusive t := by
  intro x seq' b live isOpen
  rw [cfg] at isOpen
  rw [seqs, Function.update_apply] at live
  split at live
  · obtain rfl := Option.some.inj live
    exact mine b isOpen
  · rename_i ne
    exact others x seq' b ne live isOpen

/-- Sequences go or change nothing, and the pool leaves open blocks alone. -/
theorem Exclusive.congr (e : Exclusive s) (cfg : t.cfg = s.cfg)
    (seqs : ∀ x seq, t.seqs x = some seq → s.seqs x = some seq)
    (pool : ∀ b, Sole s.pool b → Sole t.pool b) : Exclusive t := by
  intro x seq b live isOpen
  rw [cfg] at isOpen
  exact pool b (e x seq b (seqs x seq live) isOpen)

end Holders

section Calls

variable [DecidableEq H] {base s t : Scheduler B} {extra : BlockId → Nat}

theorem passStep_exclusive {p p' : Pass B} (step : PassStep p p') (h : Balanced base p.scheduler extra)
    (e : Exclusive p.scheduler) (size : 0 < p.scheduler.cfg.blockSize)
    (same : p.scheduler.pool.blockSize = p.scheduler.cfg.blockSize) : Exclusive p'.scheduler := by
  cases step with
  | @batch id seq q pool taken plan run new live chunk took pushed =>
    have takes := takeBlocks_takes h.wf took
    refine .change p.scheduler id rfl rfl (fun b isOpen => ?_) fun x seq' b _ live' isOpen => (e x seq' b live' isOpen).takes takes
    obtain ⟨i, le, get⟩ := isOpen
    by_cases lt : i < seq.blocks.length
    · exact (e id seq b live ⟨i, le, by simpa [List.getElem?_append_left lt] using get⟩).takes takes
    · have : taken[i - seq.blocks.length]? = some b := by
        simpa [List.getElem?_append_right (Nat.not_lt.mp lt)] using get
      exact takes.sole (List.mem_of_getElem? this)
  | @preempt id seq q pool taken err run new live chunk took =>
    have takes := takeBlocks_takes h.wf took
    have free := freeAll_spec takes.wf (l := seq.blocks ++ taken) (by
      intro b
      have := takes.refcount b
      have := h.le_refcount b live
      rw [List.count_append]
      omega)
    refine .change p.scheduler id rfl rfl (fun b isOpen => ?_) fun x seq' b ne live' isOpen => ?_
    · obtain ⟨i, -, get⟩ := isOpen
      simp at get
    · have sole := e x seq' b live' isOpen
      have out : b ∉ seq.blocks := e.apart h ne live' isOpen live
      have fresh : b ∉ taken := fun hb => by have := takes.unused b hb; have := sole.refcount; omega
      refine (sole.takes takes).recounts free ?_
      rw [List.count_append, List.count_eq_zero_of_not_mem out, List.count_eq_zero_of_not_mem fresh]
      rfl
  | @start id rest seq found pool matched taken cached head live budget room hit fits took =>
    obtain ⟨cachedPrefix, exact_⟩ := matchCached_spec h.wf hit
    have takes := takeBlocks_takes cachedPrefix.counts.wf took
    have unmatched : ∀ b, Sole p.scheduler.pool b → Sole pool b := by
      intro b sole
      have out : b ∉ matched := by
        intro hb
        obtain ⟨i, hi⟩ := List.getElem?_of_mem hb
        obtain ⟨k, -, named⟩ := cachedPrefix.named i b hi
        exact sole.unnamed k named
      refine (sole.recounts cachedPrefix.counts ?_).takes takes
      rw [List.count_eq_zero_of_not_mem out, Nat.add_zero]
    refine .change p.scheduler id rfl rfl (fun b isOpen => ?_) fun x seq' b _ live' isOpen => unmatched b (e x seq' b live' isOpen)
    obtain ⟨i, le, get⟩ := isOpen
    have le : matched.length ≤ i := by
      rw [Sequence.startOn_numComputed, (exact_ same).1, Nat.mul_div_cancel _ size] at le
      exact le
    have : taken[i - matched.length]? = some b := by
      simpa [List.getElem?_append_right le] using get
    exact takes.sole (List.mem_of_getElem? this)
  | @refuse id rest seq found pool matched taken cached n failed head live hit took =>
    obtain ⟨cachedPrefix, -⟩ := matchCached_spec h.wf hit
    have takes := takeBlocks_takes cachedPrefix.counts.wf took
    have free := freeAll_spec takes.wf (l := matched ++ taken) (by
      intro b
      have := takes.refcount b
      have := congrFun cachedPrefix.counts.refcount b
      simp only [List.count_append] at this ⊢
      omega)
    refine e.congr rfl (fun _ _ live => live) fun b sole => ?_
    refine ⟨?_, fun k named => ?_⟩
    · have := takes.refcount b
      have := congrFun cachedPrefix.counts.refcount b
      have := congrFun free.refcount b
      have := sole.refcount
      simp only [Scheduler.setPool_pool, List.count_append] at *
      omega
    · change (pool.freeAll (matched ++ taken)).byHash k = some b at named
      rw [free.byHash] at named
      exact sole.unnamed k (cachedPrefix.counts.byHash ▸ ((takes.byHash k b).mp named).1)

omit [DecidableEq H] in
theorem admit_exclusive (e : Exclusive s) (requestId : RequestId) (prompt : List Token)
    (params : SamplingParams) (tenant : String) : Exclusive (s.admitRequest requestId prompt params tenant).1 := by
  unfold Scheduler.admitRequest
  split
  · exact e
  · split
    · exact e
    · refine .change s s.nextId rfl rfl (fun b isOpen => ?_) fun x seq' b _ live' isOpen => e x seq' b live' isOpen
      obtain ⟨i, -, get⟩ := isOpen
      simp at get

omit [DecidableEq H] in
theorem finish_exclusive (h : Balanced base s extra) (e : Exclusive s) (id : SeqId) (reason : FinishReason) :
    Exclusive (s.finish id reason) := by
  rcases finish_cases s id reason with same | ⟨seq, live, going, eq⟩
  · rw [same]; exact e
  · rw [eq]
    have free := freeAll_spec h.wf fun b => h.le_refcount b live
    refine .change s id rfl rfl (fun b isOpen => ?_) fun x seq' b ne live' isOpen => ?_
    · obtain ⟨i, -, get⟩ := isOpen
      simp at get
    · refine (e x seq' b live' isOpen).recounts free ?_
      rw [List.count_eq_zero_of_not_mem (e.apart h ne live' isOpen live), Nat.sub_zero]

omit [DecidableEq H] in
theorem cancel_exclusive (h : Balanced base s extra) (e : Exclusive s) (requestId : RequestId) :
    Exclusive (s.cancel requestId).1 := by
  rw [cancel_eq]
  generalize s.sequencesOf requestId = ids
  induction ids generalizing s with
  | nil => exact e
  | cons id ids ih => exact ih (finish_balanced h id .cancelled) (finish_exclusive h e id .cancelled)

/-- A fork shares full blocks only, and opens a fresh one. -/
theorem forkChildren_exclusive {parent : SeqId} {seq : Sequence} (h : Balanced base s extra)
    (e : Exclusive s) (live : s.seqs parent = some seq) (n : Nat) (out : Fork) :
    Exclusive (Scheduler.forkChildren (Scheduler.forkSource seq) n out s).1 := by
  induction n generalizing s out with
  | zero => exact e
  | succ n ih =>
    have held : ∀ b ∈ (Scheduler.forkSource seq).blocks, 0 < s.pool.refcount b :=
      fun b hb => h.pos_refcount live hb
    have shared := sharedPool_spec (Scheduler.forkSource seq) s.cfg.blockSize h.wf held
    have apart : ∀ x seq' b, s.seqs x = some seq' → seq'.Open s.cfg.blockSize b →
        Sole (sharedPool (Scheduler.forkSource seq) s.cfg.blockSize s.pool) b := by
      intro x seq' b live' isOpen
      refine (e x seq' b live' isOpen).recounts shared ?_
      have out : b ∉ seq.blocks.take (seq.numComputed / s.cfg.blockSize) := by
        intro hb
        by_cases same : x = parent
        · subst same
          obtain rfl := Option.some.inj (live.symm.trans live')
          obtain ⟨i, hi⟩ := List.getElem?_of_mem hb
          have lt := (List.getElem?_eq_some_iff.mp hi).1
          rw [List.length_take] at lt
          rw [List.getElem?_take_of_lt (by omega)] at hi
          have := e.place h live isOpen hi
          omega
        · exact e.apart h same live' isOpen live (List.mem_of_mem_take hb)
      change _ + (seq.blocks.take (seq.numComputed / s.cfg.blockSize)).count b = _
      rw [List.count_eq_zero_of_not_mem out, Nat.add_zero]
    unfold Scheduler.forkChildren
    rcases hc : Scheduler.childBlocks (Scheduler.forkSource seq) s.cfg.blockSize s.pool with
      ⟨pool, err | ⟨blocks, copy⟩⟩
    · obtain ⟨rfl, -, -⟩ := childBlocks_error h.wf held hc
      exact fun x seq' b live' isOpen => apart x seq' b live' isOpen
    · obtain ⟨own, rfl, takes, kind⟩ := childBlocks_ok h.wf held hc
      obtain ⟨entered, -, -, -⟩ := forkChildren_entered h held hc
      have ne : parent ≠ s.nextId := Nat.ne_of_lt (h.queued.fresh parent seq live)
      refine ih entered (.change s s.nextId rfl rfl (fun b isOpen => ?_)
        fun x seq' b _ live' isOpen => (apart x seq' b live' isOpen).takes takes)
        ((Function.update_of_ne ne ..).trans live) _
      obtain ⟨i, le, get⟩ := isOpen
      change seq.numComputed / s.cfg.blockSize ≤ i at le
      change (seq.blocks.take (seq.numComputed / s.cfg.blockSize) ++ own)[i]? = some b at get
      rw [List.getElem?_append_right (by rw [List.length_take]; omega)] at get
      exact takes.sole (List.mem_of_getElem? get)

theorem fork_exclusive (h : Balanced base s extra) (e : Exclusive s) (parent : SeqId) (n : Nat) :
    Exclusive (s.fork parent n).1 := by
  unfold Scheduler.fork
  split
  · exact e
  · rename_i seq live
    split
    · exact e
    · exact forkChildren_exclusive h e live n {}

theorem seedFork_exclusive (h : Balanced base s extra) (e : Exclusive s) (id : SeqId) (token : Token) :
    Exclusive (s.seedFork id token).1 := by
  unfold Scheduler.seedFork
  cases live : s.seqs id with
  | none => exact e
  | some seq =>
    simp only
    rcases took : takeBlocks BlockPool.allocateGuarded
      (s.pool.blocksFor ((seq.pushToken token).numComputed + 1) - (seq.pushToken token).blocks.length)
      s.pool with ⟨pool, taken, failed⟩
    obtain ⟨takes, -⟩ := takeBlocks_spec allocateGuarded_allocates h.wf took
    have seeded : Exclusive ((s.setPool pool).setSeq id
        ((seq.pushToken token).withBlocks ((seq.pushToken token).blocks ++ taken))) := by
      refine .change s id rfl rfl (fun b isOpen => ?_) fun x seq' b _ live' isOpen =>
        (e x seq' b live' isOpen).takes takes
      obtain ⟨i, le, get⟩ := isOpen
      by_cases lt : i < seq.blocks.length
      · exact (e id seq b live ⟨i, le, by simpa [List.getElem?_append_left lt] using get⟩).takes takes
      · have : taken[i - seq.blocks.length]? = some b := by
          simpa [List.getElem?_append_right (Nat.not_lt.mp lt)] using get
        exact takes.sole (List.mem_of_getElem? this)
    cases failed <;> exact seeded

omit [DecidableEq H] in
/-- A sequence that keeps its blocks and does not lose ground. -/
theorem Exclusive.keep (e : Exclusive s) {id : SeqId} {old new : Sequence} (live : s.seqs id = some old)
    (blocks : new.blocks = old.blocks) (computed : old.numComputed ≤ new.numComputed) :
    Exclusive (s.setSeq id new) := by
  refine .change s id rfl rfl (fun b isOpen => ?_) fun x seq' b _ live' isOpen => e x seq' b live' isOpen
  obtain ⟨i, le, get⟩ := isOpen
  exact e id old b live ⟨i, Nat.le_trans (Nat.div_le_div_right computed) le, blocks ▸ get⟩

omit [DecidableEq H] in
theorem advanceLoop_exclusive (e : Exclusive s) {ids : List SeqId} {cu : List UInt32}
    (step : Scheduler.advanceLoop ids cu s = some t) : Exclusive t := by
  refine advanceLoop_preserves (P := Exclusive) (fun s id q e => ?_) e step
  unfold Scheduler.advanceOne
  cases live : s.seqs id with
  | none => exact e
  | some seq =>
    refine e.keep live ?_ ?_
    · split <;> rfl
    · split <;> exact Nat.le_add_right _ _

omit [DecidableEq H] in
theorem pushSampled_exclusive (h : Balanced base s extra) (e : Exclusive s) (id : SeqId) (token : Token) :
    Exclusive (s.pushSampled id token) := by
  cases live : s.seqs id with
  | none => simpa [Scheduler.pushSampled, live] using e
  | some seq =>
    have pushed : Exclusive (s.setSeq id (seq.pushToken token)) := e.keep live rfl (Nat.le_refl _)
    have balanced : Balanced base (s.setSeq id (seq.pushToken token)) extra :=
      h.keep live (h.queued.keep live (by rfl) rfl rfl
        (funext fun place => by cases place <;> rfl) (h.queued.idle _ seq live)) rfl
    rcases pushSampled_cases live token with eq | ⟨reason, -, eq⟩ <;> rw [eq]
    · exact pushed
    · exact finish_exclusive balanced pushed id reason

omit [DecidableEq H] in
theorem sampledLoop_exclusive (h : Balanced base s extra) (e : Exclusive s) (pairs : List (SeqId × Token)) :
    Exclusive (s.sampledLoop pairs) := by
  unfold Scheduler.sampledLoop
  induction pairs generalizing s with
  | nil => exact e
  | cons p pairs ih => exact ih (pushSampled_balanced h p.1 p.2) (pushSampled_exclusive h e p.1 p.2)

omit [DecidableEq H] in
/-- The items published are hashes of full blocks. -/
theorem mem_items {hashes : List H} {n m i : Nat} {k : H}
    (h : (i, k) ∈ (((List.range hashes.length).zip hashes).take n).drop m) : i < n ∧ hashes[i]? = some k := by
  obtain ⟨j, hj⟩ := List.getElem?_of_mem (List.mem_of_mem_drop h)
  have lt := (List.getElem?_eq_some_iff.mp hj).1
  rw [List.length_take] at lt
  rw [List.getElem?_take_of_lt (by omega), List.getElem?_zip_eq_some] at hj
  obtain ⟨range, hash⟩ := hj
  obtain ⟨lt', eq⟩ := List.getElem?_eq_some_iff.mp range
  rw [List.getElem_range] at eq
  obtain rfl : j = i := eq
  exact ⟨by omega, hash⟩

theorem publishOne_exclusive (h : Balanced base s extra) (e : Exclusive s) {id : SeqId}
    (step : s.publishOne id = some t) : Exclusive t := by
  rcases publishOne_cases step with rfl | ⟨seq, pool, swaps, blocks, pool', live, -, -, pub, swapped, rfl⟩
  · exact e
  · obtain ⟨published, -, -, byHash, -⟩ := publish_swaps h live pub swapped
    obtain ⟨counts, places, -⟩ := swapBlocks_other swapped
    -- a full block of this sequence is nobody's open block
    have full : ∀ x seq' b, s.seqs x = some seq' → seq'.Open s.cfg.blockSize b → ∀ i : Nat,
        i < seq.numComputed / s.cfg.blockSize → seq.blocks[i]? ≠ some b := by
      intro x seq' b live' isOpen i lt get
      by_cases same : x = id
      · subst same
        obtain rfl := Option.some.inj (live.symm.trans live')
        have := e.place h live isOpen get
        omega
      · exact e.apart h same live' isOpen live (List.mem_of_getElem? get)
    have apart : ∀ x seq' b, s.seqs x = some seq' → seq'.Open s.cfg.blockSize b → Sole pool' b := by
      intro x seq' b live' isOpen
      have sole := e x seq' b live' isOpen
      have unnamed : ∀ k, pool.byHash k ≠ some b := by
        intro k named
        rcases published.byHash k b named with before | ⟨i, hi, get⟩
        · exact sole.unnamed k before
        · exact full x seq' b live' isOpen i (mem_items hi).1 get
      refine ⟨?_, fun k named => unnamed k (byHash ▸ named)⟩
      have notCanonical : b ∉ swaps.map fun x => x.2.2 := by
        intro hb
        obtain ⟨sw, hs, rfl⟩ := List.mem_map.mp hb
        obtain ⟨k, -, before | ⟨i, hi, get⟩⟩ := published.canonical sw hs
        · exact sole.unnamed k before
        · exact full x seq' _ live' isOpen i (mem_items hi).1 get
      rw [counts b, published.refcount, sole.refcount, List.count_eq_zero_of_not_mem notCanonical]
      intro sw hs eq
      obtain ⟨k, hk, -⟩ := published.canonical sw hs
      exact full x seq' b live' isOpen sw.1 (mem_items hk).1 (eq ▸ (published.here sw hs).1)
    refine .change s id rfl rfl (fun b isOpen => ?_) fun x seq' b _ live' isOpen => apart x seq' b live' isOpen
    obtain ⟨i, le, get⟩ := isOpen
    refine apart id seq b live ⟨i, le, ?_⟩
    rw [← places i ?_]
    · exact get
    · intro hi
      obtain ⟨sw, hs, rfl⟩ := List.mem_map.mp hi
      obtain ⟨k, hk, -⟩ := published.canonical sw hs
      have := (mem_items hk).1
      change seq.numComputed / s.cfg.blockSize ≤ sw.1 at le
      omega

theorem publishLoop_exclusive (h : Balanced base s extra) (e : Exclusive s) {ids : List SeqId}
    (step : Scheduler.publishLoop ids s = some t) : Exclusive t := by
  induction ids generalizing s with
  | nil => simp only [Scheduler.publishLoop, Option.some.injEq] at step; exact step ▸ e
  | cons id ids ih =>
    obtain ⟨s₁, one, rest⟩ := bind_some step
    exact ih (publishOne_balanced h one) (publishOne_exclusive h e one) rest

theorem commit_exclusive (h : Balanced base s extra) (e : Exclusive s) {plan : StepPlan}
    {sampled : List Token} (step : s.commit plan sampled = some t) : Exclusive t := by
  obtain ⟨s₁, advanced, step⟩ := bind_some step
  have h₁ := advanceLoop_balanced h advanced
  have pushed := sampledLoop_exclusive h₁ (advanceLoop_exclusive e advanced) (plan.sampledSeqs.zip sampled)
  have h₂ := sampledLoop_balanced h₁ (plan.sampledSeqs.zip sampled)
  unfold Scheduler.publishFullBlocks at step
  split at step
  · exact publishLoop_exclusive h₂ pushed step
  · exact Option.some.inj step ▸ pushed

omit [DecidableEq H] in
theorem drainFinished_exclusive (e : Exclusive s) : Exclusive s.drainFinished.1 := by
  have emptied := drainFinished_emptied s
  refine e.congr emptied.cfg (fun x seq live => drainLoop_seqs (s := s.setFinished []) live) fun b sole => ?_
  rw [emptied.pool]
  exact sole

end Calls

end Vapi.Engine
