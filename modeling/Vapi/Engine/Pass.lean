import Vapi.Engine.Blocks
import Mathlib.Logic.Relation

/-!
# What a scheduling pass does

The two phases of `schedule` come down to four kinds of step: a sequence is
batched, preempted, started, or refused a start. `schedule_steps` says so
once; every invariant of the scheduler is carried over these steps.
-/

namespace Vapi.Engine

open Vapi.Cache

/-- The queue a status belongs to. -/
inductive Place
  | waiting
  | running
  | finished
  deriving DecidableEq

def SeqStatus.place : SeqStatus → Place
  | .waiting | .preempted => .waiting
  | .prefilling | .decoding => .running
  | .finished _ => .finished

theorem SeqStatus.isFinished_iff (status : SeqStatus) :
    status.isFinished = true ↔ status.place = .finished := by
  cases status <;> simp [SeqStatus.isFinished, SeqStatus.place]

variable {H : Type} {B : Blake3 H}

def Scheduler.queue (s : Scheduler B) : Place → List SeqId
  | .waiting => s.waiting
  | .running => s.running
  | .finished => s.finished

/-- Every sequence is in the queue of its status, once, and only a running
one holds blocks. -/
structure Queued (s : Scheduler B) : Prop where
  fresh : ∀ id seq, s.seqs id = some seq → id < s.nextId
  nodup : ∀ place, (s.queue place).Nodup
  mem : ∀ place id, id ∈ s.queue place ↔ ∃ seq, s.seqs id = some seq ∧ seq.status.place = place
  idle : ∀ id seq, s.seqs id = some seq → seq.status.place ≠ .running → seq.blocks = []

namespace Queued

variable {s t : Scheduler B}

theorem running (h : Queued s) {id : SeqId} (hid : id ∈ s.running) :
    ∃ seq, s.seqs id = some seq ∧ seq.status.place = .running := (h.mem .running id).mp hid

theorem waiting (h : Queued s) {id : SeqId} (hid : id ∈ s.waiting) :
    ∃ seq, s.seqs id = some seq ∧ seq.status.place = .waiting := (h.mem .waiting id).mp hid

theorem place_of_running (h : Queued s) {id : SeqId} {seq : Sequence} (hid : id ∈ s.running)
    (live : s.seqs id = some seq) : seq.status.place = .running := by
  obtain ⟨seq', live', place⟩ := h.running hid
  rw [live] at live'
  exact Option.some.inj live' ▸ place

theorem place_of_waiting (h : Queued s) {id : SeqId} {seq : Sequence} (hid : id ∈ s.waiting)
    (live : s.seqs id = some seq) : seq.status.place = .waiting := by
  obtain ⟨seq', live', place⟩ := h.waiting hid
  rw [live] at live'
  exact Option.some.inj live' ▸ place

theorem running_not_waiting (h : Queued s) {id : SeqId} (hr : id ∈ s.running) : id ∉ s.waiting := by
  intro hw
  obtain ⟨seq, live, place⟩ := h.running hr
  have := h.place_of_waiting hw live
  simp [place] at this

/-- One sequence changes, and the queues are those of the new statuses. -/
theorem change (h : Queued s) {id : SeqId} {seq : Sequence} (old : id < s.nextId)
    (nextId : t.nextId = s.nextId) (seqs : t.seqs = Function.update s.seqs id (some seq))
    (nodup : ∀ place, (t.queue place).Nodup)
    (mem : ∀ place x, x ∈ t.queue place ↔ if x = id then seq.status.place = place else x ∈ s.queue place)
    (idle : seq.status.place ≠ .running → seq.blocks = []) : Queued t where
  fresh := by
    intro x seq' live
    rw [seqs, Function.update_apply] at live
    rw [nextId]
    split at live
    · rename_i e; exact e ▸ old
    · exact h.fresh x seq' live
  nodup := nodup
  mem := by
    intro place x
    rw [mem, seqs, Function.update_apply]
    by_cases e : x = id
    · simp [e]
    · simp only [e, if_false]; exact h.mem place x
  idle := by
    intro x seq' live
    rw [seqs, Function.update_apply] at live
    split at live
    · exact Option.some.inj live ▸ idle
    · exact h.idle x seq' live

/-- A change that keeps the sequence in its queue. -/
theorem keep (h : Queued s) {id : SeqId} {old new : Sequence} (live : s.seqs id = some old)
    (same : new.status.place = old.status.place) (nextId : t.nextId = s.nextId)
    (seqs : t.seqs = Function.update s.seqs id (some new)) (queue : t.queue = s.queue)
    (idle : new.status.place ≠ .running → new.blocks = []) : Queued t := by
  refine h.change (h.fresh id old live) nextId seqs (fun place => queue ▸ h.nodup place) ?_ idle
  intro place x
  rw [queue, same]
  by_cases e : x = id
  · subst e
    rw [if_pos rfl, h.mem]
    simp [live]
  · rw [if_neg e]

/-- Only the pool, the namespaces or the configuration changed. -/
theorem congr (h : Queued s) (nextId : t.nextId = s.nextId) (seqs : t.seqs = s.seqs)
    (queue : t.queue = s.queue) : Queued t where
  fresh := by rw [nextId, seqs]; exact h.fresh
  nodup := by rw [queue]; exact h.nodup
  mem := by rw [queue, seqs]; exact h.mem
  idle := by rw [seqs]; exact h.idle

end Queued

/-- How many tokens a sequence contributes to the batch: one to decode, or the
next chunk of its known text. -/
def Chunk (p : Pass B) (seq : Sequence) (q : Nat) : Prop :=
  0 < q ∧ q ≤ p.budget ∧
  (seq.needsPrefill = false ∧ q = 1 ∨
    q = min (min seq.remainingPrefill p.scheduler.cfg.prefillChunkTokens) p.budget)

/-- The namespace a tenant's blocks are hashed under. -/
def Scheduler.nsFor (s : Scheduler B) (tenant : String) : CacheNamespace B :=
  if tenant = s.cacheNamespace.tenant then s.cacheNamespace
  else (s.tenants tenant).getD (s.cacheNamespace.forTenant tenant)

/-- The derived namespaces once a tenant's has been asked for. -/
def Scheduler.tenantsFor (s : Scheduler B) (tenant : String) : String → Option (CacheNamespace B) :=
  if tenant = s.cacheNamespace.tenant then s.tenants
  else Function.update s.tenants tenant (some (s.nsFor tenant))

theorem namespaceFor_eq (s : Scheduler B) (tenant : String) :
    s.namespaceFor tenant = (s.setTenants (s.tenantsFor tenant), s.nsFor tenant) := by
  unfold Scheduler.namespaceFor Scheduler.tenantsFor Scheduler.nsFor
  by_cases own : tenant = s.cacheNamespace.tenant
  · simp only [own, if_true]; rfl
  · simp only [own, if_false]
    cases memo : s.tenants tenant with
    | none => rfl
    | some ns =>
      simp only [Option.getD_some]
      rw [← memo, Function.update_eq_self]
      rfl

variable [DecidableEq H]

inductive PassStep (p : Pass B) : Pass B → Prop
  | batch {id : SeqId} {seq : Sequence} {q : Nat} {pool : BlockPool H} {taken : List BlockId}
      {plan : StepPlan} (run : id ∈ p.scheduler.running) (new : id ∉ p.plan.batchSeqs)
      (live : p.scheduler.seqs id = some seq) (chunk : Chunk p seq q)
      (took : takeBlocks BlockPool.allocate
        (p.scheduler.pool.blocksFor (seq.numComputed + q) - seq.blocks.length) p.scheduler.pool =
          (pool, taken, none))
      (pushed : p.plan.pushSeq id (seq.withBlocks (seq.blocks ++ taken)) q
        p.scheduler.cfg.blockSize = some plan) :
      PassStep p ⟨(p.scheduler.setPool pool).setSeq id (seq.withBlocks (seq.blocks ++ taken)), plan,
        p.budget - q⟩
  | preempt {id : SeqId} {seq : Sequence} {q : Nat} {pool : BlockPool H} {taken : List BlockId}
      {err : AllocError} (run : id ∈ p.scheduler.running) (new : id ∉ p.plan.batchSeqs)
      (live : p.scheduler.seqs id = some seq) (chunk : Chunk p seq q)
      (took : takeBlocks BlockPool.allocate
        (p.scheduler.pool.blocksFor (seq.numComputed + q) - seq.blocks.length) p.scheduler.pool =
          (pool, taken, some err)) :
      PassStep p ⟨(((p.scheduler.setPool (pool.freeAll (seq.blocks ++ taken))).setSeq id
        seq.resetForRecompute).setRunning (p.scheduler.running.filter (· ≠ id))).setWaiting
          (id :: p.scheduler.waiting), p.plan.preempt id, p.budget⟩
  | start {id : SeqId} {rest : List SeqId} {seq : Sequence}
      {found pool : BlockPool H} {matched taken : List BlockId} {cached : Nat}
      (head : p.scheduler.waiting = id :: rest) (live : p.scheduler.seqs id = some seq)
      (budget : p.budget ≠ 0) (room : p.scheduler.running.length < p.scheduler.cfg.maxConcurrentSeqs)
      (hit : p.scheduler.matchCached (p.scheduler.nsFor seq.tenant) seq = (found, matched, cached))
      (fits : found.canAllocate (found.blocksFor (seq.prefillTarget + 1) - matched.length))
      (took : takeBlocks BlockPool.allocate
        (found.blocksFor (seq.prefillTarget + 1) - matched.length) found = (pool, taken, none)) :
      PassStep p ⟨((((p.scheduler.setTenants (p.scheduler.tenantsFor seq.tenant)).setPool pool).setSeq id
        (seq.startOn matched cached taken)).setWaiting rest).setRunning
          (p.scheduler.running ++ [id]), p.plan.start id cached, p.budget⟩
  | refuse {id : SeqId} {rest : List SeqId} {seq : Sequence}
      {found pool : BlockPool H} {matched taken : List BlockId} {cached n : Nat}
      {failed : Option AllocError} (head : p.scheduler.waiting = id :: rest)
      (live : p.scheduler.seqs id = some seq)
      (hit : p.scheduler.matchCached (p.scheduler.nsFor seq.tenant) seq = (found, matched, cached))
      (took : takeBlocks BlockPool.allocate n found = (pool, taken, failed)) :
      PassStep p ⟨(p.scheduler.setTenants (p.scheduler.tenantsFor seq.tenant)).setPool (pool.freeAll (matched ++ taken)),
        p.plan, p.budget⟩

abbrev PassSteps : Pass B → Pass B → Prop := Relation.ReflTransGen PassStep

theorem passStep_queued {p p' : Pass B} (h : PassStep p p') (q : Queued p.scheduler) :
    Queued p'.scheduler := by
  cases h with
  | @batch id seq q' pool taken plan run new live chunk took pushed =>
    refine q.keep live (by rfl) rfl rfl (funext fun place => by cases place <;> rfl) ?_
    intro idle
    exact absurd (q.place_of_running run live) idle
  | @preempt id seq q' pool taken err run new live chunk took =>
    refine q.change (q.fresh id seq live) rfl rfl ?_ ?_ (fun _ => rfl)
    · intro place
      cases place with
      | waiting => exact List.nodup_cons.mpr ⟨q.running_not_waiting run, q.nodup .waiting⟩
      | running => exact (q.nodup .running).filter _
      | finished => exact q.nodup .finished
    · intro place x
      have finished := q.mem .finished x
      cases place with
      | waiting => by_cases e : x = id <;> simp [Scheduler.queue, e, SeqStatus.place]
      | running => by_cases e : x = id <;> simp [Scheduler.queue, e, SeqStatus.place]
      | finished =>
        by_cases e : x = id
        · subst e
          have place := q.place_of_running run live
          simp [live, place] at finished
          simpa [SeqStatus.place, Scheduler.queue] using finished
        · simp [Scheduler.queue, e]
  | @start id rest seq found pool matched taken cached head live budget room hit fits
      took =>
    have hw : id ∈ p.scheduler.waiting := by simp [head]
    have nodup : id ∉ rest ∧ rest.Nodup := List.nodup_cons.mp (head ▸ q.nodup .waiting)
    have notRunning : id ∉ p.scheduler.running := fun hr => q.running_not_waiting hr hw
    refine q.change (q.fresh id seq live) rfl rfl ?_ ?_ (fun h => absurd rfl h)
    · intro place
      cases place with
      | waiting => exact nodup.2
      | running =>
        exact List.nodup_append.mpr ⟨q.nodup .running, by simp, fun x hx y hy e =>
          notRunning (by simp at hy; exact hy ▸ e ▸ hx)⟩
      | finished => exact q.nodup .finished
    · intro place x
      have finished := q.mem .finished x
      cases place with
      | waiting => by_cases e : x = id <;> simp [Scheduler.queue, head, e, SeqStatus.place, nodup.1]
      | running => by_cases e : x = id <;> simp [Scheduler.queue, e, SeqStatus.place]
      | finished =>
        by_cases e : x = id
        · subst e
          simp [live, q.place_of_waiting hw live] at finished
          simpa [SeqStatus.place, Scheduler.queue] using finished
        · simp [Scheduler.queue, e]
  | @refuse id rest seq found pool matched taken cached n failed head live hit took =>
    exact q.congr rfl rfl (funext fun place => by cases place <;> rfl)

theorem passSteps_queued {p p' : Pass B} (h : PassSteps p p') (q : Queued p.scheduler) :
    Queued p'.scheduler := by
  induction h with
  | refl => exact q
  | tail _ step ih => exact passStep_queued step ih

/-- The pass with another running queue. -/
def Pass.withRunning (p : Pass B) (running : List SeqId) : Pass B :=
  p.setScheduler (p.scheduler.setRunning running)

section Equations

variable {s s' : Scheduler B} {p p' : Pass B} {id : SeqId}

/-- A computation that went on did so from a value. -/
theorem bind_some {α β : Type} {x : Option α} {f : α → Option β} {b : β}
    (h : (do let a ← x; f a) = some b) : ∃ a, x = some a ∧ f a = some b :=
  Option.bind_eq_some_iff.mp h

theorem tryExtend_eq {extra : Nat} {fits : Bool} (h : s.tryExtend id extra = some (s', fits)) :
    ∃ seq pool taken failed, s.seqs id = some seq ∧
      takeBlocks BlockPool.allocate (s.pool.blocksFor (seq.numComputed + extra) - seq.blocks.length)
        s.pool = (pool, taken, failed) ∧ fits = failed.isNone ∧
      s' = (s.setPool pool).setSeq id (seq.withBlocks (seq.blocks ++ taken)) := by
  obtain ⟨seq, live, h⟩ := bind_some h
  obtain ⟨rfl, rfl⟩ := Prod.mk.inj (Option.some.inj h)
  exact ⟨seq, _, _, _, live, rfl, rfl, rfl⟩

theorem pushSeq_batchSeqs {plan plan' : StepPlan} {seq : Sequence} {q bs : Nat}
    (h : plan.pushSeq id seq q bs = some plan') : plan'.batchSeqs = plan.batchSeqs ++ [id] := by
  obtain ⟨batch, -, h⟩ := bind_some h
  rw [← Option.some.inj h]

omit [DecidableEq H] in
theorem pushSeqIntoBatch_eq {q : Nat} (h : p.pushSeqIntoBatch id q = some p') :
    ∃ seq plan, p.scheduler.seqs id = some seq ∧
      p.plan.pushSeq id seq q p.scheduler.cfg.blockSize = some plan ∧
      p' = ⟨p.scheduler, plan, p.budget - q⟩ := by
  obtain ⟨seq, live, h⟩ := bind_some h
  obtain ⟨plan, pushed, h⟩ := bind_some h
  exact ⟨seq, plan, live, pushed, (Option.some.inj h).symm⟩

omit [DecidableEq H] in
theorem preempt_eq (h : p.preempt id = some p') :
    ∃ seq, p.scheduler.seqs id = some seq ∧
      p' = ⟨(((p.scheduler.setPool (p.scheduler.pool.freeAll seq.blocks)).setSeq id
        seq.resetForRecompute).setRunning (p.scheduler.running.filter (· ≠ id))).setWaiting
          (id :: p.scheduler.waiting), p.plan.preempt id, p.budget⟩ := by
  obtain ⟨s, h, eq⟩ := bind_some h
  obtain ⟨seq, live, h⟩ := bind_some h
  obtain rfl := Option.some.inj h
  exact ⟨seq, live, (Option.some.inj eq).symm⟩

theorem extendOrPreempt_eq {q : Nat} {kept : Bool} (h : p.extendOrPreempt id q = some (p', kept)) :
    ∃ s fits, p.scheduler.tryExtend id q = some (s, fits) ∧ kept = fits ∧
      if fits then (p.setScheduler s).pushSeqIntoBatch id q = some p'
      else (p.setScheduler s).preempt id = some p' := by
  obtain ⟨⟨s, fits⟩, ext, h⟩ := bind_some h
  cases fits with
  | true =>
    obtain ⟨r, pushed, h⟩ := bind_some h
    obtain ⟨rfl, rfl⟩ := Prod.mk.inj (Option.some.inj h)
    exact ⟨s, true, ext, rfl, pushed⟩
  | false =>
    obtain ⟨r, preempted, h⟩ := bind_some h
    obtain ⟨rfl, rfl⟩ := Prod.mk.inj (Option.some.inj h)
    exact ⟨s, false, ext, rfl, preempted⟩

end Equations

/-- What batching or preempting one running sequence leads to. The step is the
same whatever running queue it is looked at under. -/
structure Extended (p p' : Pass B) (id : SeqId) (kept : Bool) (running : List SeqId) : Prop where
  step : PassStep (p.withRunning running)
    (p'.withRunning (if kept then running else running.filter (· ≠ id)))
  running : p'.scheduler.running =
    if kept then p.scheduler.running else p.scheduler.running.filter (· ≠ id)
  batchSeqs : p'.plan.batchSeqs = if kept then p.plan.batchSeqs ++ [id] else p.plan.batchSeqs
  other : ∀ x, x ≠ id → p'.scheduler.seqs x = p.scheduler.seqs x
  same : ∀ seq, kept = true → p.scheduler.seqs id = some seq →
    ∃ blocks, p'.scheduler.seqs id = some (seq.withBlocks blocks)

theorem extendOrPreempt_step {p p' : Pass B} {id : SeqId} {q : Nat} {kept : Bool} {seq : Sequence}
    (h : p.extendOrPreempt id q = some (p', kept)) (live : p.scheduler.seqs id = some seq)
    (chunk : Chunk p seq q) {running : List SeqId} (run : id ∈ running)
    (new : id ∉ p.plan.batchSeqs) : Extended p p' id kept running := by
  obtain ⟨s, fits, ext, rfl, h⟩ := extendOrPreempt_eq h
  obtain ⟨seq', pool, taken, failed, live', took, rfl, rfl⟩ := tryExtend_eq ext
  obtain rfl : seq = seq' := Option.some.inj (live.symm.trans live')
  have here : ((p.scheduler.setPool pool).setSeq id (seq.withBlocks (seq.blocks ++ taken))).seqs id =
      some (seq.withBlocks (seq.blocks ++ taken)) := Function.update_self ..
  cases failed with
  | none =>
    obtain ⟨seq₂, plan, live₂, pushed, rfl⟩ := pushSeqIntoBatch_eq h
    obtain rfl := Option.some.inj (here.symm.trans live₂)
    refine ⟨.batch (p := p.withRunning running) run new live chunk took pushed, rfl,
      pushSeq_batchSeqs pushed, ?_, ?_⟩
    · intro x hx; simp [hx]
    · intro seq' _ live'
      obtain rfl : seq = seq' := Option.some.inj (live.symm.trans live')
      exact ⟨_, here⟩
  | some err =>
    obtain ⟨seq₂, live₂, rfl⟩ := preempt_eq h
    obtain rfl := Option.some.inj (here.symm.trans live₂)
    refine ⟨?_, rfl, rfl, ?_, by simp⟩
    · have step := PassStep.preempt (p := p.withRunning running) run new live chunk took
      convert step using 2
      · simp only [Pass.withRunning, Pass.setScheduler, Scheduler.setSeq, Scheduler.setPool,
          Scheduler.setRunning, Scheduler.setWaiting, Function.update_idem]
        rfl
      · rfl
      · rfl
    · intro x hx; simp [hx]

/-- The sequences batched so far are running. -/
def Batched (p : Pass B) : Prop := ∀ id ∈ p.plan.batchSeqs, id ∈ p.scheduler.running

theorem passStep_batched {p p' : Pass B} (h : PassStep p p') (b : Batched p) : Batched p' := by
  cases h with
  | batch run new live chunk took pushed =>
    intro x hx
    rw [pushSeq_batchSeqs pushed, List.mem_append, List.mem_singleton] at hx
    rcases hx with hx | rfl
    · exact b x hx
    · exact run
  | preempt run new live chunk took =>
    intro x hx
    exact List.mem_filter.mpr ⟨b x hx, by simpa using ne_of_mem_of_not_mem hx new⟩
  | start head live budget room hit fits took =>
    intro x hx
    exact List.mem_append_left _ (b x hx)
  | refuse head live hit took => exact b

/-- The sequences batched so far need no prefill. -/
def OnlyDecodes (p : Pass B) : Prop :=
  ∀ id ∈ p.plan.batchSeqs, ∃ seq, p.scheduler.seqs id = some seq ∧ seq.needsPrefill = false

theorem decodeOne_cases {p p' : Pass B} {id : SeqId} {kept : Bool} {seq : Sequence}
    (h : p.decodeOne id = some (p', kept)) (live : p.scheduler.seqs id = some seq)
    (going : seq.status.isFinished = false) :
    (p' = p ∧ kept = true) ∨
    (Chunk p seq 1 ∧ seq.needsPrefill = false ∧ p.extendOrPreempt id 1 = some (p', kept)) := by
  unfold Pass.decodeOne at h
  simp only [live, going, Bool.false_eq_true, if_false] at h
  split at h
  · exact .inl (by simpa [eq_comm] using h)
  · rename_i decodes
    split at h
    · exact .inl (by simpa [eq_comm] using h)
    · rename_i budget
      have decodes : seq.needsPrefill = false := by simpa using decodes
      exact .inr ⟨⟨Nat.one_pos, by omega, .inl ⟨decodes, rfl⟩⟩, decodes, h⟩

theorem filter_middle {pre rest : List SeqId} {id : SeqId} (nodup : (pre ++ id :: rest).Nodup) :
    (pre ++ id :: rest).filter (· ≠ id) = pre ++ rest := by
  obtain ⟨-, tail, apart⟩ := List.nodup_append.mp nodup
  have before : ∀ x ∈ pre, x ≠ id := fun x hx => apart x hx id (by simp)
  have after : ∀ x ∈ rest, x ≠ id := fun x hx e => (List.nodup_cons.mp tail).1 (e ▸ hx)
  rw [List.filter_append, List.filter_cons]
  simp only [ne_eq, not_true_eq_false, decide_false, Bool.false_eq_true, if_false]
  rw [List.filter_eq_self.mpr (by simpa using before), List.filter_eq_self.mpr (by simpa using after)]

/-- The decode loop over the rest `ids` of the running queue, whose start
`l` it has dealt with. -/
theorem decodeLoop_steps {ids l : List SeqId} {p p' : Pass B} {survivors : List SeqId}
    (h : Pass.decodeLoop ids p = some (p', survivors)) (taken : p.scheduler.running = [])
    (q : Queued (p.withRunning (l ++ ids)).scheduler)
    (new : ∀ id ∈ ids, id ∉ p.plan.batchSeqs) (decodes : OnlyDecodes p) :
    PassSteps (p.withRunning (l ++ ids)) (p'.withRunning (l ++ survivors)) ∧
    p'.scheduler.running = [] ∧ OnlyDecodes p' := by
  induction ids generalizing p l survivors with
  | nil =>
    simp only [Pass.decodeLoop, Option.some.injEq, Prod.mk.injEq] at h
    obtain ⟨rfl, rfl⟩ := h
    exact ⟨.refl, taken, decodes⟩
  | cons id ids ih =>
    obtain ⟨⟨p₁, kept⟩, one, h⟩ := bind_some h
    obtain ⟨⟨p₂, rest⟩, loop, h⟩ := bind_some h
    obtain ⟨rfl, rfl⟩ := Prod.mk.inj (Option.some.inj h)
    have nodup : (l ++ id :: ids).Nodup := q.nodup .running
    have run : id ∈ l ++ id :: ids := by simp
    obtain ⟨seq, live, place⟩ := q.running run
    change p.scheduler.seqs id = some seq at live
    have going : seq.status.isFinished = false := by
      rw [Bool.eq_false_iff, ne_eq, SeqStatus.isFinished_iff, place]
      decide
    rcases decodeOne_cases one live going with ⟨rfl, rfl⟩ | ⟨chunk, decode, ext⟩
    · have := ih (l := l ++ [id]) loop taken (by simpa using q)
        (fun x hx => new x (by simp [hx])) decodes
      simpa using this
    · have step := extendOrPreempt_step ext live chunk run (new id (by simp))
      have notLater : ∀ x ∈ ids, x ≠ id := fun x hx e =>
        (List.nodup_cons.mp (List.nodup_append.mp nodup).2.1).1 (e ▸ hx)
      have running : p₁.scheduler.running = [] := by
        rw [step.running, taken]; split <;> rfl
      cases kept with
      | true =>
        have batchSeqs : p₁.plan.batchSeqs = p.plan.batchSeqs ++ [id] := step.batchSeqs
        have only : OnlyDecodes p₁ := by
          intro x hx
          rw [batchSeqs, List.mem_append, List.mem_singleton] at hx
          by_cases e : x = id
          · subst e
            obtain ⟨blocks, here⟩ := step.same seq rfl live
            exact ⟨_, here, decode⟩
          · rw [step.other x e]
            exact decodes x (hx.resolve_right e)
        have go : PassStep (p.withRunning (l ++ id :: ids)) (p₁.withRunning (l ++ id :: ids)) :=
          step.step
        have := ih (l := l ++ [id]) loop running (by simpa using passStep_queued go q) (by
          intro x hx
          rw [batchSeqs, List.mem_append, List.mem_singleton, not_or]
          exact ⟨new x (by simp [hx]), notLater x hx⟩) only
        simp only [List.append_assoc, List.singleton_append] at this
        exact ⟨.head go this.1, this.2⟩
      | false =>
        have batchSeqs : p₁.plan.batchSeqs = p.plan.batchSeqs := step.batchSeqs
        have only : OnlyDecodes p₁ := by
          intro x hx
          rw [batchSeqs] at hx
          rw [step.other x (ne_of_mem_of_not_mem hx (new id (by simp)))]
          exact decodes x hx
        have go : PassStep (p.withRunning (l ++ id :: ids)) (p₁.withRunning (l ++ ids)) := by
          have := step.step
          rwa [if_neg Bool.false_ne_true, filter_middle nodup] at this
        have := ih (l := l) loop running (passStep_queued go q)
          (fun x hx => batchSeqs ▸ new x (by simp [hx])) only
        exact ⟨.head go this.1, this.2⟩

theorem scheduleDecodes_steps {p p' : Pass B} (h : p.scheduleDecodes = some p')
    (q : Queued p.scheduler) (start : p.plan.batchSeqs = []) : PassSteps p p' ∧ OnlyDecodes p' := by
  obtain ⟨⟨p₁, survivors⟩, loop, h⟩ := bind_some h
  obtain rfl := Option.some.inj h
  have := decodeLoop_steps (p := p.setScheduler (p.scheduler.setRunning [])) (l := []) loop rfl q
    (by simp [Pass.setScheduler, start]) (by intro x hx; simp [Pass.setScheduler, start] at hx)
  exact ⟨this.1, this.2.2⟩

theorem extendOrPreempt_here {p p' : Pass B} {id : SeqId} {kept : Bool}
    (e : Extended p p' id kept p.scheduler.running) : PassStep p p' := by
  have step := e.step
  rw [← e.running] at step
  exact step

theorem prefillChunk_cases {p p' : Pass B} {id : SeqId} (h : p.prefillChunk id = some p') :
    p' = p ∨ ∃ seq q kept, p.scheduler.seqs id = some seq ∧ Chunk p seq q ∧
      p.extendOrPreempt id q = some (p', kept) := by
  obtain ⟨seq, live, h⟩ := bind_some h
  simp only at h
  split at h
  · exact .inl (Option.some.inj h).symm
  · rename_i pos
    obtain ⟨⟨p₁, kept⟩, ext, h⟩ := bind_some h
    obtain rfl := Option.some.inj h
    exact .inr ⟨seq, _, kept, live, ⟨Nat.pos_of_ne_zero pos, by omega, .inr rfl⟩, ext⟩

/-- The prefill loop over running sequences, none of them batched unless to
decode. -/
theorem continueLoop_steps {ids : List SeqId} {p p' : Pass B}
    (h : Pass.continueLoop ids p = some p') (nodup : ids.Nodup)
    (run : ∀ id ∈ ids, id ∈ p.scheduler.running)
    (new : ∀ id ∈ ids, id ∈ p.plan.batchSeqs →
      ∃ seq, p.scheduler.seqs id = some seq ∧ seq.needsPrefill = false) : PassSteps p p' := by
  induction ids generalizing p with
  | nil => simp only [Pass.continueLoop, Option.some.injEq] at h; exact h ▸ .refl
  | cons id ids ih =>
    obtain ⟨notLater, nodup⟩ := List.nodup_cons.mp nodup
    have skip : Pass.continueLoop ids p = some p' → PassSteps p p' := fun h => ih h nodup (fun x hx => run x (by simp [hx]))
      (fun x hx => new x (by simp [hx]))
    unfold Pass.continueLoop at h
    split at h
    · exact Option.some.inj h ▸ .refl
    · split at h
      · exact skip h
      · rename_i seq live
        split at h
        · exact skip h
        · rename_i prefilling
          have needs : seq.needsPrefill = true := by
            by_contra no
            exact prefilling (.inl no)
          obtain ⟨p₁, chunk, loop⟩ := bind_some h
          rcases prefillChunk_cases chunk with rfl | ⟨seq', n, kept, live', fits, ext⟩
          · exact ih loop nodup (fun x hx => run x (by simp [hx])) (fun x hx => new x (by simp [hx]))
          · have unbatched : id ∉ p.plan.batchSeqs := by
              intro hb
              obtain ⟨seq'', live'', decodes⟩ := new id (by simp) hb
              rw [live] at live''
              rw [← Option.some.inj live'', needs] at decodes
              simp at decodes
            have step := extendOrPreempt_step ext live' fits (run id (by simp)) unbatched
            have other : ∀ x ∈ ids, x ≠ id := fun x hx e => notLater (e ▸ hx)
            refine .head (extendOrPreempt_here step) (ih loop nodup ?_ ?_)
            · intro x hx
              rw [step.running]
              have := run x (by simp [hx])
              split
              · exact this
              · exact List.mem_filter.mpr ⟨this, by simpa using other x hx⟩
            · intro x hx hb
              rw [step.other x (other x hx)]
              refine new x (by simp [hx]) ?_
              rw [step.batchSeqs] at hb
              split at hb
              · simpa [other x hx] using hb
              · exact hb

theorem tryStart_step {p : Pass B} {s' : Scheduler B} {id : SeqId} {rest : List SeqId}
    {seq : Sequence} {started : Bool}
    (h : (p.scheduler.setWaiting rest).tryStart id = some (s', started))
    (head : p.scheduler.waiting = id :: rest) (live : p.scheduler.seqs id = some seq)
    (budget : p.budget ≠ 0) (room : p.scheduler.running.length < p.scheduler.cfg.maxConcurrentSeqs) :
    (started = true ∧ s'.running = p.scheduler.running ∧ ∃ seq', s'.seqs id = some seq' ∧
      PassStep p ⟨s'.setRunning (s'.running ++ [id]), p.plan.start id seq'.cachedPrefixTokens,
        p.budget⟩) ∨
    (started = false ∧ PassStep p (p.setScheduler (s'.setWaiting (id :: s'.waiting)))) := by
  obtain ⟨seq', live', h⟩ := bind_some h
  obtain rfl : seq = seq' := Option.some.inj (live.symm.trans live')
  rw [namespaceFor_eq] at h
  rcases hit : p.scheduler.matchCached (p.scheduler.nsFor seq.tenant) seq with ⟨found, matched, cached⟩
  have hit' : ((p.scheduler.setWaiting rest).setTenants
      ((p.scheduler.setWaiting rest).tenantsFor seq.tenant)).matchCached
      ((p.scheduler.setWaiting rest).nsFor seq.tenant) seq = (found, matched, cached) := hit
  simp only [hit'] at h
  have back : ∀ pool : BlockPool H,
      p.setScheduler ((((p.scheduler.setWaiting rest).setTenants
        ((p.scheduler.setWaiting rest).tenantsFor seq.tenant)).setPool pool).setWaiting
          (id :: rest)) =
      ⟨(p.scheduler.setTenants (p.scheduler.tenantsFor seq.tenant)).setPool pool, p.plan,
        p.budget⟩ := by
    intro pool
    rw [← head]
    rfl
  split at h
  · obtain ⟨rfl, rfl⟩ := Prod.mk.inj (Option.some.inj h)
    refine .inr ⟨rfl, ?_⟩
    have step := PassStep.refuse head live hit
          (show takeBlocks BlockPool.allocate 0 _ = (_, [], none) from rfl)
    rw [List.append_nil] at step
    exact (back _) ▸ step
  · rename_i fits
    simp only [not_not] at fits
    rcases took : takeBlocks BlockPool.allocate
      (found.blocksFor (seq.prefillTarget + 1) - matched.length) found with ⟨pool, taken, failed⟩
    simp only [took] at h
    cases failed with
    | some err =>
      obtain ⟨rfl, rfl⟩ := Prod.mk.inj (Option.some.inj h)
      exact .inr ⟨rfl, (back _) ▸ .refuse head live hit took⟩
    | none =>
      obtain ⟨rfl, rfl⟩ := Prod.mk.inj (Option.some.inj h)
      refine .inl ⟨rfl, rfl, seq.startOn matched cached taken, Function.update_self .., ?_⟩
      exact .start head live budget room hit fits took

/-- The start loop. Whatever is batched is running, so what still waits is
not. -/
theorem startLoop_steps {fuel : Nat} {p p' : Pass B} (h : Pass.startLoop fuel p = some p')
    (q : Queued p.scheduler) (b : Batched p) : PassSteps p p' := by
  induction fuel generalizing p with
  | zero => simp [Pass.startLoop] at h
  | succ fuel ih =>
    unfold Pass.startLoop at h
    split at h
    · exact Option.some.inj h ▸ .refl
    · rename_i going
      rw [not_or] at going
      split at h
      · exact Option.some.inj h ▸ .refl
      · rename_i id rest head
        obtain ⟨seq, live, place⟩ := q.waiting (show id ∈ _ by simp [head])
        have unfinished : seq.status.isFinished = false := by
          rw [Bool.eq_false_iff, ne_eq, SeqStatus.isFinished_iff, place]
          decide
        simp only [Pass.setScheduler_scheduler, Scheduler.setWaiting_seqs, live, unfinished,
          Bool.false_eq_true, if_false] at h
        obtain ⟨⟨s', started⟩, try_, h⟩ := bind_some h
        rcases tryStart_step try_ head live going.1 (by omega) with
          ⟨rfl, same, seq', live', step⟩ | ⟨rfl, step⟩
        · simp only [not_true_eq_false, if_false] at h
          obtain ⟨seq'', live'', h⟩ := bind_some h
          obtain rfl : seq' = seq'' := Option.some.inj (live'.symm.trans live'')
          obtain ⟨p₁, chunk, h⟩ := bind_some h
          have q₁ := passStep_queued step q
          have b₁ := passStep_batched step b
          rcases prefillChunk_cases chunk with rfl | ⟨seq₁, q', kept, live₁, fits, ext⟩
          · exact .head step (ih h q₁ b₁)
          · have unbatched : id ∉ p.plan.batchSeqs := fun hb =>
              q.running_not_waiting (b id hb) (by simp [head])
            have step' := extendOrPreempt_here
              (extendOrPreempt_step ext live₁ fits (by simp) unbatched)
            exact .head step (.head step'
              (ih h (passStep_queued step' q₁) (passStep_batched step' b₁)))
        · simp only [Bool.false_eq_true, not_false_eq_true, if_true, Option.some.injEq] at h
          exact h ▸ .single step

theorem passSteps_batched {p p' : Pass B} (h : PassSteps p p') (b : Batched p) : Batched p' := by
  induction h with
  | refl => exact b
  | tail _ step ih => exact passStep_batched step ih

theorem schedulePrefills_steps {p p' : Pass B} (h : p.schedulePrefills = some p')
    (q : Queued p.scheduler) (b : Batched p) (decodes : OnlyDecodes p) : PassSteps p p' := by
  obtain ⟨p₁, cont, h⟩ := bind_some h
  have first := continueLoop_steps cont (q.nodup .running) (fun _ hx => hx)
    (fun id _ hb => decodes id hb)
  exact first.trans (startLoop_steps h (passSteps_queued first q) (passSteps_batched first b))

/-- A schedule is a sequence of pass steps from an empty plan. -/
theorem schedule_steps {s s' : Scheduler B} {plan : StepPlan} (h : s.schedule = some (s', plan))
    (q : Queued s) :
    ∃ p, PassSteps ⟨s, {}, s.cfg.maxBatchedTokens⟩ p ∧ p.scheduler = s' ∧ plan = p.plan.measured := by
  obtain ⟨p₁, decodes, h⟩ := bind_some h
  obtain ⟨p₂, prefills, h⟩ := bind_some h
  obtain ⟨rfl, rfl⟩ := Prod.mk.inj (Option.some.inj h)
  obtain ⟨first, only⟩ := scheduleDecodes_steps decodes q rfl
  have batched : Batched p₁ := passSteps_batched first (by intro x hx; simp at hx)
  exact ⟨p₂, first.trans (schedulePrefills_steps prefills (passSteps_queued first q) batched only),
    rfl, rfl⟩

end Vapi.Engine
