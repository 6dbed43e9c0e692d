import Vapi.Engine.Children

/-!
# What holds between the steps of an engine

The rows of a scheduled batch in closed form, and the invariants of an engine:
its scheduler is sound, the plan in flight is still that of its sequences, and
a leader has its prompt computed and no more than one token after it.
-/

namespace Vapi.Engine

open Vapi.Cache
open Transition (Run Guarded)
open Ragged (offsets)

section Rows

variable {α β γ : Type}

theorem zip_flatMap {f : α → List β} {g : α → List γ} {l : List α}
    (same : ∀ x ∈ l, (f x).length = (g x).length) :
    (l.flatMap f).zip (l.flatMap g) = l.flatMap fun x => (f x).zip (g x) := by
  induction l with
  | nil => rfl
  | cons x l ih =>
    rw [List.flatMap_cons, List.flatMap_cons, List.flatMap_cons, List.zip_append (same x (by simp)),
      ih fun y hy => same y (by simp [hy])]

/-- The row of an entry's position. -/
def Entry.row (bs : Nat) (e : Entry) (i : Nat) : Row :=
  ⟨e.id, e.seq.tokens.getD i 0, i, e.slot bs i, e.seq.blocks⟩

variable {es : List Entry} {bs : Nat}

/-- A batch has a row for each position of each entry, and no other. -/
theorem rows_batchOf {plan : StepPlan} (batch : plan.batch = batchOf bs es)
    (batchSeqs : plan.batchSeqs = es.map Entry.id) (fits : (es.map Entry.q).sum < 2 ^ 32)
    (small : ∀ e ∈ es, ∀ i ∈ e.positions, i < 2 ^ 32 ∧ e.slot bs i < 2 ^ 32) :
    plan.rows = es.flatMap fun e => e.positions.map (e.row bs) := by
  have cells : (batchOf bs es).tokens.zip ((batchOf bs es).positions.zip (batchOf bs es).slotMapping) =
      es.flatMap fun e => e.positions.map fun i =>
        (e.seq.tokens.getD i 0, UInt32.ofNat i, UInt32.ofNat (e.slot bs i)) := by
    unfold batchOf
    simp only
    rw [zip_flatMap (by simp), zip_flatMap (by simp)]
    simp only [List.zip_map']
  have loop : ∀ (es : List Entry) (n : Nat), n + (es.map Entry.q).sum < 2 ^ 32 →
      (∀ e ∈ es, ∀ i ∈ e.positions, i < 2 ^ 32 ∧ e.slot bs i < 2 ^ 32) →
      rowsOf (es.map Entry.id) ((offsets n (es.map Entry.q)).map UInt32.ofNat)
        (es.map fun e => e.seq.blocks) (es.flatMap fun e => e.positions.map fun i =>
          (e.seq.tokens.getD i 0, UInt32.ofNat i, UInt32.ofNat (e.slot bs i))) =
        es.flatMap fun e => e.positions.map (e.row bs) := by
    intro es
    induction es with
    | nil => exact fun _ _ _ => rfl
    | cons e es ih =>
      intro n fits small
      rw [List.map_cons, List.sum_cons, ← Nat.add_assoc] at fits
      have q := ofNat_sub_ofNat (a := n) (q := e.q) (by omega)
      have head : offsets (n + e.q) (es.map Entry.q) =
          (n + e.q) :: (offsets (n + e.q) (es.map Entry.q)).tail := by cases es <;> rfl
      have next := ih (n + e.q) fits fun x hx => small x (by simp [hx])
      rw [head, List.map_cons] at next
      rw [List.map_cons, List.map_cons, List.map_cons, offsets, List.map_cons, head, List.map_cons,
        List.flatMap_cons, List.flatMap_cons, rowsOf, q,
        List.take_left' (by simp), List.drop_left' (by simp), next, List.map_map]
      refine congrArg (· ++ _) (List.map_congr_left fun i hi => ?_)
      obtain ⟨position, slot⟩ := small e (by simp) i hi
      simp only [Function.comp_apply, toNat_ofNat position, toNat_ofNat slot]
      rfl
  unfold StepPlan.rows
  rw [batch, batchSeqs, cells]
  cases es with
  | nil => rfl
  | cons e es => exact loop (e :: es) 0 (by simpa using fits) small

end Rows

variable {H : Type} {B : Blake3 H} {KV : Type}

/-- A configuration whose block size is the pool's, and whose slots and
cumulative lengths are 32-bit numbers. -/
structure Fits (s : Scheduler B) : Prop where
  size : 0 < s.cfg.blockSize
  same : s.pool.blockSize = s.cfg.blockSize
  slots : s.pool.numBlocks * s.cfg.blockSize ≤ 2 ^ 32
  lengths : s.cfg.maxBatchedTokens * s.cfg.maxContext < 2 ^ 32

theorem new_numBlocks (cfg : SchedulerConfig) (n watermark : Nat) (ns : CacheNamespace B) (eos : List Token) :
    (Scheduler.new cfg (BlockPool.new n cfg.blockSize watermark) ns eos).pool.numBlocks = n :=
  (new_fields n cfg.blockSize watermark).1

theorem Fits.new {cfg : SchedulerConfig} {n : Nat} (w : Nat) (ns : CacheNamespace B) (eos : List Token)
    (size : 0 < cfg.blockSize) (slots : n * cfg.blockSize ≤ 2 ^ 32)
    (lengths : cfg.maxBatchedTokens * cfg.maxContext < 2 ^ 32) :
    Fits (Scheduler.new cfg (BlockPool.new n cfg.blockSize w) ns eos) :=
  ⟨size, (new_fields n cfg.blockSize w).2.1, by rw [new_numBlocks]; exact slots, lengths⟩

structure Standing (base : Scheduler B) (w : World B KV) : Prop where
  sound : Sound base w.scheduler
  flight : ∀ plan, w.inFlight = some plan → ∃ es, Flight w.scheduler plan es
  led : ∀ id ∈ w.leaders, id < w.scheduler.nextId
  leaders : ∀ id ∈ w.leaders, ∀ seq, w.scheduler.seqs id = some seq →
    seq.numComputed = seq.promptLen ∧ seq.tokens.length = seq.promptLen + 1

section Schedules

variable {base s t : Scheduler B} {plan : StepPlan} {es : List Entry}

theorem Scheduled.covered (h : Scheduled base s t plan es) : ∀ e ∈ es, e.Covered t.cfg.blockSize := by
  obtain ⟨core, planFor, -⟩ := h.planFor
  exact planFor.covered

theorem Scheduled.current (h : Scheduled base s t plan es) : ∀ e ∈ es, t.seqs e.id = some e.seq := by
  obtain ⟨core, planFor, -⟩ := h.planFor
  exact planFor.current

/-- The keys of a batch are counted in 32 bits. -/
theorem Scheduled.stops (h : Scheduled base s t plan es) (cfg : s.cfg = base.cfg) (fits : Fits base) :
    (es.map Entry.stop).sum < 2 ^ 32 := by
  have each : ∀ e ∈ es, e.stop ≤ e.q * base.cfg.maxContext := by
    intro e he
    have ok := (h.sound.seqs e.id e.seq (h.current e he)).running (h.running e he)
    rw [h.sound.setup.cfg] at ok
    have covered := h.covered e he
    exact Nat.le_trans covered.tokens (Nat.le_trans ok.2.1 (Nat.le_mul_of_pos_left _ covered.pos))
  have sum : (es.map Entry.stop).sum ≤ (es.map Entry.q).sum * base.cfg.maxContext := by
    clear h
    induction es with
    | nil => simp
    | cons e es ih =>
      have := each e (by simp)
      have := ih fun x hx => each x (by simp [hx])
      rw [List.map_cons, List.map_cons, List.sum_cons, List.sum_cons, Nat.add_mul]
      omega
  have budget := h.budget
  rw [cfg] at budget
  exact Nat.lt_of_le_of_lt (Nat.le_trans sum (Nat.mul_le_mul_right _ budget)) fits.lengths

/-- A scheduled sequence's blocks are blocks of the pool. -/
theorem Scheduled.isBlock (h : Scheduled base s t plan es) :
    ∀ e ∈ es, ∀ b ∈ e.seq.blocks, b < base.pool.numBlocks := by
  intro e he b hb
  obtain ⟨extra, balanced⟩ := h.sound.balanced
  rw [← h.sound.setup.shape.numBlocks]
  exact h.sound.wf.lt_of_pos (balanced.pos_refcount (h.current e he) hb)

theorem Scheduled.small (h : Scheduled base s t plan es) (cfg : s.cfg = base.cfg) (fits : Fits base) :
    ∀ e ∈ es, ∀ i ∈ e.positions, i < 2 ^ 32 ∧ e.slot base.cfg.blockSize i < 2 ^ 32 := by
  intro e he i hi
  have stops := h.stops cfg fits
  have covered := h.covered e he
  have one := List.single_le_sum (l := es.map Entry.stop) (by simp) e.stop (List.mem_map_of_mem he)
  have lt := (Entry.mem_positions.mp hi).2
  rw [h.sound.setup.cfg] at covered
  exact ⟨by omega, Nat.lt_of_lt_of_le (slot_lt fits.size covered (h.isBlock e he) hi) fits.slots⟩

theorem Scheduled.rows (h : Scheduled base s t plan es) (cfg : s.cfg = base.cfg) (fits : Fits base) :
    plan.rows = es.flatMap fun e => e.positions.map (e.row base.cfg.blockSize) := by
  obtain ⟨core, planFor, rfl⟩ := h.planFor
  have batch := planFor.batch
  rw [h.sound.setup.cfg] at batch
  change core.rows = _
  exact rows_batchOf batch planFor.batchSeqs
    (Nat.lt_of_le_of_lt (sum_q_le es) (h.stops cfg fits)) (h.small cfg fits)

/-- A plan of less than 2^32 tokens is that of its sequences. -/
theorem Scheduled.flies (h : Scheduled base s t plan es) (fits : (es.map Entry.q).sum < 2 ^ 32) : Flight t plan es := by
  obtain ⟨core, planFor, rfl⟩ := h.planFor
  exact {
    cuSeqlensQ := congrArg ForwardBatch.cuSeqlensQ planFor.batch
    batchSeqs := planFor.batchSeqs
    sampledSeqs := planFor.sampledSeqs
    covered := planFor.covered
    nodup := planFor.nodup
    fits := fits
    old := fun e he => h.sound.queued.fresh e.id e.seq (planFor.current e he)
    running := h.running
    flown := fun e he => .inr (.inl (planFor.current e he)) }

theorem Scheduled.flight (h : Scheduled base s t plan es) (cfg : s.cfg = base.cfg) (fits : Fits base) :
    Flight t plan es :=
  h.flies (Nat.lt_of_le_of_lt (sum_q_le es) (h.stops cfg fits))

end Schedules

/-- A configuration whose block size is the pool's, and under which whatever is
scheduled can be committed. -/
structure Committable (base : Scheduler B) : Prop where
  size : 0 < base.cfg.blockSize
  same : base.pool.blockSize = base.cfg.blockSize
  flight : ∀ s t plan es, s.cfg = base.cfg → Scheduled base s t plan es → Flight t plan es

theorem Fits.committable {base : Scheduler B} (fits : Fits base) : Committable base :=
  ⟨fits.size, fits.same, fun _ _ _ _ cfg h => h.flight cfg fits⟩

section Steps

variable {base : Scheduler B} {w w' : World B KV}

/-- A call that enters no sequence before the next id, and lets the old ones at
most finish and go. -/
theorem Standing.setScheduler (h : Standing base w) {t : Scheduler B} (sound : Sound base t)
    (nextId : w.scheduler.nextId ≤ t.nextId)
    (seqs : ∀ id, id < w.scheduler.nextId → t.seqs id = w.scheduler.seqs id ∨ t.seqs id = none ∨
      ∃ seq reason, w.scheduler.seqs id = some seq ∧
        t.seqs id = some ((seq.withStatus (.finished reason)).withBlocks [])) :
    Standing base (w.setScheduler t) where
  sound := sound
  flight plan flying := by
    obtain ⟨es, f⟩ := h.flight plan flying
    exact ⟨es, f.of_seqs (sound.setup.cfg.trans h.sound.setup.cfg.symm) nextId seqs⟩
  led := by simp
  leaders := by simp

variable [DecidableEq H] {kernel : Kernel KV}

theorem Standing.schedule (h : Standing base w) (fits : Committable base) (e : w.schedule kernel = some w') :
    Standing base w' := by
  obtain ⟨t, plan, es, scheduled, made⟩ := schedule_sound fits.size fits.same h.sound
  unfold World.schedule at e
  rw [scheduled] at e
  obtain rfl := Option.some.inj e
  refine ⟨made.sound, fun plan' flying => ?_, by simp, by simp⟩
  obtain rfl := Option.some.inj flying
  exact ⟨es, fits.flight _ _ _ _ h.sound.setup.cfg made⟩

/-- A first token comes with the prompt computed. -/
theorem Standing.commit (h : Standing base w) {sampled : List Token} (e : w.commit sampled = some w') :
    Standing base w' := by
  obtain ⟨plan, flying, e⟩ := bind_some e
  obtain ⟨es, f⟩ := h.flight plan flying
  split at e
  · cases e
  · rename_i enough
    rw [not_not] at enough
    obtain ⟨t, committed, e⟩ := bind_some e
    obtain rfl := Option.some.inj e
    refine ⟨h.sound.commit f enough committed, by simp, fun id lead => ?_, fun id lead seq' live' => ?_⟩
    · have mem := (List.mem_filter.mp lead).1
      rw [f.sampledSeqs] at mem
      obtain ⟨x, hx, rfl⟩ := List.mem_map.mp mem
      exact Nat.lt_of_lt_of_le (f.old x (List.mem_of_mem_filter hx)) (commit_lineage h.sound.queued committed).nextId
    obtain ⟨mem, one⟩ := List.mem_filter.mp lead
    change t.seqs id = some seq' at live'
    rw [live', Option.any_some, decide_eq_true_eq] at one
    rw [f.sampledSeqs] at mem enough
    obtain ⟨x, hx, rfl⟩ := List.mem_map.mp mem
    obtain ⟨hx, samples⟩ := List.mem_filter.mp hx
    rcases commit_cases f committed live' with ⟨out, -⟩ | ⟨y, hy, same, seq, live, n, blocks, -, rfl⟩
    · exact absurd rfl (out x hx)
    · obtain rfl := List.inj_on_of_nodup_map f.nodup hy hx same
      obtain ⟨token, given⟩ := tokenFor_some hy samples enough
      obtain ⟨known, computed, -⟩ := f.fields hy live
      have covered := (f.covered y hy).tokens
      have tokens' := Entry.after_tokens w.scheduler.eosTokenIds w.scheduler.cfg.maxContext (some token) y seq
      have computed' := Entry.after_numComputed w.scheduler.eosTokenIds w.scheduler.cfg.maxContext (some token) y seq
      have promptLen := (Entry.after_fields w.scheduler.eosTokenIds w.scheduler.cfg.maxContext (some token) y seq).1
      have short := Nat.le_trans seq.promptLen_le seq.target_le
      rw [given] at one ⊢
      unfold Sequence.numGenerated at one
      simp only [Sequence.withBlocks_tokens, Sequence.withBlocks_promptLen, Sequence.withBlocks_numComputed,
        Sequence.withCached_tokens, Sequence.withCached_promptLen, Sequence.withCached_numComputed] at one ⊢
      rw [tokens', promptLen, Option.toList_some, List.length_append, List.length_singleton] at one ⊢
      rw [computed']
      unfold Entry.samples Entry.stop Sequence.totalLen at samples
      unfold Entry.stop at covered
      rw [← known, ← computed] at samples covered
      have samples := of_decide_eq_true samples
      omega

theorem Standing.fork (h : Standing base w) (fits : Committable base) {parent : SeqId} {tokens : List Token}
    (seeds : w.Seeds (.fork parent tokens)) (e : w.fork parent tokens = some w') : Standing base w' := by
  have seeds := seeds parent tokens rfl
  unfold World.fork at e
  split at e
  · cases e
  · rename_i leads
    rw [not_not] at leads
    have first := h.leaders parent leads
    have lineage := fork_lineage h.sound.queued parent tokens.length
    obtain ⟨extra, balanced⟩ := h.sound.balanced
    rcases forked : w.scheduler.fork parent tokens.length with ⟨t, err | fork⟩
    · rw [forked] at e seeds lineage
      obtain rfl := Option.some.inj e
      change t.seqs = w.scheduler.seqs at seeds
      obtain ⟨-, extra', balanced'⟩ := fork_balanced balanced parent tokens.length
      have exclusive := fork_exclusive balanced h.sound.exclusive parent tokens.length
      rw [forked] at balanced' exclusive
      have cfg : t.cfg = w.scheduler.cfg := balanced'.setup.cfg.trans h.sound.setup.cfg.symm
      refine ⟨⟨⟨extra', balanced'⟩, h.sound.regular.lineage lineage, exclusive, ?_, ?_⟩, fun plan flying => ?_,
        fun id lead => Nat.lt_of_lt_of_le (h.led id (List.mem_of_mem_erase lead)) lineage.nextId,
        fun id lead seq live => ?_⟩
      · exact h.sound.seqs.of_flown cfg fun id => .inl (congrFun seeds id)
      · exact h.sound.roomy.of_flown cfg fun id => .inl (congrFun seeds id)
      · obtain ⟨es, f⟩ := h.flight plan flying
        exact ⟨es, f.of_seqs cfg lineage.nextId fun id _ => .inl (congrFun seeds id)⟩
      · exact h.leaders id (List.mem_of_mem_erase lead) seq (seeds ▸ live)
    · rw [forked] at e seeds
      obtain rfl := Option.some.inj e
      have sound := h.sound.fork fits.size fits.same (fun seq live => (first seq live).1) forked seeds
      obtain ⟨old, nextId⟩ := fork_old h.sound.balanced forked seeds
      have cfg := sound.setup.cfg.trans h.sound.setup.cfg.symm
      refine ⟨sound, fun plan flying => ?_,
        fun id lead => Nat.lt_of_lt_of_le (h.led id (List.mem_of_mem_erase lead)) nextId,
        fun id lead seq live => ?_⟩
      · obtain ⟨es, f⟩ := h.flight plan flying
        exact ⟨es, f.of_seqs cfg nextId fun id lt => .inl (old id lt)⟩
      · have lead := List.mem_of_mem_erase lead
        exact h.leaders id lead seq (old id (h.led id lead) ▸ live)

theorem Standing.step (h : Standing base w) (fits : Committable base) {e : Event} (seeds : w.Seeds e)
    (step : w.Step kernel e w') : Standing base w' := by
  unfold World.Step World.exec at step
  cases e with
  | admitRequest requestId prompt params tenant =>
    obtain rfl := Option.some.inj step
    have lineage := admit_lineage h.sound.queued requestId prompt params tenant
    refine h.setScheduler (h.sound.admitted requestId prompt params tenant) lineage.nextId fun id lt => .inl ?_
    unfold Scheduler.admitRequest
    split
    · rfl
    · split
      · rfl
      · exact Function.update_of_ne (Nat.ne_of_lt lt) ..
  | schedule => exact h.schedule fits step
  | commit sampled => exact h.commit step
  | fork parent tokens => exact h.fork fits seeds step
  | cancel requestId =>
    obtain rfl := Option.some.inj step
    exact h.setScheduler (h.sound.cancel requestId) (cancel_lineage h.sound.queued requestId).nextId
      fun id _ => (cancel_flown w.scheduler requestId id).imp_right .inr
  | finishWith id reason =>
    obtain rfl := Option.some.inj step
    exact h.setScheduler (h.sound.finish id reason) (finish_lineage h.sound.queued id reason).nextId
      fun x _ => (finish_flown w.scheduler id reason x).imp_right .inr
  | drainFinished =>
    obtain rfl := Option.some.inj step
    exact h.setScheduler h.sound.drainFinished (drainFinished_lineage h.sound.queued).nextId
      fun x _ => (drainFinished_flown w.scheduler x).imp_right .inl

omit [DecidableEq H] in
theorem new_standing (cfg : SchedulerConfig) (n watermark : Nat) (ns : CacheNamespace B) (eos : List Token) :
    Standing (Scheduler.new cfg (BlockPool.new n cfg.blockSize watermark) ns eos)
      (World.new (Scheduler.new cfg (BlockPool.new n cfg.blockSize watermark) ns eos) : World B KV) :=
  ⟨⟨⟨_, new_balanced cfg n cfg.blockSize watermark ns eos⟩, ⟨by simp [World.new, Scheduler.new],
    by simp [World.new, Scheduler.new]⟩, by simp [World.new, Exclusive, Scheduler.new],
    by simp [World.new, SeqsOk, Scheduler.new], by simp [World.new, Roomy, Scheduler.new]⟩,
    by simp [World.new], by simp [World.new], by simp [World.new]⟩

/-- An engine that forks with room for the children, or not at all, stands. -/
theorem run_standing {cfg : SchedulerConfig} {n watermark : Nat} {ns : CacheNamespace B} {eos : List Token}
    (fits : Committable (Scheduler.new cfg (BlockPool.new n cfg.blockSize watermark) ns eos)) {es : List Event}
    (run : Run (Guarded World.Seeds (World.Step kernel))
      (World.new (Scheduler.new cfg (BlockPool.new n cfg.blockSize watermark) ns eos)) es w) :
    Standing (Scheduler.new cfg (BlockPool.new n cfg.blockSize watermark) ns eos) w :=
  run.invariant (Standing _) (new_standing cfg n watermark ns eos)
    fun _ _ _ h step => h.step fits step.1 step.2

end Steps

end Vapi.Engine
