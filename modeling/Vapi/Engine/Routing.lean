import Vapi.Engine.Standing

/-!
# Whose row is whose

The rows of a batch add up sequence by sequence, the rows to sample are the last
ones of the sequences sampled, in their order, and a commit gives each token to
the sequence whose row it was drawn from.
-/

namespace Vapi.Engine

open Vapi.Cache
open Transition (Run Guarded)

/-- How many tokens of its `i`th sequence a plan has, as a commit reads it. -/
def StepPlan.chunk (plan : StepPlan) (i : Nat) : Nat :=
  (plan.batch.cuSeqlensQ.getD (i + 1) 0 - plan.batch.cuSeqlensQ.getD i 0).toNat

/-- The batch position at which the tokens of its `i`th sequence begin. -/
def StepPlan.first (plan : StepPlan) (i : Nat) : Nat := ((List.range i).map plan.chunk).sum

section Rows

variable {es : List Entry} {e : Entry}

/-- The rows to sample are the last rows of the entries to sample, in order. -/
theorem lastRows_getElem? {j : Nat} (n : Nat) (get : (es.filter Entry.samples)[j]? = some e) :
    ∃ i, es[i]? = some e ∧ (lastRows n es)[j]? = some (n + ((es.map Entry.q).take (i + 1)).sum - 1) := by
  induction es generalizing n j with
  | nil => simp at get
  | cons x es ih =>
    have later : ∀ {j : Nat}, (es.filter Entry.samples)[j]? = some e →
        ∃ i, (x :: es)[i]? = some e ∧
          (lastRows (n + x.q) es)[j]? = some (n + (((x :: es).map Entry.q).take (i + 1)).sum - 1) := by
      intro j get
      obtain ⟨i, entry, row⟩ := ih (n + x.q) get
      refine ⟨i + 1, entry, row.trans ?_⟩
      rw [List.map_cons, List.take_succ_cons, List.sum_cons, Nat.add_assoc]
    cases samples : x.samples with
    | false =>
      rw [List.filter_cons_of_neg (by simp [samples])] at get
      simpa [lastRows, samples] using later get
    | true =>
      rw [List.filter_cons_of_pos samples] at get
      cases j with
      | zero =>
        obtain rfl := Option.some.inj get
        exact ⟨0, rfl, by simp [lastRows, samples]⟩
      | succ j => simpa [lastRows, samples] using later get

theorem lastRows_length (n : Nat) (es : List Entry) : (lastRows n es).length = (es.filter Entry.samples).length := by
  induction es generalizing n with
  | nil => rfl
  | cons x es ih => cases samples : x.samples <;> simp [lastRows, samples, ih]

/-- What is sampled for one of several different sequences. -/
theorem lookup_zip_at {α β : Type} [BEq α] [LawfulBEq α] {ids : List α} {tokens : List β} {j : Nat} {id : α}
    {token : β} (nodup : ids.Nodup) (at_ : ids[j]? = some id) (drawn : tokens[j]? = some token) :
    (ids.zip tokens).lookup id = some token := by
  induction ids generalizing tokens j with
  | nil => simp at at_
  | cons x ids ih =>
    obtain ⟨out, nodup⟩ := List.nodup_cons.mp nodup
    cases tokens with
    | nil => simp at drawn
    | cons y tokens =>
      cases j with
      | zero =>
        obtain rfl := Option.some.inj at_
        obtain rfl := Option.some.inj drawn
        simp
      | succ j =>
        have other : (id == x) = false := by
          rw [beq_eq_false_iff_ne]
          rintro rfl
          exact out (List.mem_of_getElem? at_)
        rw [List.zip_cons_cons, List.lookup_cons, other]
        exact ih nodup at_ drawn

end Rows

variable {H : Type} {B : Blake3 H} {KV : Type}

section Flights

variable {s : Scheduler B} {plan : StepPlan} {es : List Entry}

theorem Flight.chunk (f : Flight s plan es) {i : Nat} {e : Entry} (get : es[i]? = some e) : plan.chunk i = e.q := by
  unfold StepPlan.chunk
  rw [f.cuSeqlensQ]
  exact cumulative_sub f.fits get

theorem Flight.first (f : Flight s plan es) {i : Nat} (le : i ≤ es.length) :
    plan.first i = ((es.map Entry.q).take i).sum := by
  induction i with
  | zero => rfl
  | succ i ih =>
    have get := List.getElem?_eq_getElem (Nat.lt_of_succ_le le)
    have before := ih (Nat.le_of_succ_le le)
    unfold StepPlan.first at before ⊢
    rw [List.range_succ, List.map_append, List.sum_append, before, List.take_add_one, List.getElem?_map, get,
      List.sum_append, List.map_singleton, List.sum_singleton, f.chunk get]
    simp

theorem Flight.entry (f : Flight s plan es) {i : Nat} {id : SeqId} (at_ : plan.batchSeqs[i]? = some id) :
    ∃ e, es[i]? = some e ∧ e.id = id := by
  rw [f.batchSeqs, List.getElem?_map] at at_
  exact Option.map_eq_some_iff.mp at_

end Flights

/-- A plan within its limits that has each sequence once, whose tokens are the
next ones of its sequences, and whose rows to sample are the last rows of those
that come to their last token. -/
structure Routed (cfg : SchedulerConfig) (t : Scheduler B) (plan : StepPlan) : Prop where
  budget : plan.batch.tokens.length ≤ cfg.maxBatchedTokens
  once : plan.batchSeqs.Nodup
  covers : plan.first plan.batchSeqs.length = plan.batch.tokens.length
  chunk : ∀ i id, plan.batchSeqs[i]? = some id → ∃ seq, t.seqs id = some seq ∧ 0 < plan.chunk i ∧
    (seq.needsPrefill = true → plan.chunk i ≤ cfg.prefillChunkTokens) ∧
    (seq.needsPrefill = false → plan.chunk i = 1) ∧
    ∀ k, k < plan.chunk i → plan.batch.tokens[plan.first i + k]? = seq.tokens[seq.numComputed + k]?
  sampled : ∀ id, id ∈ plan.sampledSeqs ↔ ∃ i seq, plan.batchSeqs[i]? = some id ∧ t.seqs id = some seq ∧
    seq.tokens.length ≤ seq.numComputed + plan.chunk i
  rows : plan.batch.logitsIndices.length = plan.sampledSeqs.length
  logits : ∀ (j : Nat) (id : SeqId), plan.sampledSeqs[j]? = some id →
    ∃ (i : Nat) (row : UInt32), plan.batchSeqs[i]? = some id ∧ plan.batch.logitsIndices[j]? = some row ∧
      row.toNat + 1 = plan.first (i + 1)

/-- A commit moves each sequence of the plan on by its chunk, gives each sampled
one its own token, and leaves what runs with something known to compute, or with
its last token alone. -/
structure Advances (s : Scheduler B) (plan : StepPlan) (tokens : List Token) (u : Scheduler B) : Prop where
  computed : ∀ i id seq, plan.batchSeqs[i]? = some id → s.seqs id = some seq →
    ∃ seq', u.seqs id = some seq' ∧ seq'.numComputed = seq.numComputed + plan.chunk i
  given : ∀ (j : Nat) (id : SeqId) (token : Token) seq, plan.sampledSeqs[j]? = some id → tokens[j]? = some token →
    s.seqs id = some seq → ∃ seq', u.seqs id = some seq' ∧ seq'.tokens = seq.tokens ++ [token]
  kept : ∀ id seq, id ∉ plan.sampledSeqs → s.seqs id = some seq →
    ∃ seq', u.seqs id = some seq' ∧ seq'.tokens = seq.tokens
  others : ∀ id, id ∉ plan.batchSeqs → u.seqs id = s.seqs id
  left : ∀ id, id ∈ u.running → ∃ seq, u.seqs id = some seq ∧
    (seq.needsPrefill = true ∨ seq.numComputed + 1 = seq.tokens.length)

section Plans

variable {base s t u : Scheduler B} {plan : StepPlan} {es : List Entry}

/-- The tokens of an entry lie where its offset says. -/
theorem batchOf_tokens_at {bs i k : Nat} {e : Entry} (get : es[i]? = some e) (lt : k < e.q) :
    (batchOf bs es).tokens[((es.map Entry.q).take i).sum + k]? = some (e.seq.tokens.getD (e.start + k) 0) := by
  have lens : ((es.take i).map fun e => (e.positions.map fun i => e.seq.tokens.getD i 0).length) =
      (es.map Entry.q).take i := by
    rw [← List.map_take]
    exact List.map_congr_left fun e _ => by simp
  have piece := Ragged.flatMap_getElem? (f := fun e : Entry => e.positions.map fun i => e.seq.tokens.getD i 0) get
    (k := k) (by simpa using lt)
  rw [lens] at piece
  refine piece.trans ?_
  rw [List.getElem?_map, Entry.positions, List.getElem?_range' lt]
  simp

theorem Scheduled.routed (h : Scheduled base s t plan es) (f : Flight t plan es) : Routed s.cfg t plan := by
  obtain ⟨core, planFor, rfl⟩ := h.planFor
  have batch : core.measured.batch.tokens = (batchOf t.cfg.blockSize es).tokens := by
    change core.batch.tokens = _
    rw [planFor.batch]
  have logits : core.measured.batch.logitsIndices = (lastRows 0 es).map UInt32.ofNat := by
    change core.batch.logitsIndices = _
    rw [planFor.batch]
    rfl
  have count : core.measured.batchSeqs.length = es.length := by
    rw [f.batchSeqs, List.length_map]
  have total : core.measured.batch.tokens.length = (es.map Entry.q).sum := by
    rw [batch, batchOf_tokens_length]
  have entry : ∀ {i : Nat} {e : Entry}, es[i]? = some e → core.measured.batchSeqs[i]? = some e.id :=
    fun get => by rw [f.batchSeqs, List.getElem?_map, get]; rfl
  refine ⟨total ▸ h.budget, f.batchSeqs ▸ f.nodup, ?_, fun i id at_ => ?_, fun id => ⟨fun mem => ?_, ?_⟩, ?_,
    fun j id at_ => ?_⟩
  · rw [count, f.first (Nat.le_refl _), total, ← List.length_map (f := Entry.q), List.take_length]
  · obtain ⟨e, get, rfl⟩ := f.entry at_
    have mem := List.mem_of_getElem? get
    have covered := planFor.covered e mem
    have limited := h.limited e mem
    refine ⟨e.seq, planFor.current e mem, ?_⟩
    rw [f.chunk get, f.first (Nat.le_of_lt (List.getElem?_eq_some_iff.mp get).1), batch]
    refine ⟨covered.pos, limited.prefill, limited.decode, fun k lt => ?_⟩
    have within : e.start + k < e.seq.tokens.length :=
      Nat.lt_of_lt_of_le (Nat.add_lt_add_left lt _) covered.tokens
    rw [batchOf_tokens_at get lt, List.getD_eq_getElem?_getD, List.getElem?_eq_getElem within]
    exact (List.getElem?_eq_getElem within).symm
  · rw [f.sampledSeqs] at mem
    obtain ⟨e, he, rfl⟩ := List.mem_map.mp mem
    obtain ⟨mem, samples⟩ := List.mem_filter.mp he
    obtain ⟨i, get⟩ := List.mem_iff_getElem?.mp mem
    exact ⟨i, e.seq, entry get, planFor.current e mem, f.chunk get ▸ of_decide_eq_true samples⟩
  · rintro ⟨i, seq, at_, live, reached⟩
    obtain ⟨e, get, rfl⟩ := f.entry at_
    have mem := List.mem_of_getElem? get
    obtain rfl := Option.some.inj ((planFor.current e mem).symm.trans live)
    rw [f.chunk get] at reached
    rw [f.sampledSeqs]
    exact List.mem_map_of_mem (List.mem_filter.mpr ⟨mem, decide_eq_true reached⟩)
  · rw [logits, f.sampledSeqs, List.length_map, List.length_map, lastRows_length]
  · rw [f.sampledSeqs, List.getElem?_map] at at_
    obtain ⟨e, get, rfl⟩ := Option.map_eq_some_iff.mp at_
    obtain ⟨i, place, row⟩ := lastRows_getElem? 0 get
    have lt := (List.getElem?_eq_some_iff.mp place).1
    have pos := (planFor.covered e (List.mem_of_getElem? place)).pos
    have next : ((es.map Entry.q).take (i + 1)).sum = ((es.map Entry.q).take i).sum + e.q := by
      rw [List.take_add_one, List.getElem?_map, place]
      simp
    have le := Ragged.take_sum_le (es.map Entry.q) (i + 1)
    have fits := f.fits
    refine ⟨i, _, entry place, by rw [logits, List.getElem?_map, row]; rfl, ?_⟩
    rw [f.first (Nat.succ_le_of_lt lt), Nat.succ_eq_add_one, toNat_ofNat (by omega)]
    omega

variable [DecidableEq H] {tokens : List Token}

theorem Sound.advances (h : Sound base s) (f : Flight s plan es) (enough : tokens.length = plan.sampledSeqs.length)
    (e : s.commit plan tokens = some u) : Advances s plan tokens u := by
  have after := h.commit f enough e
  obtain ⟨others, batched⟩ := commit_seqs f e
  have entered : ∀ {x : Entry}, x ∈ es → ∀ {seq : Sequence}, s.seqs x.id = some seq →
      ∃ seq', u.seqs x.id = some seq' ∧ seq'.numComputed = seq.numComputed + x.q ∧
        seq'.tokens = seq.tokens ++ (tokenFor es tokens x.id).toList := by
    intro x hx seq live
    obtain ⟨seq', live', n, blocks, -, rfl⟩ := batched x hx seq live
    exact ⟨_, live', Entry.after_numComputed _ _ _ x seq, Entry.after_tokens _ _ _ x seq⟩
  refine ⟨fun i id seq at_ live => ?_, fun j id token seq at_ drawn live => ?_, fun id seq out live => ?_,
    fun id out => ?_, fun id run => ?_⟩
  · obtain ⟨x, get, rfl⟩ := f.entry at_
    obtain ⟨seq', live', computed, -⟩ := entered (List.mem_of_getElem? get) live
    exact ⟨seq', live', f.chunk get ▸ computed⟩
  · have mem := List.mem_of_getElem? at_
    rw [f.sampledSeqs] at mem at_
    obtain ⟨x, hx, rfl⟩ := List.mem_map.mp mem
    obtain ⟨seq', live', -, tokens'⟩ := entered (List.mem_of_mem_filter hx) live
    have token_ : tokenFor es tokens x.id = some token :=
      lookup_zip_at (f.nodup.sublist (List.filter_sublist.map _)) at_ drawn
    rw [token_] at tokens'
    exact ⟨seq', live', tokens'⟩
  · by_cases here : ∃ x ∈ es, x.id = id
    · obtain ⟨x, hx, rfl⟩ := here
      obtain ⟨seq', live', -, tokens'⟩ := entered hx live
      have none_ : tokenFor es tokens x.id = none := tokenFor_none fun y hy same => by
        by_contra samples
        refine out (f.sampledSeqs ▸ ?_)
        exact List.mem_map.mpr ⟨y, List.mem_filter.mpr ⟨hy, by simpa using samples⟩, same⟩
      rw [none_, Option.toList_none, List.append_nil] at tokens'
      exact ⟨seq', live', tokens'⟩
    · exact ⟨seq, (others id (.inr fun x hx same => here ⟨x, hx, same⟩)).trans live, rfl⟩
  · refine others id (.inr fun x hx same => out ?_)
    rw [f.batchSeqs]
    exact List.mem_map.mpr ⟨x, hx, same⟩
  · obtain ⟨seq, live, place⟩ := after.queued.running run
    obtain ⟨lt, -, left⟩ := (after.seqs id seq live).running place
    refine ⟨seq, live, left.imp (fun known => ?_) (·.2)⟩
    exact decide_eq_true (Nat.sub_pos_of_lt (known ▸ lt))

end Plans

section Runs

variable [DecidableEq H]

/-- Wherever the calls of an engine lead, the next schedule makes a plan that is
routed, and committing the one in flight with a token for each sequence sampled
advances its sequences. -/
theorem plans_routed {cfg : SchedulerConfig} {n watermark : Nat} {ns : CacheNamespace B} {eos : List Token}
    {kernel : Kernel KV} {es : List Event} {w : World B KV} (size : 0 < cfg.blockSize)
    (count : cfg.maxBatchedTokens < 2 ^ 32)
    (run : Run (Guarded World.Seeds (World.Step kernel))
      (World.new (Scheduler.new cfg (BlockPool.new n cfg.blockSize watermark) ns eos)) es w) :
    (∃ t plan, w.scheduler.schedule = some (t, plan) ∧ Routed cfg t plan) ∧
    ∀ plan tokens, w.inFlight = some plan → tokens.length = plan.sampledSeqs.length →
      ∃ u, w.scheduler.commit plan tokens = some u ∧ Advances w.scheduler plan tokens u := by
  have base : Committable (Scheduler.new cfg (BlockPool.new n cfg.blockSize watermark) ns eos) := by
    refine ⟨size, (new_fields n cfg.blockSize watermark).2.1, fun s t plan es same made => ?_⟩
    have budget := made.budget
    rw [same] at budget
    exact made.flies (Nat.lt_of_le_of_lt budget count)
  have standing := run_standing base run
  have same := standing.sound.setup.cfg
  refine ⟨?_, fun plan tokens flying enough => ?_⟩
  · obtain ⟨t, plan, es, scheduled, made⟩ := schedule_sound base.size base.same standing.sound
    have routed := made.routed (base.flight _ _ _ _ same made)
    rw [same] at routed
    exact ⟨t, plan, scheduled, routed⟩
  · obtain ⟨es, f⟩ := standing.flight plan flying
    obtain ⟨u, committed⟩ := commit_total f
    exact ⟨u, committed, standing.sound.advances f enough committed⟩

/-- Two prompts, one of them longer than a chunk, side by side. -/
theorem plans_routed_two :
    ∃ w t plan, Run (Guarded World.Seeds (World.Step fun _ _ row => row.token))
      (World.new (Scheduler.fresh { blockSize := 4, prefillChunkTokens := 2, prefixCache := false } 4 0))
        [.admitRequest ⟨"r"⟩ [1] {} "global", .admitRequest ⟨"s"⟩ [2, 3, 4] {} "global"] w ∧
      w.scheduler.schedule = some (t, plan) ∧
      Routed { blockSize := 4, prefillChunkTokens := 2, prefixCache := false } t plan := by
  have run : Run (Guarded World.Seeds (World.Step fun _ _ row => row.token))
      (World.new (Scheduler.fresh { blockSize := 4, prefillChunkTokens := 2, prefixCache := false } 4 0))
        [.admitRequest ⟨"r"⟩ [1] {} "global", .admitRequest ⟨"s"⟩ [2, 3, 4] {} "global"] _ :=
    runs_calm rfl (by simp [World.Seeds])
  obtain ⟨t, plan, scheduled, routed⟩ := (plans_routed (by decide) (by decide) run).1
  exact ⟨_, t, plan, run, scheduled, routed⟩

end Runs

section Example

/-- One block, of twice as many tokens as a batch may have. -/
def wide (n : Nat) : SchedulerConfig :=
  { maxBatchedTokens := n, prefillChunkTokens := n, maxContext := 2 * n, blockSize := 2 * n, prefixCache := false }

def wholeSeq (ts : List Token) : Sequence := .new ⟨"r"⟩ ts {} "global"

/-- A prompt waits. -/
def wholeWaiting (ts : List Token) : Scheduler Blake3.identity :=
  ((Scheduler.fresh (wide ts.length) 1 0).register (wholeSeq ts)).setWaiting [0]

/-- It has started, all of it in one chunk. -/
def wholeEntry (ts : List Token) : Entry := ⟨0, (wholeSeq ts).startOn [] 0 [0], ts.length⟩

def wholeStarted (ts : List Token) : Scheduler Blake3.identity :=
  ((((wholeWaiting ts).setWaiting []).setPool
    (takeBlocks BlockPool.allocate 1 (Scheduler.fresh (wide ts.length) 1 0).pool).1).setSeq 0
      (wholeEntry ts).seq).setRunning [0]

/-- The plan it is in. -/
def wholePlan (ts : List Token) : StepPlan where
  batch := batchOf (2 * ts.length) [wholeEntry ts]
  batchSeqs := [0]
  sampledSeqs := [0]
  started := [(0, 0)]

variable {ts : List Token}

theorem whole_covered (some_ : ts ≠ []) : (wholeEntry ts).Covered (2 * ts.length) where
  pos := List.length_pos_iff.mpr some_
  tokens := Nat.le_of_eq (Nat.zero_add _)
  blocks := by
    change 0 + ts.length ≤ 1 * (2 * ts.length)
    omega

/-- A block holds this many tokens. -/
theorem one_block {n k : Nat} (pos : 0 < k) (le : k ≤ 2 * n) : (k + 2 * n - 1) / (2 * n) = 1 := by
  refine Nat.div_eq_of_lt_le ?_ ?_ <;> omega

theorem whole_admitted (some_ : ts ≠ []) :
    ((Scheduler.fresh (wide ts.length) 1 0).admitRequest ⟨"r"⟩ ts {} "global").1 = wholeWaiting ts := by
  have fits : ¬(Scheduler.fresh (wide ts.length) 1 0).cfg.maxContext ≤ ts.length := by
    change ¬2 * ts.length ≤ ts.length
    have := List.length_pos_iff.mpr some_
    omega
  unfold Scheduler.admitRequest
  rw [if_neg some_, if_neg fits]
  rfl

theorem whole_started (some_ : ts ≠ []) :
    ∃ s, ((wholeWaiting ts).setWaiting []).tryStart 0 = some (s, true) ∧ s.running = [] ∧
      s.setRunning [0] = wholeStarted ts := by
  have live : ((wholeWaiting ts).setWaiting []).seqs 0 = some (wholeSeq ts) := rfl
  have hit : ((wholeWaiting ts).setWaiting []).matchCached
      (((wholeWaiting ts).setWaiting []).nsFor (wholeSeq ts).tenant) (wholeSeq ts) =
      ((Scheduler.fresh (wide ts.length) 1 0).pool, [], 0) := rfl
  have pos := List.length_pos_iff.mpr some_
  have need : (Scheduler.fresh (wide ts.length) 1 0).pool.blocksFor ((wholeSeq ts).prefillTarget + 1) -
      ([] : List BlockId).length = 1 := one_block (Nat.succ_pos _) (show ts.length + 1 ≤ 2 * ts.length by omega)
  exact ⟨_, (tryStart_eq live hit).2 _ _ (by rw [need]; rfl) (by rw [need]; rfl), rfl, rfl⟩

theorem whole_chunk (some_ : ts ≠ []) :
    Pass.prefillChunk ⟨wholeStarted ts, { started := [(0, 0)] }, ts.length⟩ 0 =
      some ⟨wholeStarted ts, wholePlan ts, 0⟩ := by
  have pos := List.length_pos_iff.mpr some_
  have live : (wholeStarted ts).seqs 0 = some (wholeEntry ts).seq := rfl
  have whole : min (min (wholeEntry ts).seq.remainingPrefill (wholeStarted ts).cfg.prefillChunkTokens) ts.length =
      ts.length := by
    change min (min (ts.length - 0) ts.length) ts.length = ts.length
    omega
  have unchanged : (wholeStarted ts).setSeq 0 (wholeEntry ts).seq = wholeStarted ts := by
    unfold Scheduler.setSeq
    rw [← live, Function.update_eq_self]
  have extended : (wholeStarted ts).tryExtend 0 ts.length = some (wholeStarted ts, true) := by
    have enough : (wholeStarted ts).pool.blocksFor ((wholeEntry ts).seq.numComputed + ts.length) -
        (wholeEntry ts).seq.blocks.length = 0 :=
      Nat.sub_eq_zero_of_le (Nat.le_of_eq (one_block (by omega) (show 0 + ts.length ≤ _ by omega)))
    unfold Scheduler.tryExtend
    rw [live]
    simp only [Option.bind_eq_bind, Option.bind_some, enough, takeBlocks, Option.isNone_none]
    exact congrArg (fun s => some (s, true)) unchanged
  have added : StepPlan.pushSeq { started := [(0, 0)] } 0 (wholeEntry ts).seq ts.length
      (wholeStarted ts).cfg.blockSize = some (wholePlan ts) := by
    have reaches : (wholeEntry ts).seq.totalLen ≤ (wholeEntry ts).seq.numComputed + ts.length :=
      Nat.le_of_eq (Nat.zero_add _).symm
    have pushed : (batchOf (2 * ts.length) []).pushSeq (wholeEntry ts).seq (wholeEntry ts).q
        (wholeStarted ts).cfg.blockSize = some (batchOf (2 * ts.length) [wholeEntry ts]) :=
      pushSeq_batchOf [] (by omega) (whole_covered some_)
    unfold StepPlan.pushSeq
    change Option.bind ((batchOf (2 * ts.length) []).pushSeq (wholeEntry ts).seq (wholeEntry ts).q _) _ = _
    rw [pushed, Option.bind_some, if_pos reaches]
    rfl
  have some_ : ¬ts.length = 0 := by omega
  unfold Pass.prefillChunk
  simp only [live, Option.bind_eq_bind, Option.bind_some, whole, some_, if_false, Pass.extendOrPreempt, extended,
    Pass.setScheduler, if_true, Pass.pushSeqIntoBatch, added, Nat.sub_self]

theorem whole_scheduled (some_ : ts ≠ []) :
    (wholeWaiting ts).schedule = some (wholeStarted ts, (wholePlan ts).measured) := by
  have pos := List.length_pos_iff.mpr some_
  have decoded : Pass.scheduleDecodes ⟨wholeWaiting ts, {}, ts.length⟩ = some ⟨wholeWaiting ts, {}, ts.length⟩ := rfl
  have loop : Pass.startLoop 2 ⟨wholeWaiting ts, {}, ts.length⟩ = some ⟨wholeStarted ts, wholePlan ts, 0⟩ := by
    obtain ⟨s, started, queue, running⟩ := whole_started some_
    have live : s.seqs 0 = some (wholeEntry ts).seq := congrArg (fun s => s.seqs 0) running
    have open_ : ¬(ts.length = 0 ∨ 64 ≤ 0) := by omega
    have rest : Pass.startLoop 1 ⟨wholeStarted ts, wholePlan ts, 0⟩ = some ⟨wholeStarted ts, wholePlan ts, 0⟩ := rfl
    refine (if_neg open_).trans ?_
    change Option.bind (((wholeWaiting ts).setWaiting []).tryStart 0) _ = _
    rw [started, Option.bind_some]
    simp only [not_true_eq_false, if_false, live, Option.bind_eq_bind, Option.bind_some]
    rw [queue]
    change Option.bind (Pass.prefillChunk ⟨s.setRunning [0], { started := [(0, 0)] }, ts.length⟩ 0) _ = _
    rw [running, whole_chunk some_, Option.bind_some]
    exact rest
  unfold Scheduler.schedule
  change Option.bind (Pass.scheduleDecodes ⟨wholeWaiting ts, {}, ts.length⟩) _ = _
  rw [decoded, Option.bind_some]
  have prefilled : Pass.schedulePrefills ⟨wholeWaiting ts, {}, ts.length⟩ =
      some ⟨wholeStarted ts, wholePlan ts, 0⟩ := loop
  change Option.bind (Pass.schedulePrefills ⟨wholeWaiting ts, {}, ts.length⟩) _ = _
  rw [prefilled]
  rfl

/-- A chunk that is none as a 32-bit number: all of it is batched, and
committing it computes nothing. -/
theorem whole_lost (some_ : ts ≠ []) (lost : UInt32.ofNat (0 + ts.length) = 0) :
    ∃ w plan u, Run (Guarded World.Seeds (World.Step fun _ _ row => row.token))
        (World.new (Scheduler.fresh (wide ts.length) 1 0)) [.admitRequest ⟨"r"⟩ ts {} "global", .schedule] w ∧
      w.inFlight = some plan ∧ plan.batchSeqs = [0] ∧ plan.batch.tokens.length = ts.length ∧
      w.scheduler.commit plan [7] = some u ∧ (w.scheduler.seqs 0).map Sequence.numComputed = some 0 ∧
      (u.seqs 0).map Sequence.numComputed = some 0 := by
  have lengths : (wholePlan ts).batch.cuSeqlensQ = [0, 0] := by
    change [UInt32.ofNat 0, UInt32.ofNat (0 + ts.length)] = [0, 0]
    rw [lost]
    rfl
  have admitted : (World.new (Scheduler.fresh (wide ts.length) 1 0) : World Blake3.identity Token).setScheduler
      ((Scheduler.fresh (wide ts.length) 1 0).admitRequest ⟨"r"⟩ ts {} "global").1 = .new (wholeWaiting ts) := by
    rw [whole_admitted some_]
    rfl
  have scheduled : (World.new (wholeWaiting ts)).schedule (fun _ _ row => row.token) =
      some ⟨wholeStarted ts, forward (fun _ _ row => row.token) (wholeStarted ts) (wholePlan ts).measured.rows
        fun _ _ => none, some (wholePlan ts).measured, []⟩ := by
    unfold World.schedule
    change Option.bind (wholeWaiting ts).schedule _ = _
    rw [whole_scheduled some_]
    rfl
  have calm : ∀ (e : Event) (w : World Blake3.identity Token),
      e ∈ [Event.admitRequest ⟨"r"⟩ ts {} "global", .schedule] → w.Seeds e := by
    intro e w mem parent tokens same
    subst same
    simp at mem
  refine ⟨_, (wholePlan ts).measured, ((wholeStarted ts).advanceOne 0 0).pushSampled 0 7,
    (Run.nil.snoc ⟨calm _ _ (by simp), congrArg some admitted⟩).snoc ⟨calm _ _ (by simp), scheduled⟩,
    rfl, rfl, ?_, ?_, rfl, ?_⟩
  · change (wholePlan ts).batch.tokens.length = ts.length
    rw [wholePlan, batchOf_tokens_length]
    rfl
  · unfold Scheduler.commit
    change Option.bind (Scheduler.advanceLoop [0] (wholePlan ts).batch.cuSeqlensQ (wholeStarted ts)) _ = _
    rw [lengths]
    refine (Option.bind_some ..).trans (if_neg ?_)
    have cfg := (pushSampled_fixed ((wholeStarted ts).advanceOne 0 0) 0 7 (s := wholeStarted ts) ⟨rfl, rfl⟩).1
    change ¬(((wholeStarted ts).advanceOne 0 0).pushSampled 0 7).cfg.prefixCache = true
    rw [cfg]
    exact Bool.false_ne_true
  · rw [pushSampled_seqs, Function.update_self, advanceOne_seqs, Function.update_self]
    change some (Sequence.numComputed (((wholeEntry ts).seq.advanced 0).sampled _ _ 7)) = some 0
    rw [(Sequence.sampled_eq ..).2.2.1, (Sequence.advanced_eq ..).2.2.1]
    rfl

/-- All of 2^32 tokens. -/
def longPrompt : List Token := List.replicate (2 ^ 32) 1

theorem long_chunk_lost :
    ∃ w plan u, Run (Guarded World.Seeds (World.Step fun _ _ row => row.token))
        (World.new (Scheduler.fresh (wide longPrompt.length) 1 0))
        [.admitRequest ⟨"r"⟩ longPrompt {} "global", .schedule] w ∧
      w.inFlight = some plan ∧ plan.batchSeqs = [0] ∧ plan.batch.tokens.length = longPrompt.length ∧
      w.scheduler.commit plan [7] = some u ∧ (w.scheduler.seqs 0).map Sequence.numComputed = some 0 ∧
      (u.seqs 0).map Sequence.numComputed = some 0 := by
  have len : longPrompt.length = 2 ^ 32 := List.length_replicate
  refine whole_lost (fun none_ => ?_) ?_
  · rw [none_] at len
    cases len
  · rw [len]
    rfl

end Example

end Vapi.Engine
