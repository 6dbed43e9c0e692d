import Vapi.Engine.Adopted

/-!
# Who published what a sequence starts on

Along a run of the engine and its spill tier every hash that names a block,
waits to be exported or is in the store was in the store from the start, or
was published in a commit. Where the hash function does not collide, the
commit that published a cached prefix was of a sequence with its tenant and
its tokens.
-/

namespace Vapi.Engine

open Vapi.Cache
open Transition (Run Done)

variable {H : Type} [DecidableEq H] {B : Blake3 H} {KV : Type}

/-- `P` is known of every hash that names a block, is still to be exported or is in the store. -/
structure Sourced (P : H → Prop) (w : Tiered B KV) : Prop where
  named : ∀ k b, w.pool.byHash k = some b → P k
  owed : ∀ x ∈ w.pool.evictedContent, P x.1
  stored : ∀ store, w.spill = some store → ∀ k bytes, store.Holds k bytes → P k

section Tiers

variable {P Q : H → Prop} {w : Tiered B KV}

omit [DecidableEq H] in
theorem Sourced.mono (h : Sourced P w) (le : ∀ k, P k → Q k) : Sourced Q w where
  named k b named := le k (h.named k b named)
  owed x mem := le _ (h.owed x mem)
  stored store on k bytes held := le k (h.stored store on k bytes held)

omit [DecidableEq H] in
theorem Sourced.kept (h : Sourced P w) (on : w.spill.isSome) (wf : Wf w.pool) : Kept (fun x => P x.1) w :=
  ⟨on, wf, h.stored, h.owed, h.named⟩

omit [DecidableEq H] in
theorem Kept.sourced (h : Kept (fun x => P x.1) w) : Sourced P w := ⟨h.named, h.owed, h.stored⟩

theorem Sourced.promoteFromSpill (h : Sourced P w) (wf : Wf w.pool) (prompt : List Token) :
    Sourced P (w.promoteFromSpill prompt) ∧ Rearranged w (w.promoteFromSpill prompt) ∧
      Wf (w.promoteFromSpill prompt).pool := by
  by_cases on : w.spill.isSome
  · obtain ⟨kept, moved⟩ := (h.kept on wf).promoteFromSpill prompt
    exact ⟨kept.sourced, moved, kept.wf⟩
  · have off : w.spill.isNone := by simpa using on
    rw [Tiered.promoteFromSpill, if_pos off]
    exact ⟨h, .refl w, wf⟩

theorem Sourced.spillEvicted (h : Sourced P w) (wf : Wf w.pool) :
    Sourced P w.spillEvicted ∧ Rearranged w w.spillEvicted ∧ Wf w.spillEvicted.pool := by
  by_cases on : w.spill.isSome
  · obtain ⟨kept, moved, -⟩ := (h.kept on wf).spillEvicted
    exact ⟨kept.sourced, moved, kept.wf⟩
  · have off : w.spill.isNone := by simpa using on
    rw [Tiered.spillEvicted, if_pos off]
    exact ⟨h, .refl w, wf⟩

omit [DecidableEq H] in
/-- A step that moves nothing between the tiers. -/
theorem Sourced.call (h : Sourced P w) {world : World B KV} (le : ∀ k, P k → Q k)
    (named : ∀ k b, world.scheduler.pool.byHash k = some b → w.pool.byHash k = some b ∨ Q k)
    (evicted : ∀ x ∈ world.scheduler.pool.evictedContent, x ∈ w.pool.evictedContent ∨ w.pool.byHash x.1 = some x.2) :
    Sourced Q (w.setWorld world) where
  named k b here := (named k b here).elim (fun before => le k (h.named k b before)) id
  owed x mem := le _ ((evicted x mem).elim (h.owed x) (h.named x.1 x.2))
  stored store on k bytes held := le k (h.stored store on k bytes held)

omit [DecidableEq H] in
theorem Sourced.fades (h : Sourced P w) {world : World B KV} (le : ∀ k, P k → Q k)
    (fades : Fades w.pool world.scheduler.pool) : Sourced Q (w.setWorld world) :=
  h.call le (fun k b named => .inl (fades.named k b named)) fades.evicted

omit [DecidableEq H] in
theorem Rearranged.regular {w' : Tiered B KV} (moved : Rearranged w w') (h : Regular w.world.scheduler) :
    Regular w'.world.scheduler := by
  rw [moved.world]
  exact ⟨h.prompts, h.memo⟩

end Tiers

section Steps

variable {base : Scheduler B} {kernel : Kernel KV} {P : H → Prop} {w w' : Tiered B KV} {e : Event}

/-- The step is a commit, and publishes a block under this hash. -/
def Publishing (k : H) (w : Tiered B KV) (e : Event) (w' : Tiered B KV) : Prop :=
  (∃ sampled, e = .commit sampled) ∧ Publishes k w.world.scheduler w'.world.scheduler

/-- The counts are right, the namespaces are the tenants', and what is known is known of every hash. -/
structure Accounted (base : Scheduler B) (P : H → Prop) (w : Tiered B KV) : Prop where
  balanced : ∃ extra, Balanced base w.world.scheduler extra
  regular : Regular w.world.scheduler
  sourced : Sourced P w

theorem calls_regular {s t : Scheduler B} {ls : List (Op × Outcome)} (run : Run Scheduler.Step s ls t) (q : Queued s)
    (regular : Regular s) : Regular t :=
  (run.invariant (fun s => Queued s ∧ Regular s) ⟨q, regular⟩
    fun _ _ _ h step => ⟨step_queued h.1 step, h.2.lineage (step_lineage h.1 step)⟩).2

/-- A step adds to what is known what it publishes. -/
theorem Accounted.step (size : 0 < base.cfg.blockSize) (h : Accounted base P w) (step : w.Step kernel e w') :
    Accounted base (fun k => P k ∨ Publishing k w e w') w' := by
  obtain ⟨⟨extra, bal⟩, regular, sourced⟩ := h
  -- a step of the engine proper
  have proper : (∀ world, w.world.exec kernel e = some world →
      Sourced (fun k => P k ∨ Publishing k w e (w.setWorld world)) (w.setWorld world)) →
      (w.world.exec kernel e).map w.setWorld = some w' → Accounted base (fun k => P k ∨ Publishing k w e w') w' := by
    intro known step
    obtain ⟨world, made, rfl⟩ := Option.map_eq_some_iff.mp step
    obtain ⟨ls, calls⟩ := World.calls bal made
    exact ⟨calls_balanced calls ⟨extra, bal⟩, calls_regular calls bal.queued regular, known world made⟩
  unfold Tiered.Step Tiered.exec at step
  cases e with
  | admitRequest requestId prompt params tenant =>
    obtain rfl := Option.some.inj step
    obtain ⟨promoted, moved, wf⟩ := sourced.promoteFromSpill bal.wf prompt
    have bal' := moved.balanced wf bal
    refine ⟨⟨_, admit_balanced bal' requestId prompt params tenant⟩, ?_, ?_⟩
    · exact (moved.regular regular).lineage (admit_lineage bal'.queued requestId prompt params tenant)
    · exact promoted.fades (fun k => .inl) (admit_fades _ requestId prompt params tenant)
  | schedule =>
    obtain ⟨⟨t, plan⟩, scheduled, step⟩ := bind_some step
    obtain ⟨p, steps, rfl, -⟩ := schedule_steps scheduled bal.queued
    have bal' := passSteps_balanced steps bal
    have faded : Sourced P (w.setWorld { w.world with scheduler := p.scheduler }) :=
      sourced.fades (fun k => id) (passSteps_fades steps bal)
    obtain ⟨spilled, moved, wf⟩ := faded.spillEvicted bal'.wf
    obtain rfl := Option.some.inj step
    refine ⟨⟨_, moved.balanced wf bal'⟩, ?_, ?_⟩
    · exact moved.regular (regular.lineage (passSteps_lineage steps bal.queued))
    · exact ⟨fun k b named => .inl (spilled.named k b named), fun x mem => .inl (spilled.owed x mem),
        fun store on k bytes held => .inl (spilled.stored store on k bytes held)⟩
  | commit sampled =>
    refine proper (fun world made => ?_) step
    have made' : w.world.commit sampled = some world := made
    obtain ⟨plan, -, made'⟩ := bind_some made'
    split at made'
    · cases made'
    · obtain ⟨t, committed, made'⟩ := bind_some made'
      obtain rfl := Option.some.inj made'
      have size' : 0 < w.world.scheduler.cfg.blockSize := bal.setup.cfg ▸ size
      refine sourced.call (fun k => .inl) (fun k b named => ?_) (commit_evicted committed)
      exact (commit_named bal size' committed named).imp_right fun published => .inr ⟨⟨sampled, rfl⟩, published⟩
  | fork parent tokens =>
    refine proper (fun world made => sourced.fades (fun k => .inl) ?_) step
    have made' : w.world.fork parent tokens = some world := made
    obtain ⟨fades, -⟩ := fork_fades bal parent tokens.length
    unfold World.fork at made'
    split at made'
    · cases made'
    · rcases forked : w.world.scheduler.fork parent tokens.length with ⟨t, err | fork⟩ <;> rw [forked] at made' fades
      · obtain rfl := Option.some.inj made'
        exact fades
      · obtain rfl := Option.some.inj made'
        obtain ⟨balanced, _, _, -, -, -, -, running⟩ := fork_ok bal forked
        exact fades.trans (seedAll_fades running balanced).2
  | cancel requestId =>
    refine proper (fun world made => ?_) step
    obtain rfl := Option.some.inj made
    exact sourced.fades (fun k => .inl) (cancel_fades _ requestId)
  | finishWith id reason =>
    refine proper (fun world made => ?_) step
    obtain rfl := Option.some.inj made
    exact sourced.fades (fun k => .inl) (finish_fades _ id reason)
  | drainFinished =>
    refine proper (fun world made => ?_) step
    obtain rfl := Option.some.inj made
    have same : w.world.scheduler.drainFinished.1.pool = w.world.scheduler.pool :=
      (drainFinished_emptied w.world.scheduler).pool
    exact sourced.fades (fun k => .inl) (show Fades w.pool w.world.scheduler.drainFinished.1.pool from same ▸ .refl _)

end Steps

section Runs

variable {cfg : SchedulerConfig} {numBlocks watermark : Nat} {ns : CacheNamespace B} {eos : List Token}
  {spill : Option (SpillStore H (Page KV))} {exports : Oracle Bool} {imports : Oracle (Option (Page KV))}
  {kernel : Kernel KV} {es : List Event} {w w' : Tiered B KV}

omit [DecidableEq H] in
/-- Scheduler and pool count in the engine's blocks. -/
theorem Tiered.new_blockSize :
    (Tiered.new cfg numBlocks watermark ns eos spill exports imports : Tiered B KV).world.scheduler.cfg.blockSize =
        blockSize ∧
      (Tiered.new cfg numBlocks watermark ns eos spill exports imports : Tiered B KV).pool.blockSize = blockSize := by
  refine ⟨rfl, ?_⟩
  have pool := (new_fields (H := H) numBlocks blockSize watermark).2.1
  cases spill <;> exact pool

/-- The spill store held the hash when the engine started. -/
def AtStart (spill : Option (SpillStore H (Page KV))) (k : H) : Prop :=
  ∃ store bytes, spill = some store ∧ store.Holds k bytes

omit [DecidableEq H] in
theorem Tiered.new_accounted : Accounted (Tiered.new cfg numBlocks watermark ns eos spill exports imports).world.scheduler
    (AtStart spill) (Tiered.new cfg numBlocks watermark ns eos spill exports imports) where
  balanced := ⟨_, Tiered.new_balanced cfg numBlocks watermark ns eos spill exports imports⟩
  regular := ⟨by simp [Tiered.new, World.new, Scheduler.new], by simp [Tiered.new, World.new, Scheduler.new]⟩
  sourced := by
    have pool : (Tiered.new cfg numBlocks watermark ns eos spill exports imports).pool.byHash =
          (BlockPool.new numBlocks blockSize watermark : BlockPool H).byHash ∧
        (Tiered.new cfg numBlocks watermark ns eos spill exports imports).pool.evictedContent =
          (BlockPool.new numBlocks blockSize watermark : BlockPool H).evictedContent := by
      cases spill <;> exact ⟨rfl, rfl⟩
    refine ⟨fun k b named => ?_, fun x mem => ?_, fun store on k bytes held => ⟨store, bytes, on, held⟩⟩
    · rw [pool.1, (new_fields (H := H) numBlocks blockSize watermark).2.2.2 k] at named
      cases named
    · rw [pool.2, new_evicted] at mem
      cases mem

/-- Every hash there is was in the store from the start, or was published in some commit of the run. -/
theorem accounted_run (run : Run (Tiered.Step kernel) (Tiered.new cfg numBlocks watermark ns eos spill exports imports) es w) :
    Accounted (Tiered.new cfg numBlocks watermark ns eos spill exports imports).world.scheduler
      (fun k => AtStart spill k ∨ Done (Tiered.Step kernel) (Publishing k)
        (Tiered.new cfg numBlocks watermark ns eos spill exports imports) es w) w :=
  run.recorded Publishing (Accounted _) (fun _ _ _ le h => ⟨h.balanced, h.regular, h.sourced.mono le⟩) Tiered.new_accounted
    fun _ _ _ _ h step => h.step (Nat.succ_pos 31) step

/-- What a sequence starts on in a step after a run. -/
theorem run_known (run : Run (Tiered.Step kernel) (Tiered.new cfg numBlocks watermark ns eos spill exports imports) es w)
    (step : w.Step kernel .schedule w') {plan : StepPlan} (planned : w'.world.inFlight = some plan) {x : SeqId × Nat}
    (started : x ∈ plan.started) :
    KnownStart (fun k => AtStart spill k ∨ Done (Tiered.Step kernel) (Publishing k)
      (Tiered.new cfg numBlocks watermark ns eos spill exports imports) es w) w.world.scheduler x := by
  obtain ⟨⟨extra, bal⟩, regular, sourced⟩ := accounted_run run
  obtain ⟨⟨t, plan'⟩, scheduled, made⟩ := bind_some (show w.schedule kernel = some w' from step)
  obtain rfl := Option.some.inj made
  obtain rfl := Option.some.inj planned
  have size : w.world.scheduler.cfg.blockSize = blockSize := by rw [bal.setup.cfg]; rfl
  have shape : w.world.scheduler.pool.blockSize = blockSize :=
    bal.setup.shape.blockSize.trans Tiered.new_blockSize.2
  exact schedule_known bal regular (by rw [size]; decide) (shape.trans size.symm) sourced.named scheduled x started

/-- The byte strings a run can feed to the hash function: those of the chains of its sequences. -/
def Fed (kernel : Kernel KV) (w₀ : Tiered B KV) (es : List Event) : Set (List UInt8) :=
  {x | ∃ es₁ es₂ u id seq, es = es₁ ++ es₂ ∧ Run (Tiered.Step kernel) w₀ es₁ u ∧ u.world.scheduler.seqs id = some seq ∧
    x ∈ hashedBytes (w₀.world.scheduler.cacheNamespace.forTenant seq.tenant) seq.tokens blockSize}

/-- In a commit, a sequence with this one's tenant, and its tokens up to the end of the block, publishes the block. -/
def PublishesFor (seq : Sequence) (i : Nat) (a : Tiered B KV) (e : Event) (b : Tiered B KV) : Prop :=
  (∃ sampled, e = .commit sampled) ∧
    ∃ id old new, a.world.scheduler.seqs id = some old ∧ b.world.scheduler.seqs id = some new ∧
      old.numCachedBlocks ≤ i ∧ i < new.numCachedBlocks ∧ new.tenant = seq.tenant ∧
      new.tokens.take ((i + 1) * blockSize) = seq.tokens.take ((i + 1) * blockSize)

/-- Where nothing collides, the block is one of the sequence's own chain. -/
theorem published_own {id : SeqId} {seq : Sequence} {i : Nat} {k : H}
    (free : Set.InjOn B.digest (Fed kernel (Tiered.new cfg numBlocks watermark ns eos spill exports imports) es))
    (distinct : Function.Injective B.asBytes)
    (run : Run (Tiered.Step kernel) (Tiered.new cfg numBlocks watermark ns eos spill exports imports) es w)
    (live : w.world.scheduler.seqs id = some seq)
    (chain : (hashBlockChain (ns.forTenant seq.tenant) seq.tokens blockSize)[i]? = some k)
    (done : Done (Tiered.Step kernel) (Publishing k)
      (Tiered.new cfg numBlocks watermark ns eos spill exports imports) es w) :
    Done (Tiered.Step kernel) (PublishesFor seq i)
      (Tiered.new cfg numBlocks watermark ns eos spill exports imports) es w := by
  obtain ⟨es₁, l, es₂, a, b, split, before, step, after, commit, x, old, new, j, was, now, ge, lt, named⟩ := done
  refine ⟨es₁, l, es₂, a, b, split, before, step, after, commit, x, old, new, was, now, ?_⟩
  obtain ⟨⟨extra, bal⟩, regular, -⟩ := accounted_run (before.snoc step)
  have size : b.world.scheduler.cfg.blockSize = blockSize := by rw [bal.setup.cfg]; rfl
  have base : b.world.scheduler.cacheNamespace = ns := by rw [bal.setup.cacheNamespace]; rfl
  rw [regular.nsFor, base, size] at named
  obtain ⟨rfl, tokens, roots⟩ := chain_inj free distinct
    (fun y fed => ⟨es₁ ++ [l], es₂, b, x, new, by rw [split]; simp, before.snoc step, now, fed⟩)
    (fun y fed => ⟨es, [], w, id, seq, by simp, run, live, fed⟩) named chain
  exact ⟨ge, lt, namespaceBytes_tenant roots, tokens⟩

/-- Where the hash function does not collide on what it is fed: equal entries of two chains are at one place, after the
same tokens and under namespaces that agree; and the blocks a sequence starts on were published by sequences with its
tenant and its tokens up to there, or were in the spill store from the start. -/
theorem tenants_isolated (distinct : Function.Injective B.asBytes) :
    (∀ ns ns' : CacheNamespace B, ns.Fits → ns'.Fits → ∀ (ts ts' : List Token) (size i j : Nat) (h : H),
      Set.InjOn B.digest {x | x ∈ hashedBytes ns ts size ∨ x ∈ hashedBytes ns' ts' size} →
      (hashBlockChain ns ts size)[i]? = some h → (hashBlockChain ns' ts' size)[j]? = some h →
      i = j ∧ ts.take ((i + 1) * size) = ts'.take ((i + 1) * size) ∧ ns.Agree ns') ∧
    ∀ (kernel : Kernel KV) cfg numBlocks watermark (ns : CacheNamespace B) eos spill exports imports es w w' plan,
      Set.InjOn B.digest (Fed kernel (Tiered.new cfg numBlocks watermark ns eos spill exports imports) es) →
      Run (Tiered.Step kernel) (Tiered.new cfg numBlocks watermark ns eos spill exports imports) es w →
      w.Step kernel .schedule w' → w'.world.inFlight = some plan → ∀ id cached, (id, cached) ∈ plan.started →
      ∃ seq, w.world.scheduler.seqs id = some seq ∧ blockSize ∣ cached ∧ ∀ i, (i + 1) * blockSize ≤ cached →
        ∃ k, (hashBlockChain (ns.forTenant seq.tenant) seq.tokens blockSize)[i]? = some k ∧
          (AtStart spill k ∨ Done (Tiered.Step kernel) (PublishesFor seq i)
            (Tiered.new cfg numBlocks watermark ns eos spill exports imports) es w) := by
  refine ⟨fun ns ns' fits fits' ts ts' size i j h free hi hj => chains_isolated fits fits' free distinct hi hj, ?_⟩
  intro kernel cfg numBlocks watermark ns eos spill exports imports es w w' plan free run step planned id cached started
  obtain ⟨seq, live, whole, known⟩ := run_known run step planned started
  obtain ⟨⟨extra, bal⟩, -, -⟩ := accounted_run run
  have size : w.world.scheduler.cfg.blockSize = blockSize := by rw [bal.setup.cfg]; rfl
  have base : w.world.scheduler.cacheNamespace = ns := by rw [bal.setup.cacheNamespace]; rfl
  rw [size, base] at known
  refine ⟨seq, live, size ▸ whole, fun i hi => ?_⟩
  obtain ⟨k, chain, source⟩ := known i hi
  exact ⟨k, chain, source.imp_right (published_own free distinct run live chain)⟩

section Example

/-- The prompt of the first request, and more, of a third. -/
def returning : List Event := published ++ [.admitRequest ⟨"c"⟩ (List.replicate 33 1) {} "global"]

def adapted (loraId : Option String) : CacheNamespace Blake3.identity := .new "model" "weights" .f32 loraId "global"

/-- It starts on the block the first published, whose hash is the same without an adapter and with an empty one. -/
theorem tenants_isolated_returning :
    (adapted none).Agree (adapted (some "")) ∧ ∃ w w' plan seq, Run (Tiered.Step spoken) (spilling 4) returning w ∧ w.Step spoken .schedule w' ∧
      w'.world.inFlight = some plan ∧ (2, 32) ∈ plan.started ∧ w.world.scheduler.seqs 2 = some seq ∧
      Done (Tiered.Step spoken) (PublishesFor seq 0) (spilling 4) returning w := by
  have short : ∀ lora : Option String, lora.getD "" = "" → (adapted lora).Fits := fun lora absent =>
    { modelId := show (utf8 "model").length < 2 ^ 64 by decide +kernel
      weightsFingerprint := show (utf8 "weights").length < 2 ^ 64 by decide +kernel
      loraId := show (utf8 (lora.getD "")).length < 2 ^ 64 by rw [absent]; decide +kernel
      tenant := show (utf8 "global").length < 2 ^ 64 by decide +kernel }
  have first : (hashBlockChain (adapted none) (List.replicate 32 1) 32)[0]? = some promptHash := by decide +kernel
  have second : (hashBlockChain (adapted (some "")) (List.replicate 33 1) 32)[0]? = some promptHash := by decide +kernel
  refine ⟨((@tenants_isolated (List UInt8) _ Blake3.identity Token Function.injective_id).1 _ _ (short none rfl)
    (short (some "") rfl) _ _ _ _ _ _ Function.injective_id.injOn first second).2.2, ?_⟩
  have last : ((Transition.follow (Tiered.exec spoken) returning (spilling 4)).any fun w =>
      (w.exec spoken .schedule).any fun w' => w'.world.inFlight.any fun plan => (2, 32) ∈ plan.started) = true := by
    decide +kernel
  obtain ⟨w, followed, last⟩ := (Option.any_eq_true ..).mp last
  obtain ⟨w', step, last⟩ := (Option.any_eq_true ..).mp last
  obtain ⟨plan, planned, started⟩ := (Option.any_eq_true ..).mp last
  have started := of_decide_eq_true started
  have run := Transition.follow_iff.mp followed
  obtain ⟨seq, live, -, known⟩ := (@tenants_isolated (List UInt8) _ Blake3.identity Token Function.injective_id).2 spoken _ _ _ _ _ _ _ _
    returning w w' plan Function.injective_id.injOn run step planned 2 32 started
  obtain ⟨k, -, ⟨store, bytes, on, held⟩ | done⟩ := known 0 (by decide)
  · obtain rfl := Option.some.inj on
    exact absurd held (SpillStore.empty_holds _ _ _ _ _ _ _)
  · exact ⟨w, w', plan, seq, run, step, planned, started, live, done⟩

end Example

end Runs

end Vapi.Engine
