import Vapi.Engine.Promotion

/-!
# What the spill store holds

In a run whose forks spare what is still to be exported, every entry of the
store is what a block held under the entry's name.
-/

namespace Vapi.Engine

open Vapi.Cache
open Paged (Memory)
open Transition (Run Guarded Done)

variable {H : Type} [DecidableEq H] {B : Blake3 H} {KV : Type}

section Calls

variable {base s t : Scheduler B} {extra : BlockId → Nat} {kernel : Kernel KV}

theorem seedAll_calls {l : List (SeqId × Token)} (run : ∀ p ∈ l, p.1 ∈ s.running) :
    ∃ ls, Run Scheduler.Step s ls (seedAll l s).1 :=
  seedAll_preserves (P := fun t => ∃ ls, Run Scheduler.Step s ls t)
    (fun t id token ⟨ls, before⟩ running =>
      ⟨_, before.snoc (l := (.seedFork id token, .seeded (t.seedFork id token).2))
        ⟨fun _ _ same => by cases same; exact running, rfl⟩⟩) run ⟨[], .nil⟩

/-- A step of the engine is a run of calls on its scheduler. -/
theorem World.calls {w w' : World B KV} {e : Event} (bal : Balanced base w.scheduler extra) (step : w.Step kernel e w') :
    ∃ ls, Run Scheduler.Step w.scheduler ls w'.scheduler := by
  unfold World.Step World.exec at step
  cases e with
  | admitRequest requestId prompt params tenant =>
    obtain rfl := Option.some.inj step
    exact ⟨_, .cons (l := (.admitRequest requestId prompt params tenant, _)) ⟨by simp, rfl⟩ .nil⟩
  | schedule =>
    obtain ⟨⟨t, plan⟩, scheduled, e⟩ := bind_some step
    obtain rfl := Option.some.inj e
    exact ⟨_, .cons (l := (.schedule, .planned plan)) ⟨by simp, by simp [Scheduler.exec, scheduled]⟩ .nil⟩
  | commit sampled =>
    obtain ⟨plan, -, e⟩ := bind_some step
    split at e
    · cases e
    · obtain ⟨t, committed, e⟩ := bind_some e
      obtain rfl := Option.some.inj e
      exact ⟨_, .cons (l := (.commit plan sampled, .done)) ⟨by simp, by simp [Scheduler.exec, committed]⟩ .nil⟩
  | fork parent tokens =>
    change w.fork parent tokens = some w' at step
    unfold World.fork at step
    split at step
    · cases step
    · have call : w.scheduler.Step (.fork parent tokens.length, .forked (w.scheduler.fork parent tokens.length).2)
          (w.scheduler.fork parent tokens.length).1 := ⟨by simp, rfl⟩
      rcases forked : w.scheduler.fork parent tokens.length with ⟨t, err | fork⟩ <;> rw [forked] at step call
      · obtain rfl := Option.some.inj step
        exact ⟨_, .cons call .nil⟩
      · obtain rfl := Option.some.inj step
        obtain ⟨-, _, _, -, -, -, -, running⟩ := fork_ok bal forked
        obtain ⟨ls, seeded⟩ := seedAll_calls running
        exact ⟨_, .cons call seeded⟩
  | cancel requestId =>
    obtain rfl := Option.some.inj step
    exact ⟨_, .cons (l := (.cancel requestId, _)) ⟨by simp, rfl⟩ .nil⟩
  | finishWith id reason =>
    obtain rfl := Option.some.inj step
    exact ⟨_, .cons (l := (.finishWith id reason, _)) ⟨by simp, rfl⟩ .nil⟩
  | drainFinished =>
    obtain rfl := Option.some.inj step
    exact ⟨_, .cons (l := (.drainFinished, _)) ⟨by simp, rfl⟩ .nil⟩

theorem calls_balanced {ls : List (Op × Outcome)} (run : Run Scheduler.Step s ls t) (bal : ∃ extra, Balanced base s extra) :
    ∃ extra, Balanced base t extra :=
  run.invariant (fun s => ∃ extra, Balanced base s extra) bal fun _ _ _ ⟨_, h⟩ step => (step_balanced h step).2

end Calls

section Commits

variable {s t : Scheduler B}

omit [DecidableEq H] in
theorem free_evicted (p : BlockPool H) (b : BlockId) : (p.free b).evictedContent = p.evictedContent := by
  unfold BlockPool.free
  simp only
  split <;> rfl

theorem publishBlocks_evicted (blocks : List BlockId) (items : List (Nat × H)) (pool : BlockPool H) :
    (Scheduler.publishBlocks blocks items pool).1.evictedContent = pool.evictedContent := by
  induction items generalizing pool with
  | nil => rfl
  | cons item items ih =>
    unfold Scheduler.publishBlocks
    cases blocks[item.1]? with
    | none => exact ih pool
    | some b => exact (ih _).trans (publish_evicted pool b item.2)

omit [DecidableEq H] in
theorem swapBlocks_evicted (swaps : List (Nat × BlockId × BlockId)) (blocks : List BlockId) (pool : BlockPool H) :
    (Scheduler.swapBlocks swaps (blocks, pool)).2.evictedContent = pool.evictedContent := by
  induction swaps generalizing blocks pool with
  | nil => rfl
  | cons swap swaps ih => exact (ih _ _).trans (free_evicted pool swap.2.1)

theorem publishOne_evicted {id : SeqId} (e : s.publishOne id = some t) :
    t.pool.evictedContent = s.pool.evictedContent := by
  rcases publishOne_cases e with rfl | ⟨seq, pool, swaps, blocks, pool', -, -, -, pub, swapped, rfl⟩
  · rfl
  · have published : pool.evictedContent = s.pool.evictedContent :=
      (congrArg (fun r => r.1.evictedContent) pub).symm.trans (publishBlocks_evicted ..)
    have swap := swapBlocks_evicted swaps seq.blocks pool
    rw [swapped] at swap
    exact swap.trans published

theorem publishLoop_evicted {ids : List SeqId} (e : Scheduler.publishLoop ids s = some t) :
    t.pool.evictedContent = s.pool.evictedContent := by
  induction ids generalizing s with
  | nil => rw [← Option.some.inj e]
  | cons id ids ih =>
    obtain ⟨s₁, one, rest⟩ := bind_some e
    exact (ih rest).trans (publishOne_evicted one)

/-- Publishing puts nothing down as evicted. -/
theorem commit_evicted {plan : StepPlan} {sampled : List Token} (e : s.commit plan sampled = some t) :
    ∀ x ∈ t.pool.evictedContent, x ∈ s.pool.evictedContent ∨ s.pool.byHash x.1 = some x.2 := by
  obtain ⟨s₁, advanced, e⟩ := bind_some e
  have pushed := sampledLoop_fades s₁ (plan.sampledSeqs.zip sampled)
  rw [advanceLoop_pool advanced] at pushed
  have same : t.pool.evictedContent = (s₁.sampledLoop (plan.sampledSeqs.zip sampled)).pool.evictedContent := by
    unfold Scheduler.publishFullBlocks at e
    split at e
    · exact publishLoop_evicted e
    · rw [← Option.some.inj e]
  rw [same]
  exact pushed.evicted

end Commits

namespace Tiered

/-- A block stands under a name, and holds these bytes. -/
def Shows (w : Tiered B KV) (x : H × Page KV) : Prop := ∃ b, w.pool.byHash x.1 = some b ∧ w.device b = x.2

/-- A fork that is to copy an open block finds the blocks it may copy to
without a name, and none of them still to be exported. -/
def Spares (w : Tiered B KV) (e : Event) : Prop :=
  ∀ parent tokens seq, e = .fork parent tokens → parent ∈ w.world.leaders →
    w.world.scheduler.seqs parent = some seq → seq.needsPrefill = false →
    seq.numComputed / w.world.scheduler.cfg.blockSize < seq.blocks.length →
    seq.numComputed % w.world.scheduler.cfg.blockSize ≠ 0 →
    tokens.length + w.pool.watermark ≤ w.pool.numFree →
    ∀ b ∈ w.pool.freeList.take tokens.length,
      (∀ h, w.pool.byHash h ≠ some b) ∧ ∀ x ∈ w.pool.evictedContent, x.2 ≠ b

end Tiered

section Steps

variable {base : Scheduler B} {extra : BlockId → Nat} {kernel : Kernel KV} {P : H × Page KV → Prop} {w w' : Tiered B KV}

omit [DecidableEq H] in
theorem Rearranged.balanced (moved : Rearranged w w') (wf : Wf w'.pool)
    (bal : Balanced base w.world.scheduler extra) : Balanced base w'.world.scheduler extra := by
  have setup := moved.shape
  rw [moved.world]
  exact bal.congr ⟨rfl, rfl, rfl, setup⟩ (setPool_queued bal.queued _) wf rfl rfl fun b => by
    rw [show w.world.scheduler.pool.refcount = w'.pool.refcount from moved.refcount.symm]
    rfl

omit [DecidableEq H] in
/-- What the names show is known as soon as it is seen. -/
theorem Kept.seen (on : w.spill.isSome) (wf : Wf w.pool)
    (stored : ∀ store, w.spill = some store → ∀ h bytes, store.Holds h bytes → P (h, bytes))
    (owed : ∀ x ∈ w.pool.evictedContent, P (x.1, w.device x.2)) : Kept (fun x => P x ∨ w.Shows x) w where
  on := on
  wf := wf
  stored store known h bytes held := .inl (stored store known h bytes held)
  owed x hx := .inl (owed x hx)
  named _ b named := .inr ⟨b, named, rfl⟩

omit [DecidableEq H] in
/-- A step that moves nothing between the tiers. -/
theorem Kept.call (h : Kept P w) {world : World B KV} (wf : Wf world.scheduler.pool)
    (evicted : ∀ x ∈ world.scheduler.pool.evictedContent, x ∈ w.pool.evictedContent ∨ w.pool.byHash x.1 = some x.2)
    (device : world.device = w.device) : Kept (fun x => P x ∨ (w.setWorld world).Shows x) (w.setWorld world) :=
  .seen h.on wf h.stored fun x hx => by
    change P (x.1, world.device x.2)
    rw [device]
    exact (evicted x hx).elim (h.owed x) (h.named x.1 x.2)

/-- A fork that asks for copies has an open block that is in use, and room for
all its children. -/
theorem fork_copies {s t : Scheduler B} {parent : SeqId} {tokens : List Token} {fork : Fork}
    (bal : Balanced base s extra) (e : s.fork parent tokens.length = (t, .ok fork)) {c : BlockId × BlockId}
    (hc : c ∈ fork.copies) : ∃ seq, s.seqs parent = some seq ∧ seq.needsPrefill = false ∧
      seq.numComputed / s.cfg.blockSize < seq.blocks.length ∧ seq.numComputed % s.cfg.blockSize ≠ 0 ∧
      tokens.length + s.pool.watermark ≤ s.pool.numFree := by
  obtain ⟨-, seq, made, live, ready, length, forked, -⟩ := fork_ok bal e
  rw [forked.copies, List.nil_append] at hc
  obtain ⟨blocks, hb, hc⟩ := List.mem_flatMap.mp hc
  unfold childCopy at hc
  split at hc
  · rename_i openBlock own isOpen _
    have lt := (List.getElem?_eq_some_iff.mp isOpen).1
    split at hc
    · rename_i used
      refine ⟨seq, live, ready, lt, used, ?_⟩
      by_contra tight
      rw [fork_eq live ready] at e
      have some_ : tokens.length ≠ 0 := by
        rw [← length]
        exact Nat.ne_of_gt (List.length_pos_of_mem hb)
      have held : ∀ b ∈ (Scheduler.forkSource seq).blocks, 0 < s.pool.refcount b := fun b hb => bal.pos_refcount live hb
      obtain ⟨err, refused⟩ := (forkChildren_error_iff bal held tokens.length {}).mpr ⟨some_, lt, by omega⟩
      rw [e] at refused
      cases refused
    · cases hc
  · cases hc

theorem seedAll_fades {s : Scheduler B} {l : List (SeqId × Token)} (run : ∀ p ∈ l, p.1 ∈ s.running)
    (bal : Balanced base s extra) : Balanced base (seedAll l s).1 extra ∧ Fades s.pool (seedAll l s).1.pool :=
  seedAll_preserves (P := fun t => Balanced base t extra ∧ Fades s.pool t.pool)
    (fun _ id token ⟨bal, fades⟩ running =>
      ⟨seedFork_balanced bal running token, fades.trans (seedFork_fades bal.wf id token)⟩) run ⟨bal, .refl _⟩

/-- The copies of a fork go to blocks that nothing is owed of. -/
theorem Kept.fork (h : Kept P w) (bal : Balanced base w.world.scheduler extra) {parent : SeqId} {tokens : List Token}
    (spares : w.Spares (.fork parent tokens)) {world : World B KV} (e : w.world.fork parent tokens = some world) :
    Kept (fun x => P x ∨ (w.setWorld world).Shows x) (w.setWorld world) := by
  unfold World.fork at e
  split at e
  · cases e
  · rename_i leads
    rw [not_not] at leads
    obtain ⟨fades, first⟩ := fork_fades bal parent tokens.length
    obtain ⟨-, _, bal'⟩ := fork_balanced bal parent tokens.length
    rcases forked : w.world.scheduler.fork parent tokens.length with ⟨t, err | fork⟩ <;>
      rw [forked] at e fades first bal'
    · obtain rfl := Option.some.inj e
      exact h.call bal'.wf fades.evicted rfl
    · obtain rfl := Option.some.inj e
      obtain ⟨balanced, _, _, -, -, -, -, running⟩ := fork_ok bal forked
      obtain ⟨seeded, fades'⟩ := seedAll_fades running balanced
      refine .seen h.on seeded.wf h.stored fun x hx => ?_
      have before := (fades.trans fades').evicted x hx
      -- what is owed lies in no block that is copied to
      have out : x.2 ∉ fork.copies.map Prod.snd := by
        intro hx
        obtain ⟨c, hc, same⟩ := List.mem_map.mp hx
        obtain ⟨seq, live, ready, isOpen, used, room⟩ := fork_copies bal forked hc
        obtain ⟨unnamed, settled⟩ := spares parent tokens seq rfl leads live ready isOpen used room c.2 (first fork rfl c hc)
        exact before.elim (fun owed => settled x owed same.symm) fun named => unnamed x.1 (same ▸ named)
      change P (x.1, fork.copies.foldl (fun d c => d.copy c.1 c.2) w.device x.2)
      rw [Paged.copies_other _ _ out]
      exact before.elim (h.owed x) (h.named x.1 x.2)

/-- A batch runs with nothing left to export. -/
theorem Kept.schedule (h : Kept P w) (bal : Balanced base w.world.scheduler extra)
    (e : w.schedule kernel = some w') :
    Kept (fun x => P x ∨ w'.Shows x) w' ∧ Balanced base w'.world.scheduler extra := by
  obtain ⟨⟨t, plan⟩, scheduled, e⟩ := bind_some e
  obtain ⟨p, steps, rfl, -⟩ := schedule_steps scheduled bal.queued
  have bal' := passSteps_balanced steps bal
  have faded := h.fades bal'.wf (schedule_fades bal scheduled)
  have planned : Kept P (w.setWorld { w.world with scheduler := p.scheduler }) :=
    ⟨faded.on, faded.wf, faded.stored, faded.owed, faded.named⟩
  obtain ⟨kept, moved, pool, -⟩ := planned.spillEvicted
  obtain rfl := Option.some.inj e
  refine ⟨.seen kept.on kept.wf kept.stored fun x hx => ?_, moved.balanced kept.wf bal'⟩
  have nothing : (w.setWorld { w.world with scheduler := p.scheduler }).spillEvicted.pool.evictedContent = [] := by
    rw [pool]
    rfl
  change x ∈ (w.setWorld { w.world with scheduler := p.scheduler }).spillEvicted.pool.evictedContent at hx
  rw [nothing] at hx
  cases hx

theorem Kept.step (h : Kept P w) (bal : ∃ extra, Balanced base w.world.scheduler extra) {e : Event}
    (spares : w.Spares e) (step : w.Step kernel e w') :
    Kept (fun x => P x ∨ w'.Shows x) w' ∧ ∃ extra, Balanced base w'.world.scheduler extra := by
  obtain ⟨extra, bal⟩ := bal
  -- a step of the engine proper, in which the device stays, or only copies are made
  have proper : (∀ world, w.world.exec kernel e = some world →
      Kept (fun x => P x ∨ (w.setWorld world).Shows x) (w.setWorld world)) →
      (w.world.exec kernel e).map w.setWorld = some w' →
      Kept (fun x => P x ∨ w'.Shows x) w' ∧ ∃ extra, Balanced base w'.world.scheduler extra := by
    intro kept step
    obtain ⟨world, made, rfl⟩ := Option.map_eq_some_iff.mp step
    obtain ⟨ls, calls⟩ := World.calls bal made
    exact ⟨kept world made, calls_balanced calls ⟨extra, bal⟩⟩
  unfold Tiered.Step Tiered.exec at step
  cases e with
  | admitRequest requestId prompt params tenant =>
    obtain rfl := Option.some.inj step
    obtain ⟨kept, moved⟩ := h.promoteFromSpill prompt
    have bal' := admit_balanced (moved.balanced kept.wf bal) requestId prompt params tenant
    exact ⟨kept.call bal'.wf (admit_fades _ requestId prompt params tenant).evicted rfl, _, bal'⟩
  | schedule => exact (h.schedule bal step).imp_right fun bal' => ⟨_, bal'⟩
  | commit sampled =>
    refine proper (fun world made => ?_) step
    have made' : w.world.commit sampled = some world := made
    obtain ⟨plan, -, made'⟩ := bind_some made'
    split at made'
    · cases made'
    · obtain ⟨t, committed, made'⟩ := bind_some made'
      obtain rfl := Option.some.inj made'
      exact h.call (commit_balanced bal committed).wf (commit_evicted committed) rfl
  | fork parent tokens => exact proper (fun world made => h.fork bal spares made) step
  | cancel requestId =>
    refine proper (fun world made => ?_) step
    obtain rfl := Option.some.inj made
    exact h.call (cancel_balanced bal requestId).wf (cancel_fades _ requestId).evicted rfl
  | finishWith id reason =>
    refine proper (fun world made => ?_) step
    obtain rfl := Option.some.inj made
    exact h.call (finish_balanced bal id reason).wf (finish_fades _ id reason).evicted rfl
  | drainFinished =>
    refine proper (fun world made => ?_) step
    obtain rfl := Option.some.inj made
    have same : w.world.scheduler.drainFinished.1.pool = w.world.scheduler.pool :=
      (drainFinished_emptied w.world.scheduler).pool
    exact h.call (drainFinished_balanced bal).wf (fun x hx => by
      change x ∈ w.world.scheduler.drainFinished.1.pool.evictedContent at hx
      rw [same] at hx
      exact .inl hx) rfl

end Steps

section Runs

variable {cfg : SchedulerConfig} {numBlocks watermark : Nat} {ns : CacheNamespace B} {eos : List Token}
  {spill : Option (SpillStore H (Page KV))} {exports : Oracle Bool} {imports : Oracle (Option (Page KV))}
  {kernel : Kernel KV} {es : List Event} {w : Tiered B KV}

omit [DecidableEq H] in
theorem Tiered.new_balanced (cfg : SchedulerConfig) (numBlocks watermark : Nat) (ns : CacheNamespace B) (eos : List Token)
    (spill : Option (SpillStore H (Page KV))) (exports : Oracle Bool) (imports : Oracle (Option (Page KV))) :
    Balanced (Tiered.new cfg numBlocks watermark ns eos spill exports imports).world.scheduler
      (Tiered.new cfg numBlocks watermark ns eos spill exports imports).world.scheduler fun _ => 0 := by
  have plain := Engine.new_balanced { cfg with blockSize } numBlocks blockSize watermark ns eos
  cases spill with
  | none => exact plain
  | some store =>
    refine ⟨⟨rfl, rfl, rfl, .refl _⟩, ?_, new_queued _ _ _ _, fun b => plain.counts b⟩
    exact plain.wf.elim fun L r => ⟨L, r.congr rfl rfl rfl rfl rfl rfl rfl rfl⟩

omit [DecidableEq H] in
/-- Spilling is on, and nothing has a name yet. -/
theorem Tiered.new_kept {store : SpillStore H (Page KV)} :
    Kept (fun x => store.Holds x.1 x.2) (Tiered.new cfg numBlocks watermark ns eos (some store) exports imports) where
  on := rfl
  wf := (Tiered.new_balanced cfg numBlocks watermark ns eos (some store) exports imports).wf
  stored other same h bytes held := by
    obtain rfl := Option.some.inj same
    exact held
  owed x hx := by
    change x ∈ (BlockPool.new numBlocks blockSize watermark).evictedContent at hx
    rw [new_evicted] at hx
    cases hx
  named h b named := by
    have none := (new_fields (H := H) numBlocks blockSize watermark).2.2.2 h
    exact absurd (named.symm.trans none) (by simp)

/-- All that is stored, owed or named was stored from the start, or was seen. -/
theorem spill_kept {store : SpillStore H (Page KV)}
    (run : Run (Guarded Tiered.Spares (Tiered.Step kernel))
      (Tiered.new cfg numBlocks watermark ns eos (some store) exports imports) es w) :
    Kept (fun x => store.Holds x.1 x.2 ∨ Done (Guarded Tiered.Spares (Tiered.Step kernel)) (fun _ _ w => w.Shows x)
      (Tiered.new cfg numBlocks watermark ns eos (some store) exports imports) es w) w :=
  (run.recorded (fun x _ _ w => w.Shows x)
    (fun P w => Kept P w ∧ ∃ extra, Balanced
      (Tiered.new cfg numBlocks watermark ns eos (some store) exports imports).world.scheduler w.world.scheduler extra)
    (fun _ _ _ le h => ⟨h.1.mono le, h.2⟩) ⟨Tiered.new_kept, _, Tiered.new_balanced ..⟩
    fun _ _ _ _ h step => h.1.step h.2 step.1 step.2).1

/-- In a run with spilling on, whose forks spare what is still to be exported,
every entry of the store was in it from the start, or is what a block held
under the entry's name. So is what any prompt has put back. -/
theorem spill_truthful {store : SpillStore H (Page KV)}
    (run : Run (Guarded Tiered.Spares (Tiered.Step kernel))
      (Tiered.new cfg numBlocks watermark ns eos (some store) exports imports) es w) :
    (∀ store', w.spill = some store' → ∀ h bytes, store'.Holds h bytes → store.Holds h bytes ∨
      Done (Guarded Tiered.Spares (Tiered.Step kernel)) (fun _ _ w => w.Shows (h, bytes))
        (Tiered.new cfg numBlocks watermark ns eos (some store) exports imports) es w) ∧
    ∀ prompt h b, (w.promoteFromSpill prompt).pool.byHash h = some b →
      store.Holds h ((w.promoteFromSpill prompt).device b) ∨
      Done (Guarded Tiered.Spares (Tiered.Step kernel))
        (fun _ _ w' => w'.Shows (h, (w.promoteFromSpill prompt).device b))
        (Tiered.new cfg numBlocks watermark ns eos (some store) exports imports) es w := by
  have kept := spill_kept run
  exact ⟨fun store' on h bytes held => kept.stored store' on h bytes held,
    fun prompt h b named => (kept.promoteFromSpill prompt).1.named h b named⟩

end Runs

section Example

/-- Keys and values that tell the token. -/
def spoken : Kernel Token := fun _ _ row => row.token

/-- Host memory for four blocks. -/
def hostMemory : SpillStore (List UInt8) (Page Token) := .empty false 4 0 (fun _ => 1) ⟨fun _ => true, 0⟩

def spilling (numBlocks : Nat) : Tiered Blake3.identity Token :=
  .new {} numBlocks 0 (.new "model" "weights" .f32 none "global") [] (some hostMemory) ⟨fun _ => true, 0⟩
    ⟨fun _ => none, 0⟩

/-- A block of prompt is computed, published and let go; then a second request
has its first token. -/
def published : List Event :=
  [.admitRequest ⟨"a"⟩ (List.replicate 32 1) {} "global", .schedule, .commit [3], .cancel ⟨"a"⟩,
    .admitRequest ⟨"b"⟩ [2] { n := 2 } "global", .schedule, .commit [4]]

/-- The second request is forked, and decoded. -/
def crossing : List Event := published ++ [.fork 1 [5], .schedule]

/-- A third request comes in between. -/
def leftovers : List Event := [.admitRequest ⟨"c"⟩ [6] {} "global", .schedule]

/-- The hash of that block. -/
def promptHash : List UInt8 :=
  ((hashBlockChain (B := Blake3.identity) (.new "model" "weights" .f32 none "global") (List.replicate 32 1)
    blockSize)[0]?).getD []

/-- On a pool of two blocks the fork takes the published block and copies over
it before it is exported: what the store then holds under its hash is the
second request's. -/
theorem fork_copies_over_evicted :
    ∃ w store bytes, Run (Tiered.Step spoken) (spilling 2) crossing w ∧
      w.spill = some store ∧ store.Holds promptHash bytes ∧ ¬hostMemory.Holds promptHash bytes ∧
      ¬Done (Tiered.Step spoken) (fun _ _ w => w.Shows (promptHash, bytes)) (spilling 2)
        crossing w := by
  have last : ((Transition.follow (Tiered.exec spoken) crossing (spilling 2)).any
      fun w => w.spill.any fun store => (store.ram promptHash).any fun page => page 0 = some 2) = true := by
    decide +kernel
  obtain ⟨w, followed, last⟩ := (Option.any_eq_true ..).mp last
  obtain ⟨store, on, last⟩ := (Option.any_eq_true ..).mp last
  obtain ⟨bytes, held, foreign⟩ := (Option.any_eq_true ..).mp last
  have foreign := of_decide_eq_true foreign
  refine ⟨w, store, bytes, Transition.follow_iff.mp followed, on, .inl held, fun old => SpillStore.empty_holds _ _ _ _ _ _ _ old, fun seen => ?_⟩
  have apart : ∀ k, k < crossing.length →
      ((Transition.follow (Tiered.exec spoken) (crossing.take (k + 1)) (spilling 2)).all
        fun w => (w.pool.byHash promptHash).all fun b => w.device b 0 ≠ some 2) = true := by
    decide +kernel
  obtain ⟨k, lt, l, a, b, -, at_, block, named, shows⟩ := Done.follow seen
  have apart := apart k lt
  rw [at_, Option.all_some, named, Option.all_some] at apart
  exact of_decide_eq_true apart ((congrFun shows 0).trans foreign)

/-- On one of three it takes a block without a name, and the published one is
exported as it was when a third request takes it. -/
theorem spill_truthful_spared :
    ∃ w store bytes, Run (Guarded Tiered.Spares (Tiered.Step spoken)) (spilling 3)
        (published ++ .fork 1 [5] :: leftovers) w ∧
      w.spill = some store ∧ store.Holds promptHash bytes ∧
      Done (Guarded Tiered.Spares (Tiered.Step spoken)) (fun _ _ w => w.Shows (promptHash, bytes)) (spilling 3)
        (published ++ .fork 1 [5] :: leftovers) w := by
  have before : ((Transition.follow (Tiered.exec spoken) published (spilling 3)).any fun w =>
      w.pool.freeList.take 1 = [2] ∧ w.pool.hashOf 2 = none ∧ w.pool.evictedContent = []) = true := by
    decide +kernel
  obtain ⟨w₁, first, before⟩ := (Option.any_eq_true ..).mp before
  obtain ⟨free, unnamed, settled⟩ := of_decide_eq_true before
  have calm : ∀ l ∈ published, ∀ w : Tiered Blake3.identity Token, w.Spares l := by
    intro l hl w parent tokens seq same
    subst same
    simp [published] at hl
  have run := (Transition.follow_iff.mp first).guard calm
  have spared : w₁.Spares (.fork 1 [5]) := by
    intro parent tokens seq same _ _ _ _ _ _ b hb
    cases same
    have wf := (spill_kept run).wf
    change b ∈ w₁.pool.freeList.take 1 at hb
    rw [free, List.mem_singleton] at hb
    subst hb
    refine ⟨fun h named => ?_, by simp [settled]⟩
    exact absurd (((wf.inverse 2 h).mpr named).symm.trans unnamed) (by simp)
  have after : (((Transition.follow (Tiered.exec spoken) published (spilling 3)).bind
      (Transition.follow (Tiered.exec spoken) (.fork 1 [5] :: leftovers))).any fun w =>
        w.spill.any fun store => (store.ram promptHash).isSome) = true := by
    decide +kernel
  rw [first, Option.bind_some] at after
  obtain ⟨w, followed, after⟩ := (Option.any_eq_true ..).mp after
  obtain ⟨store, on, after⟩ := (Option.any_eq_true ..).mp after
  obtain ⟨bytes, held⟩ := Option.isSome_iff_exists.mp after
  obtain ⟨w₂, forked, rest⟩ := Option.bind_eq_some_iff.mp followed
  have calm : ∀ l ∈ leftovers, ∀ w : Tiered Blake3.identity Token, w.Spares l := by
    intro l hl w parent tokens seq same
    subst same
    simp [leftovers] at hl
  have rest := (Transition.follow_iff.mp rest).guard calm
  have run := run.append (.cons ⟨spared, forked⟩ rest)
  exact ⟨w, store, bytes, run, on, .inl held, ((spill_truthful run).1 store on promptHash bytes (.inl held)).resolve_left
    fun old => SpillStore.empty_holds _ _ _ _ _ _ _ old⟩

end Example

end Vapi.Engine
