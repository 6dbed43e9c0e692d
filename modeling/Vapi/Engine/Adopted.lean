import Vapi.Engine.Spilled
import Vapi.Cache.Isolation

/-!
# Where a cached prefix comes from

A name enters the index with a commit that publishes a block under it, or from
the spill store. So the blocks a sequence starts on were published by
sequences that had its tenant and its tokens, or were in the store before.
-/

namespace Vapi.Engine

open Vapi.Cache
open Paged (Memory)
open Transition (Run Done)

variable {H : Type} {B : Blake3 H} {KV : Type}

/-- The sequence later on: its tokens grow, and so does what is published of it. -/
structure Sequence.Publishing (a b : Sequence) : Prop where
  tenant : b.tenant = a.tenant
  tokens : a.tokens <+: b.tokens
  published : a.numCachedBlocks ≤ b.numCachedBlocks

namespace Sequence.Publishing

variable {a b c : Sequence}

theorem refl (a : Sequence) : a.Publishing a := ⟨rfl, List.prefix_rfl, le_rfl⟩

theorem trans (h : a.Publishing b) (k : b.Publishing c) : a.Publishing c :=
  ⟨k.tenant.trans h.tenant, h.tokens.trans k.tokens, h.published.trans k.published⟩

theorem advanced (a : Sequence) (q : Nat) : a.Publishing (a.advanced q) := by
  unfold Sequence.advanced
  split <;> exact ⟨rfl, List.prefix_rfl, le_rfl⟩

theorem sampled (a : Sequence) (eos : List Token) (maxContext : Nat) (token : Token) :
    a.Publishing (a.sampled eos maxContext token) := by
  unfold Sequence.sampled
  split
  · exact ⟨rfl, List.prefix_append .., le_rfl⟩
  · split <;> exact ⟨rfl, List.prefix_append .., le_rfl⟩

end Sequence.Publishing

/-- Every sequence is there as before, or later on. -/
def Onward (s t : Scheduler B) : Prop :=
  ∀ id, (∀ seq, s.seqs id = some seq → ∃ seq', t.seqs id = some seq' ∧ seq.Publishing seq') ∧
    ∀ seq', t.seqs id = some seq' → ∃ seq, s.seqs id = some seq ∧ seq.Publishing seq'

namespace Onward

variable {s t u : Scheduler B}

theorem refl (s : Scheduler B) : Onward s s := fun _ => ⟨fun seq live => ⟨seq, live, .refl seq⟩, fun seq live => ⟨seq, live, .refl seq⟩⟩

theorem trans (h : Onward s t) (k : Onward t u) : Onward s u := by
  refine fun id => ⟨fun seq live => ?_, fun seq live => ?_⟩
  · obtain ⟨seq', live', first⟩ := (h id).1 seq live
    obtain ⟨seq'', live'', second⟩ := (k id).1 seq' live'
    exact ⟨seq'', live'', first.trans second⟩
  · obtain ⟨seq', live', second⟩ := (k id).2 seq live
    obtain ⟨seq'', live'', first⟩ := (h id).2 seq' live'
    exact ⟨seq'', live'', first.trans second⟩

/-- One sequence goes on. -/
theorem update {id : SeqId} {f : Sequence → Sequence} (goes : ∀ seq : Sequence, seq.Publishing (f seq))
    (seqs : t.seqs = Function.update s.seqs id ((s.seqs id).map f)) : Onward s t := by
  refine fun x => ⟨fun seq live => ?_, fun seq live => ?_⟩ <;> by_cases same : x = id
  · subst same
    exact ⟨f seq, by rw [seqs, Function.update_self, live, Option.map_some], goes seq⟩
  · exact ⟨seq, by rw [seqs, Function.update_of_ne same, live], .refl seq⟩
  · subst same
    rw [seqs, Function.update_self] at live
    obtain ⟨old, was, rfl⟩ := Option.map_eq_some_iff.mp live
    exact ⟨old, was, goes old⟩
  · rw [seqs, Function.update_of_ne same] at live
    exact ⟨seq, live, .refl seq⟩

end Onward

/-- An entry of a chain stays when the tokens grow. -/
theorem chain_grows {ns : CacheNamespace B} {ts us : List Token} {bs i : Nat} {k : H} (size : 0 < bs) (grows : ts <+: us)
    (chain : (hashBlockChain ns ts bs)[i]? = some k) : (hashBlockChain ns us bs)[i]? = some k := by
  obtain ⟨more, rfl⟩ := grows
  have full := (List.getElem?_eq_some_iff.mp chain).1
  rw [hashBlockChain_length] at full
  have within : (i + 1) * bs ≤ ts.length := (Nat.le_div_iff_mul_le size).mp full
  have shorter : ts.length ≤ (ts ++ more).length := by simp
  have cut := hashBlockChain_prefix ns size within shorter
  rw [List.take_left] at cut
  exact cut.symm.trans chain

section Commits

variable {base s t : Scheduler B} {extra : BlockId → Nat}

theorem advanceLoop_onward {ids : List SeqId} {cu : List UInt32} (e : Scheduler.advanceLoop ids cu s = some t) :
    Onward s t :=
  advanceLoop_preserves (fun u id q h => h.trans (.update (fun seq => .advanced seq q) (advanceOne_seqs u id q)))
    (.refl s) e

theorem sampledLoop_onward (s : Scheduler B) (pairs : List (SeqId × Token)) : Onward s (s.sampledLoop pairs) := by
  unfold Scheduler.sampledLoop
  induction pairs generalizing s with
  | nil => exact .refl s
  | cons p pairs ih =>
    exact (Onward.update (fun seq => .sampled seq s.eosTokenIds s.cfg.maxContext p.2) (pushSampled_seqs s p.1 p.2)).trans
      (ih _)

/-- A block of this sequence was published, under this hash. -/
def Publishes (k : H) (s t : Scheduler B) : Prop :=
  ∃ id seq seq' i, s.seqs id = some seq ∧ t.seqs id = some seq' ∧ seq.numCachedBlocks ≤ i ∧ i < seq'.numCachedBlocks ∧
    (hashBlockChain (t.nsFor seq'.tenant) seq'.tokens t.cfg.blockSize)[i]? = some k

/-- Before, or after, goes on. -/
theorem Publishes.widen {k : H} {s' t' : Scheduler B} (h : Publishes k s t) (before : Onward s' s) (after : Onward t t')
    (cfg : t'.cfg = t.cfg) (ns : t'.nsFor = t.nsFor) (size : 0 < t.cfg.blockSize) : Publishes k s' t' := by
  obtain ⟨id, seq, seq', i, live, live', ge, lt, chain⟩ := h
  obtain ⟨old, was, first⟩ := (before id).2 seq live
  obtain ⟨new, now, second⟩ := (after id).1 seq' live'
  refine ⟨id, old, new, i, was, now, first.published.trans ge, lt.trans_le second.published, ?_⟩
  rw [cfg, ns, second.tenant]
  exact chain_grows size second.tokens chain

theorem items_from {hashes : List H} {n m i : Nat} {k : H}
    (h : (i, k) ∈ (((List.range hashes.length).zip hashes).take n).drop m) : m ≤ i := by
  obtain ⟨j, hj⟩ := List.getElem?_of_mem h
  rw [List.getElem?_drop] at hj
  have lt := (List.getElem?_eq_some_iff.mp hj).1
  rw [List.length_take] at lt
  rw [List.getElem?_take_of_lt (by omega), List.getElem?_zip_eq_some] at hj
  obtain ⟨lt', eq⟩ := List.getElem?_eq_some_iff.mp hj.1
  rw [List.getElem_range] at eq
  omega

variable [DecidableEq H]

/-- A name that is new is that of a block published. -/
theorem publishOne_named (bal : Balanced base s extra) (size : 0 < s.cfg.blockSize) {id : SeqId}
    (e : s.publishOne id = some t) : Onward s t ∧
    ∀ k b, t.pool.byHash k = some b → s.pool.byHash k = some b ∨ Publishes k s t := by
  rcases publishOne_cases e with rfl | ⟨seq, pool, swaps, blocks, pool', live, more, known, pub, swapped, rfl⟩
  · exact ⟨.refl _, fun k b named => .inl named⟩
  · obtain ⟨published, -, -, byHash, -⟩ := publish_swaps bal live pub swapped
    have goes : seq.Publishing ((seq.withCached (seq.numComputed / s.cfg.blockSize)).withBlocks blocks) :=
      ⟨rfl, List.prefix_rfl, more.le⟩
    refine ⟨fun x => ⟨fun old was => ?_, fun new now => ?_⟩, fun k b named => ?_⟩
    · by_cases same : x = id
      · subst same
        obtain rfl := Option.some.inj (live.symm.trans was)
        exact ⟨_, Function.update_self .., goes⟩
      · exact ⟨old, (Function.update_of_ne same ..).trans was, .refl old⟩
    · change Function.update s.seqs id (some _) x = some new at now
      by_cases same : x = id
      · subst same
        rw [Function.update_self] at now
        exact ⟨seq, live, Option.some.inj now ▸ goes⟩
      · rw [Function.update_of_ne same] at now
        exact ⟨new, now, .refl new⟩
    · change pool'.byHash k = some b at named
      rw [byHash] at named
      refine (published.byHash k b named).imp_right fun ⟨i, item, here⟩ => ?_
      obtain ⟨lt, chain⟩ := mem_items item
      refine ⟨id, seq, _, i, live, Function.update_self .., items_from item, lt, ?_⟩
      have same : (((s.setTenants (s.tenantsFor seq.tenant)).setPool pool').setSeq id
          ((seq.withCached (seq.numComputed / s.cfg.blockSize)).withBlocks blocks)).nsFor seq.tenant =
          s.nsFor seq.tenant := (publishOne_lineage bal.queued e).nsFor seq.tenant
      exact same ▸ chain_grows size (List.take_prefix _ _) chain

theorem publishLoop_named {ids : List SeqId} (bal : Balanced base s extra) (size : 0 < s.cfg.blockSize)
    (e : Scheduler.publishLoop ids s = some t) : Onward s t ∧
    ∀ k b, t.pool.byHash k = some b → s.pool.byHash k = some b ∨ Publishes k s t := by
  induction ids generalizing s with
  | nil =>
    obtain rfl := Option.some.inj e
    exact ⟨.refl s, fun k b named => .inl named⟩
  | cons id ids ih =>
    obtain ⟨s₁, one, rest⟩ := bind_some e
    have bal₁ := publishOne_balanced bal one
    have cfg₁ : s₁.cfg = s.cfg := bal₁.setup.cfg.trans bal.setup.cfg.symm
    obtain ⟨onward, first⟩ := publishOne_named bal size one
    obtain ⟨onward', later⟩ := ih bal₁ (cfg₁ ▸ size) rest
    have lineage := publishLoop_lineage bal₁.queued rest
    have cfg₂ : t.cfg = s₁.cfg := (publishLoop_balanced bal₁ rest).setup.cfg.trans bal₁.setup.cfg.symm
    refine ⟨onward.trans onward', fun k b named => ?_⟩
    rcases later k b named with before | published
    · exact (first k b before).imp_right fun published =>
        published.widen (.refl s) onward' cfg₂ (funext lineage.nsFor) (cfg₁ ▸ size)
    · exact .inr (published.widen onward (.refl t) rfl rfl (cfg₂ ▸ cfg₁ ▸ size))

/-- A commit names nothing but what it publishes. -/
theorem commit_named (bal : Balanced base s extra) (size : 0 < s.cfg.blockSize) {plan : StepPlan} {sampled : List Token}
    (e : s.commit plan sampled = some t) {k : H} {b : BlockId} (named : t.pool.byHash k = some b) :
    s.pool.byHash k = some b ∨ Publishes k s t := by
  obtain ⟨s₁, advanced, e⟩ := bind_some e
  have bal₁ := advanceLoop_balanced bal advanced
  have bal₂ := sampledLoop_balanced bal₁ (plan.sampledSeqs.zip sampled)
  have pool : s₁.pool = s.pool := advanceLoop_pool advanced
  have pushed := sampledLoop_fades s₁ (plan.sampledSeqs.zip sampled)
  rw [pool] at pushed
  unfold Scheduler.publishFullBlocks at e
  split at e
  · have cfg : (s₁.sampledLoop (plan.sampledSeqs.zip sampled)).cfg = s.cfg := bal₂.setup.cfg.trans bal.setup.cfg.symm
    obtain ⟨onward, publishes⟩ := publishLoop_named bal₂ (cfg ▸ size) e
    refine (publishes k b named).imp (pushed.named k b) fun published => ?_
    have cfg' : t.cfg = s.cfg := (publishLoop_balanced bal₂ e).setup.cfg.trans bal.setup.cfg.symm
    exact published.widen ((advanceLoop_onward advanced).trans (sampledLoop_onward s₁ _)) (.refl t) rfl rfl (cfg' ▸ size)
  · obtain rfl := Option.some.inj e
    exact .inl (pushed.named k b named)

end Commits

section Passes

variable {base s t : Scheduler B} {extra : BlockId → Nat} {P : H → Prop} [DecidableEq H]

/-- What a sequence starts on is whole blocks, and known block for block. -/
def KnownStart (P : H → Prop) (s : Scheduler B) (x : SeqId × Nat) : Prop :=
  ∃ seq, s.seqs x.1 = some seq ∧ s.cfg.blockSize ∣ x.2 ∧ ∀ i, (i + 1) * s.cfg.blockSize ≤ x.2 →
    ∃ k, (hashBlockChain (s.cacheNamespace.forTenant seq.tenant) seq.tokens s.cfg.blockSize)[i]? = some k ∧ P k

/-- Every sequence of a pass has the tokens and the tenant it had before it. -/
def SameText (s t : Scheduler B) : Prop :=
  ∀ id seq', t.seqs id = some seq' → ∃ seq, s.seqs id = some seq ∧ seq'.tokens = seq.tokens ∧ seq'.tenant = seq.tenant

omit [DecidableEq H] in
theorem SameText.update {s t u : Scheduler B} {id : SeqId} {old new : Sequence} (h : SameText s t)
    (seqs : u.seqs = Function.update t.seqs id (some new)) (live : t.seqs id = some old)
    (tokens : new.tokens = old.tokens) (tenant : new.tenant = old.tenant) : SameText s u := by
  intro x seq' live'
  rw [seqs, Function.update_apply] at live'
  split at live'
  · rename_i same
    subst same
    obtain rfl := Option.some.inj live'
    obtain ⟨seq, was, is, same⟩ := h x old live
    exact ⟨seq, was, tokens.trans is, tenant.trans same⟩
  · exact h x seq' live'

theorem passSteps_known {p p' : Pass B} (steps : PassSteps p p') (bal : Balanced base p.scheduler extra)
    (regular : Regular p.scheduler) (size : 0 < p.scheduler.cfg.blockSize)
    (same : p.scheduler.pool.blockSize = p.scheduler.cfg.blockSize)
    (named : ∀ k b, p.scheduler.pool.byHash k = some b → P k) (fresh : p.plan.started = []) :
    SameText p.scheduler p'.scheduler ∧ ∀ x ∈ p'.plan.started, KnownStart P p.scheduler x := by
  induction steps with
  | refl => exact ⟨fun id seq live => ⟨seq, live, rfl, rfl⟩, fun x hx => by simp [fresh] at hx⟩
  | @tail q q' steps step ih =>
    obtain ⟨text, started⟩ := ih
    have bal' := passSteps_balanced steps bal
    have regular' := regular.lineage (passSteps_lineage steps bal.queued)
    have fades := passSteps_fades steps bal
    have cfg : q.scheduler.cfg = p.scheduler.cfg := bal'.setup.cfg.trans bal.setup.cfg.symm
    have ns : q.scheduler.cacheNamespace = p.scheduler.cacheNamespace :=
      bal'.setup.cacheNamespace.trans bal.setup.cacheNamespace.symm
    cases step with
    | @batch id seq n pool taken plan run new live chunk took pushed =>
      refine ⟨text.update rfl live rfl rfl, fun x hx => started x ?_⟩
      obtain ⟨batch, -, rfl⟩ := Option.bind_eq_some_iff.mp pushed |>.imp fun _ h => h.imp_right Option.some.inj
      exact hx
    | @preempt id seq n pool taken err run new live chunk took => exact ⟨text.update rfl live rfl rfl, started⟩
    | @start id rest seq found pool matched taken cached head live budget room hit fits took =>
      refine ⟨text.update rfl live rfl rfl, fun x hx => ?_⟩
      rcases List.mem_append.mp hx with before | now
      · exact started x before
      · rw [List.mem_singleton] at now
        subst now
        obtain ⟨old, was, tokens, tenant⟩ := text id seq live
        obtain ⟨prefix_, exact_⟩ := matchCached_spec bal'.wf hit
        have shape : q.scheduler.pool.blockSize = q.scheduler.cfg.blockSize := by
          rw [cfg, ← same]
          exact (bal'.setup.shape.blockSize).trans bal.setup.shape.blockSize.symm
        refine ⟨old, was, ⟨matched.length, ?_⟩, fun i hi => ?_⟩
        · rw [← cfg, Nat.mul_comm]
          exact (exact_ shape).1
        have hi : (i + 1) * p.scheduler.cfg.blockSize ≤ cached := hi
        rw [(exact_ shape).1, cfg] at hi
        have lt : i < matched.length := Nat.lt_of_succ_le (Nat.le_of_mul_le_mul_right hi size)
        obtain ⟨k, chain, known⟩ := prefix_.named i _ (List.getElem?_eq_getElem lt)
        rw [regular'.nsFor, cfg, ns, tokens, tenant] at chain
        exact ⟨k, chain_grows size (List.take_prefix _ _) chain, named k _ (fades.named k _ known)⟩
    | @refuse id rest seq found pool matched taken cached n failed head live hit took =>
      exact ⟨text, started⟩

/-- The sequences a step starts find known blocks only. -/
theorem schedule_known (bal : Balanced base s extra) (regular : Regular s) (size : 0 < s.cfg.blockSize)
    (same : s.pool.blockSize = s.cfg.blockSize) (named : ∀ k b, s.pool.byHash k = some b → P k) {plan : StepPlan}
    (e : s.schedule = some (t, plan)) : ∀ x ∈ plan.started, KnownStart P s x := by
  obtain ⟨p, steps, -, rfl⟩ := schedule_steps e bal.queued
  exact (passSteps_known steps bal regular size same named rfl).2

end Passes

end Vapi.Engine
