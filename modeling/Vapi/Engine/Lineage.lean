import Vapi.Engine.Operations

/-!
# What stays of a sequence

A sequence keeps its request, its prompt and its tenant for life, and its
tokens only grow. A tenant's namespace, once derived, is kept.
-/

namespace Vapi.Engine

open Vapi.Cache
open Transition (Run)

structure Sequence.Continues (a b : Sequence) : Prop where
  requestId : b.requestId = a.requestId
  params : b.params = a.params
  tenant : b.tenant = a.tenant
  promptLen : b.promptLen = a.promptLen
  tokens : a.tokens <+: b.tokens

namespace Sequence.Continues

variable {a b c : Sequence}

theorem refl (a : Sequence) : a.Continues a := ⟨rfl, rfl, rfl, rfl, List.prefix_rfl⟩

theorem trans (h : a.Continues b) (k : b.Continues c) : a.Continues c :=
  ⟨k.requestId.trans h.requestId, k.params.trans h.params, k.tenant.trans h.tenant,
    k.promptLen.trans h.promptLen, h.tokens.trans k.tokens⟩

/-- The prompt is cut from the tokens, within those there were. -/
theorem prompt (h : a.Continues b) : b.prompt = a.prompt := by
  obtain ⟨more, eq⟩ := h.tokens
  have := Nat.le_trans a.promptLen_le a.target_le
  rw [Sequence.prompt, Sequence.prompt, h.promptLen, ← eq, List.take_append_of_le_length this]

end Sequence.Continues

theorem Sequence.new_prompt (requestId : RequestId) (prompt : List Token) (params : SamplingParams)
    (tenant : String) : (Sequence.new requestId prompt params tenant).prompt = prompt :=
  List.take_length

variable {H : Type} {B : Blake3 H}

/-- A sequence that enters is admitted with a prompt or forked from another. -/
inductive Enters (s : Scheduler B) (seq : Sequence) : Prop
  | admitted {requestId : RequestId} {prompt : List Token} {params : SamplingParams} {tenant : String}
      (nonempty : prompt ≠ []) (new : (Sequence.new requestId prompt params tenant).Continues seq)
  | forked {parent : SeqId} {source : Sequence} (live : s.seqs parent = some source)
      (new : (Sequence.new source.requestId source.prompt source.params source.tenant).Continues seq)

structure Lineage (s t : Scheduler B) : Prop where
  cacheNamespace : t.cacheNamespace = s.cacheNamespace
  nextId : s.nextId ≤ t.nextId
  tenants : ∀ tenant, t.tenants tenant = s.tenants tenant ∨ t.tenants tenant = some (s.nsFor tenant)
  old : ∀ id seq', t.seqs id = some seq' → id < s.nextId → ∃ seq, s.seqs id = some seq ∧ seq.Continues seq'
  new : ∀ id seq', t.seqs id = some seq' → s.nextId ≤ id → Enters s seq'

namespace Lineage

variable {s t u : Scheduler B}

theorem nsFor (h : Lineage s t) (tenant : String) : t.nsFor tenant = s.nsFor tenant := by
  unfold Scheduler.nsFor
  rw [h.cacheNamespace]
  split
  · rfl
  · rename_i other
    rcases h.tenants tenant with same | derived
    · rw [same]
    · rw [derived, Scheduler.nsFor, if_neg other]
      rfl

theorem trans (h : Lineage s t) (k : Lineage t u) : Lineage s u where
  cacheNamespace := k.cacheNamespace.trans h.cacheNamespace
  nextId := Nat.le_trans h.nextId k.nextId
  tenants tenant := by
    rcases k.tenants tenant with same | derived
    · rw [same]
      exact h.tenants tenant
    · rw [derived, h.nsFor]
      exact .inr rfl
  old id seq' live lt := by
    obtain ⟨mid, live', c⟩ := k.old id seq' live (Nat.lt_of_lt_of_le lt h.nextId)
    obtain ⟨seq, live'', c'⟩ := h.old id mid live' lt
    exact ⟨seq, live'', c'.trans c⟩
  new id seq' live ge := by
    rcases Nat.lt_or_ge id t.nextId with lt | ge'
    · obtain ⟨mid, live', c⟩ := k.old id seq' live lt
      cases h.new id mid live' ge with
      | admitted nonempty new => exact .admitted nonempty (new.trans c)
      | forked parent new => exact .forked parent (new.trans c)
    · cases k.new id seq' live ge' with
      | admitted nonempty new => exact .admitted nonempty new
      | @forked parent source live' new =>
        rcases Nat.lt_or_ge parent s.nextId with lt | ge
        · obtain ⟨seq, live'', c⟩ := h.old parent source live' lt
          rw [c.requestId, c.prompt, c.params, c.tenant] at new
          exact .forked live'' new
        · -- forked from one that entered itself since
          cases h.new parent source live' ge with
          | @admitted requestId prompt params tenant nonempty entered =>
            rw [entered.requestId, entered.prompt, entered.params, entered.tenant,
              Sequence.new_prompt] at new
            exact .admitted nonempty new
          | @forked parent' source' live'' entered =>
            rw [entered.requestId, entered.prompt, entered.params, entered.tenant,
              Sequence.new_prompt] at new
            exact .forked live'' new

/-- Nothing enters, and the sequences are those before or go on from them. -/
theorem of_seqs (q : Queued s) (cacheNamespace : t.cacheNamespace = s.cacheNamespace)
    (nextId : t.nextId = s.nextId) (tenants : t.tenants = s.tenants)
    (seqs : ∀ id seq', t.seqs id = some seq' → ∃ seq, s.seqs id = some seq ∧ seq.Continues seq') :
    Lineage s t where
  cacheNamespace := cacheNamespace
  nextId := Nat.le_of_eq nextId.symm
  tenants tenant := .inl (congrFun tenants tenant)
  old id seq' live _ := seqs id seq' live
  new id seq' live ge := by
    obtain ⟨seq, live', -⟩ := seqs id seq' live
    exact absurd (q.fresh id seq live') (Nat.not_lt.mpr ge)

theorem refl (s : Scheduler B) (q : Queued s) : Lineage s s :=
  .of_seqs q rfl rfl rfl fun _ seq' live => ⟨seq', live, .refl _⟩

/-- One sequence goes on. -/
theorem update (q : Queued s) {id : SeqId} {old new : Sequence} (live : s.seqs id = some old)
    (continues : old.Continues new) (cacheNamespace : t.cacheNamespace = s.cacheNamespace)
    (nextId : t.nextId = s.nextId) (tenants : t.tenants = s.tenants)
    (seqs : t.seqs = Function.update s.seqs id (some new)) : Lineage s t := by
  refine .of_seqs q cacheNamespace nextId tenants fun x seq' live' => ?_
  rw [seqs, Function.update_apply] at live'
  split at live'
  · rename_i same
    exact ⟨old, same ▸ live, Option.some.inj live' ▸ continues⟩
  · exact ⟨seq', live', .refl _⟩

/-- A namespace is derived. -/
theorem derive (q : Queued s) (tenant : String) : Lineage s (s.setTenants (s.tenantsFor tenant)) where
  cacheNamespace := rfl
  nextId := Nat.le_refl _
  tenants other := by
    change s.tenantsFor tenant other = _ ∨ s.tenantsFor tenant other = _
    unfold Scheduler.tenantsFor
    split
    · exact .inl rfl
    · rw [Function.update_apply]
      split
      · rename_i same
        exact .inr (same ▸ rfl)
      · exact .inl rfl
  old id seq' live _ := ⟨seq', live, .refl _⟩
  new id seq' live ge := absurd (q.fresh id seq' live) (Nat.not_lt.mpr ge)

/-- A sequence enters under the next id. -/
theorem enter (q : Queued s) {new : Sequence} (enters : Enters s new)
    (cacheNamespace : t.cacheNamespace = s.cacheNamespace) (nextId : t.nextId = s.nextId + 1)
    (tenants : t.tenants = s.tenants) (seqs : t.seqs = Function.update s.seqs s.nextId (some new)) :
    Lineage s t where
  cacheNamespace := cacheNamespace
  nextId := by rw [nextId]; exact Nat.le_succ _
  tenants tenant := .inl (congrFun tenants tenant)
  old id seq' live lt := by
    rw [seqs, Function.update_of_ne (Nat.ne_of_lt lt)] at live
    exact ⟨seq', live, .refl _⟩
  new id seq' live ge := by
    rw [seqs, Function.update_apply] at live
    split at live
    · exact Option.some.inj live ▸ enters
    · exact absurd (q.fresh id seq' live) (Nat.not_lt.mpr ge)

end Lineage

section Calls

variable [DecidableEq H] {s t : Scheduler B}

theorem passStep_lineage {p p' : Pass B} (h : PassStep p p') (q : Queued p.scheduler) :
    Lineage p.scheduler p'.scheduler := by
  cases h with
  | batch run new live chunk took pushed =>
    exact .update q live (by exact ⟨rfl, rfl, rfl, rfl, List.prefix_rfl⟩) rfl rfl rfl rfl
  | preempt run new live chunk took =>
    exact .update q live (by exact ⟨rfl, rfl, rfl, rfl, List.prefix_rfl⟩) rfl rfl rfl rfl
  | start head live budget room hit fits took =>
    exact .trans (.derive q _) (.update (q.congr rfl rfl (funext fun place => by cases place <;> rfl))
      live (by exact ⟨rfl, rfl, rfl, rfl, List.prefix_rfl⟩) rfl rfl rfl rfl)
  | refuse head live hit took =>
    exact .trans (.derive q _) (.of_seqs (q.congr rfl rfl (funext fun place => by cases place <;> rfl))
      rfl rfl rfl fun _ seq' live => ⟨seq', live, .refl _⟩)

theorem passSteps_lineage {p p' : Pass B} (h : PassSteps p p') (q : Queued p.scheduler) :
    Lineage p.scheduler p'.scheduler := by
  induction h with
  | refl => exact .refl _ q
  | tail first step ih => exact ih.trans (passStep_lineage step (passSteps_queued first q))

omit [DecidableEq H] in
theorem admit_lineage (q : Queued s) (requestId : RequestId) (prompt : List Token)
    (params : SamplingParams) (tenant : String) :
    Lineage s (s.admitRequest requestId prompt params tenant).1 := by
  unfold Scheduler.admitRequest
  split
  · exact .refl s q
  · split
    · exact .refl s q
    · rename_i nonempty _
      exact .enter q (.admitted nonempty (.refl _)) rfl rfl rfl rfl

omit [DecidableEq H] in
theorem finish_lineage (q : Queued s) (id : SeqId) (reason : FinishReason) :
    Lineage s (s.finish id reason) := by
  rcases finish_cases s id reason with same | ⟨seq, live, -, eq⟩
  · rw [same]
    exact .refl s q
  · rw [eq]
    exact .update q live (by exact ⟨rfl, rfl, rfl, rfl, List.prefix_rfl⟩) rfl rfl rfl rfl

omit [DecidableEq H] in
theorem cancel_lineage (q : Queued s) (requestId : RequestId) : Lineage s (s.cancel requestId).1 := by
  rw [cancel_eq]
  generalize s.sequencesOf requestId = ids
  induction ids generalizing s with
  | nil => exact .refl s q
  | cons id ids ih => exact (finish_lineage q id .cancelled).trans (ih (finish_queued q id .cancelled))

omit [DecidableEq H] in
theorem setPool_lineage (q : Queued s) (pool : BlockPool H) : Lineage s (s.setPool pool) :=
  .of_seqs q rfl rfl rfl fun _ seq' live => ⟨seq', live, .refl _⟩

theorem forkChildren_lineage {parent : SeqId} {seq : Sequence} (q : Queued s)
    (live : s.seqs parent = some seq) (n : Nat) (out : Fork) :
    Lineage s (Scheduler.forkChildren (Scheduler.forkSource seq) n out s).1 := by
  induction n generalizing s out with
  | zero => exact .refl s q
  | succ n ih =>
    unfold Scheduler.forkChildren
    rcases Scheduler.childBlocks (Scheduler.forkSource seq) s.cfg.blockSize s.pool with
      ⟨pool, e | ⟨blocks, copy⟩⟩
    · exact setPool_lineage q pool
    · have old : parent ≠ s.nextId := Nat.ne_of_lt (q.fresh parent seq live)
      have entered : Lineage s ((s.setPool pool).addFork (Scheduler.forkSource seq) blocks) :=
        .enter q (.forked live (by exact ⟨rfl, rfl, rfl, rfl, List.prefix_rfl⟩)) rfl rfl rfl rfl
      exact entered.trans (ih (addFork_queued (setPool_queued q pool) _ blocks)
        ((Function.update_of_ne old ..).trans live) _)

theorem fork_lineage (q : Queued s) (parent : SeqId) (n : Nat) : Lineage s (s.fork parent n).1 := by
  unfold Scheduler.fork
  split
  · exact .refl s q
  · rename_i seq live
    split
    · exact .refl s q
    · exact forkChildren_lineage q live n {}

theorem seedFork_lineage (q : Queued s) (id : SeqId) (token : Token) :
    Lineage s (s.seedFork id token).1 := by
  unfold Scheduler.seedFork
  cases live : s.seqs id with
  | none => exact .refl s q
  | some seq =>
    simp only
    rcases takeBlocks BlockPool.allocateGuarded _ s.pool with ⟨pool, taken, failed⟩
    have seeded : Lineage s ((s.setPool pool).setSeq id
        ((seq.pushToken token).withBlocks ((seq.pushToken token).blocks ++ taken))) :=
      .update q live (by exact ⟨rfl, rfl, rfl, rfl, List.prefix_append _ _⟩) rfl rfl rfl rfl
    cases failed <;> exact seeded

omit [DecidableEq H] in
theorem advanceOne_lineage (h : Queued s) (id : SeqId) (q : Nat) : Lineage s (s.advanceOne id q) := by
  unfold Scheduler.advanceOne
  split
  · exact .refl s h
  · rename_i seq live
    refine .update h live ?_ rfl rfl rfl rfl
    split <;> exact ⟨rfl, rfl, rfl, rfl, List.prefix_rfl⟩

omit [DecidableEq H] in
theorem advanceLoop_lineage (q : Queued s) {ids : List SeqId} {cu : List UInt32}
    (e : Scheduler.advanceLoop ids cu s = some t) : Lineage s t :=
  (advanceLoop_preserves (P := fun t => Queued t ∧ Lineage s t)
    (fun _ id n h => ⟨advanceOne_queued h.1 id n, h.2.trans (advanceOne_lineage h.1 id n)⟩)
    ⟨q, .refl s q⟩ e).2

omit [DecidableEq H] in
theorem pushSampled_lineage (q : Queued s) (id : SeqId) (token : Token) :
    Lineage s (s.pushSampled id token) := by
  cases live : s.seqs id with
  | none => simpa [Scheduler.pushSampled, live] using Lineage.refl s q
  | some seq =>
    have pushed : Lineage s (s.setSeq id (seq.pushToken token)) :=
      .update q live (by exact ⟨rfl, rfl, rfl, rfl, List.prefix_append _ _⟩) rfl rfl rfl rfl
    have queued : Queued (s.setSeq id (seq.pushToken token)) :=
      q.keep live (by rfl) rfl rfl (funext fun place => by cases place <;> rfl) (q.idle id seq live)
    rcases pushSampled_cases live token with e | ⟨reason, -, e⟩ <;> rw [e]
    · exact pushed
    · exact pushed.trans (finish_lineage queued id reason)

omit [DecidableEq H] in
theorem sampledLoop_lineage (q : Queued s) (pairs : List (SeqId × Token)) :
    Lineage s (s.sampledLoop pairs) := by
  unfold Scheduler.sampledLoop
  induction pairs generalizing s with
  | nil => exact .refl s q
  | cons p pairs ih => exact (pushSampled_lineage q p.1 p.2).trans (ih (pushSampled_queued q p.1 p.2))

theorem publishOne_lineage (q : Queued s) {id : SeqId} (e : s.publishOne id = some t) :
    Lineage s t := by
  rcases publishOne_cases e with rfl | ⟨seq, pool, swaps, blocks, pool', live, -, -, -, -, rfl⟩
  · exact .refl _ q
  · exact .trans (.derive q seq.tenant)
      (.update (q.congr rfl rfl (funext fun place => by cases place <;> rfl)) live
        (by exact ⟨rfl, rfl, rfl, rfl, List.prefix_rfl⟩) rfl rfl rfl rfl)

theorem publishLoop_lineage (q : Queued s) {ids : List SeqId}
    (e : Scheduler.publishLoop ids s = some t) : Lineage s t := by
  induction ids generalizing s with
  | nil => simp only [Scheduler.publishLoop, Option.some.injEq] at e; exact e ▸ .refl s q
  | cons id ids ih =>
    obtain ⟨s₁, one, rest⟩ := bind_some e
    exact (publishOne_lineage q one).trans (ih (publishOne_queued q one) rest)

theorem commit_lineage (q : Queued s) {plan : StepPlan} {sampled : List Token}
    (e : s.commit plan sampled = some t) : Lineage s t := by
  obtain ⟨s₁, advanced, e⟩ := bind_some e
  have queued := advanceLoop_queued q advanced
  have pushed := (advanceLoop_lineage q advanced).trans
    (sampledLoop_lineage queued (plan.sampledSeqs.zip sampled))
  unfold Scheduler.publishFullBlocks at e
  split at e
  · exact pushed.trans (publishLoop_lineage (sampledLoop_queued queued _) e)
  · exact Option.some.inj e ▸ pushed

omit [DecidableEq H] in
/-- What is drained was there; the rest is as it was. -/
theorem drainLoop_seqs {ids : List SeqId} {id : SeqId} {seq : Sequence}
    (live : (Scheduler.drainLoop ids s).1.seqs id = some seq) : s.seqs id = some seq := by
  induction ids generalizing s with
  | nil => exact live
  | cons x ids ih =>
    unfold Scheduler.drainLoop Scheduler.drainOne at live
    cases known : s.seqs x with
    | none => simp only [known] at live; exact ih live
    | some old =>
      simp only [known] at live
      have := ih live
      simp only [Function.update_apply] at this
      split at this
      · simp at this
      · exact this

/-- Draining leaves all but the sequences and their requests. -/
structure Emptied (s t : Scheduler B) : Prop where
  cfg : t.cfg = s.cfg
  pool : t.pool = s.pool
  cacheNamespace : t.cacheNamespace = s.cacheNamespace
  nextId : t.nextId = s.nextId
  tenants : t.tenants = s.tenants

omit [DecidableEq H] in
theorem drainLoop_emptied (ids : List SeqId) (s : Scheduler B) : Emptied s (Scheduler.drainLoop ids s).1 := by
  induction ids generalizing s with
  | nil => exact ⟨rfl, rfl, rfl, rfl, rfl⟩
  | cons x ids ih =>
    unfold Scheduler.drainLoop Scheduler.drainOne
    cases s.seqs x with
    | none => exact ih s
    | some seq =>
      obtain ⟨cfg, pool, ns, nextId, tenants⟩ := ih { s with
        seqs := Function.update s.seqs x none, byRequest := s.unfile x seq.requestId }
      exact ⟨cfg, pool, ns, nextId, tenants⟩

omit [DecidableEq H] in
theorem drainFinished_emptied (s : Scheduler B) : Emptied s s.drainFinished.1 := by
  obtain ⟨cfg, pool, ns, nextId, tenants⟩ := drainLoop_emptied s.finished (s.setFinished [])
  exact ⟨cfg, pool, ns, nextId, tenants⟩

omit [DecidableEq H] in
theorem drainFinished_lineage (q : Queued s) : Lineage s s.drainFinished.1 := by
  have emptied := drainFinished_emptied s
  exact .of_seqs q emptied.cacheNamespace emptied.nextId emptied.tenants fun id seq live =>
    ⟨seq, drainLoop_seqs (s := s.setFinished []) live, .refl _⟩

theorem step_lineage {l : Op × Outcome} (q : Queued s) (step : s.Step l t) : Lineage s t := by
  obtain ⟨op, outcome⟩ := l
  obtain ⟨-, e⟩ := step
  change s.exec op = some (t, outcome) at e
  cases op with
  | admitRequest requestId prompt params tenant =>
    obtain ⟨rfl, -⟩ := Prod.mk.inj (Option.some.inj e)
    exact admit_lineage q requestId prompt params tenant
  | schedule =>
    obtain ⟨⟨s', plan⟩, scheduled, eq⟩ := Option.map_eq_some_iff.mp e
    obtain ⟨rfl, -⟩ := Prod.mk.inj eq
    obtain ⟨p, steps, rfl, -⟩ := schedule_steps scheduled q
    exact passSteps_lineage steps q
  | commit plan sampled =>
    obtain ⟨s', committed, eq⟩ := Option.map_eq_some_iff.mp e
    obtain ⟨rfl, -⟩ := Prod.mk.inj eq
    exact commit_lineage q committed
  | fork parent n =>
    obtain ⟨rfl, -⟩ := Prod.mk.inj (Option.some.inj e)
    exact fork_lineage q parent n
  | seedFork id token =>
    obtain ⟨rfl, -⟩ := Prod.mk.inj (Option.some.inj e)
    exact seedFork_lineage q id token
  | cancel requestId =>
    obtain ⟨rfl, -⟩ := Prod.mk.inj (Option.some.inj e)
    exact cancel_lineage q requestId
  | finishWith id reason =>
    obtain ⟨rfl, -⟩ := Prod.mk.inj (Option.some.inj e)
    exact finish_lineage q id reason
  | drainFinished =>
    obtain ⟨rfl, -⟩ := Prod.mk.inj (Option.some.inj e)
    exact drainFinished_lineage q

/-- Every prompt has a token, and every namespace kept is its tenant's. -/
structure Regular (s : Scheduler B) : Prop where
  prompts : ∀ id seq, s.seqs id = some seq → 0 < seq.promptLen
  memo : ∀ tenant ns, s.tenants tenant = some ns → ns = s.cacheNamespace.forTenant tenant

omit [DecidableEq H] in
theorem Regular.nsFor (h : Regular s) (tenant : String) :
    s.nsFor tenant = s.cacheNamespace.forTenant tenant := by
  unfold Scheduler.nsFor
  split
  · rename_i own
    rw [own, CacheNamespace.forTenant_tenant]
  · cases known : s.tenants tenant with
    | none => rfl
    | some ns => exact h.memo tenant ns known

omit [DecidableEq H] in
theorem Regular.lineage (h : Regular s) (l : Lineage s t) : Regular t where
  prompts id seq' live := by
    rcases Nat.lt_or_ge id s.nextId with lt | ge
    · obtain ⟨seq, live', c⟩ := l.old id seq' live lt
      rw [c.promptLen]
      exact h.prompts id seq live'
    · cases l.new id seq' live ge with
      | admitted nonempty c =>
        rw [c.promptLen]
        exact List.length_pos_iff.mpr nonempty
      | @forked parent source live' c =>
        rw [c.promptLen]
        have := h.prompts parent source live'
        have := Nat.le_trans source.promptLen_le source.target_le
        simp only [Sequence.new_promptLen, Sequence.prompt, List.length_take]
        omega
  memo tenant ns known := by
    rw [l.cacheNamespace]
    rcases l.tenants tenant with same | derived
    · exact h.memo tenant ns (same ▸ known)
    · rw [derived] at known
      rw [← Option.some.inj known]
      exact h.nsFor tenant

theorem run_regular {cfg : SchedulerConfig} {pool : BlockPool H} {ns : CacheNamespace B}
    {eos : List Token} {ls : List (Op × Outcome)}
    (run : Run Scheduler.Step (Scheduler.new cfg pool ns eos) ls s) : Queued s ∧ Regular s :=
  run.invariant (fun s => Queued s ∧ Regular s)
    ⟨new_queued cfg pool ns eos, by simp [Scheduler.new], by simp [Scheduler.new]⟩
    fun _ _ _ h step => ⟨step_queued h.1 step, h.2.lineage (step_lineage h.1 step)⟩

end Calls

end Vapi.Engine
