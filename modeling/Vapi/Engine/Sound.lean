import Vapi.Engine.Wellformed

/-!
# What holds of a scheduler between calls

`Sound` gathers the invariants of the scheduler. Every call keeps them, and a
schedule of a sound scheduler always makes a plan.
-/

namespace Vapi.Engine

open Vapi.Cache

variable {H : Type} {B : Blake3 H}

/-- A running sequence has room for its known text and one token more. -/
def Roomy (s : Scheduler B) : Prop :=
  ∀ id seq, s.seqs id = some seq → seq.status.place = .running →
    seq.prefillTarget < seq.blocks.length * s.cfg.blockSize

theorem Roomy.change {s t : Scheduler B} (h : Roomy s) {id : SeqId} {new : Sequence} (cfg : t.cfg = s.cfg)
    (seqs : t.seqs = Function.update s.seqs id (some new))
    (room : new.status.place = .running → new.prefillTarget < new.blocks.length * s.cfg.blockSize) :
    Roomy t := by
  intro x seq live
  rw [cfg]
  rw [seqs, Function.update_apply] at live
  split at live
  · exact Option.some.inj live ▸ room
  · exact h x seq live

variable [DecidableEq H]

structure Sound (base s : Scheduler B) : Prop where
  balanced : ∃ extra, Balanced base s extra
  regular : Regular s
  exclusive : Exclusive s
  seqs : SeqsOk s
  roomy : Roomy s

namespace Sound

variable {base s t : Scheduler B}

omit [DecidableEq H] in
theorem queued (h : Sound base s) : Queued s := h.balanced.elim fun _ b => b.queued

omit [DecidableEq H] in
theorem wf (h : Sound base s) : Wf s.pool := h.balanced.elim fun _ b => b.wf

omit [DecidableEq H] in
theorem setup (h : Sound base s) : SameSetup base s := h.balanced.elim fun _ b => b.setup

omit [DecidableEq H] in
theorem blockSize (h : Sound base s) (same : base.pool.blockSize = base.cfg.blockSize) :
    s.pool.blockSize = s.cfg.blockSize := by
  rw [h.setup.shape.blockSize, same, h.setup.cfg]

end Sound

section Passes

variable {base : Scheduler B} {p p' : Pass B}

theorem passStep_roomy (step : PassStep p p') (wf : Wf p.scheduler.pool)
    (size : 0 < p.scheduler.cfg.blockSize)
    (same : p.scheduler.pool.blockSize = p.scheduler.cfg.blockSize) (h : Roomy p.scheduler) :
    Roomy p'.scheduler := by
  cases step with
  | @batch id seq n pool taken plan run new live chunk took pushed =>
    refine h.change rfl rfl fun place => ?_
    have := h id seq live place
    refine Nat.lt_of_lt_of_le this (Nat.mul_le_mul_right _ ?_)
    simp
  | preempt run new live chunk took => exact h.change rfl rfl fun place => (by cases place)
  | @start id rest seq found pool matched taken cached head live budget room hit fits took =>
    obtain ⟨prefix_, -⟩ := matchCached_spec wf hit
    have shape := prefix_.counts.shape
    have enough := le_blocksFor_mul (p := found) (shape.blockSize ▸ same ▸ size) (seq.prefillTarget + 1)
    have length := takeBlocks_length prefix_.counts.wf took
    refine h.change rfl rfl fun _ => ?_
    change seq.prefillTarget < (matched ++ taken).length * p.scheduler.cfg.blockSize
    rw [shape.blockSize, same] at enough
    refine Nat.lt_of_lt_of_le (Nat.lt_of_succ_le enough) (Nat.mul_le_mul_right _ ?_)
    rw [List.length_append]
    omega
  | refuse head live hit took => exact h

theorem PassSound.sound (size : 0 < base.cfg.blockSize) (same : base.pool.blockSize = base.cfg.blockSize)
    (ok : PassSound base p) (e : Exclusive p.scheduler) (r : Roomy p.scheduler) (steps : PassSteps p p') :
    Sound base p'.scheduler := by
  have all : PassSound base p' ∧ Exclusive p'.scheduler ∧ Roomy p'.scheduler := by
    induction steps with
    | refl => exact ⟨ok, e, r⟩
    | tail _ step ih =>
      obtain ⟨ok, e, r⟩ := ih
      have ready := ok.toPassOk.ready size same
      obtain ⟨extra, balanced⟩ := ok.balanced
      exact ⟨ok.step size same step, passStep_exclusive step balanced e ready.size ready.blockSize,
        passStep_roomy step ready.wf ready.size ready.blockSize r⟩
  obtain ⟨ok, e, r⟩ := all
  exact ⟨ok.balanced, ok.regular, e, ok.seqs, r⟩

/-- What a schedule makes: a plan of entries as the scheduler now has them, all
running, and no more tokens than a batch may have. -/
structure Scheduled (base s t : Scheduler B) (plan : StepPlan) (es : List Entry) : Prop where
  sound : Sound base t
  planFor : ∃ core, PlanFor t core es ∧ plan = core.measured
  running : ∀ e ∈ es, e.seq.status.place = .running
  budget : (es.map Entry.q).sum ≤ s.cfg.maxBatchedTokens
  limited : ∀ e ∈ es, e.Limited s.cfg
  lineage : Lineage s t

omit [DecidableEq H] in
/-- A scheduling pass starts with nothing batched. -/
theorem Sound.pass {s : Scheduler B} (h : Sound base s) : PassSound base ⟨s, {}, s.cfg.maxBatchedTokens⟩ :=
  ⟨⟨h.balanced, h.regular, by simp [Batched], ⟨[], rfl, rfl, rfl, by simp, by simp, List.nodup_nil⟩⟩, h.seqs⟩

theorem schedule_sound {s : Scheduler B} (size : 0 < base.cfg.blockSize)
    (same : base.pool.blockSize = base.cfg.blockSize) (h : Sound base s) :
    ∃ t plan es, s.schedule = some (t, plan) ∧ Scheduled base s t plan es := by
  have empty : PlanFor s {} [] := ⟨rfl, rfl, rfl, by simp, by simp, List.nodup_nil⟩
  have start := h.pass
  obtain ⟨t, plan, scheduled⟩ := schedule_total size same start
  obtain ⟨p, steps, rfl, rfl⟩ := schedule_steps scheduled h.queued
  obtain ⟨es, planFor, sum, limited⟩ := passSteps_planFor steps (h.setup.cfg ▸ size) h.queued start.batched empty
  have sound := PassSound.sound size same start h.exclusive h.roomy steps
  have ok := start.steps size same steps
  refine ⟨_, _, es, scheduled, sound, ⟨p.plan, planFor, rfl⟩, fun e he => ?_, ?_,
    fun e he => (limited e he).resolve_left (by simp), passSteps_lineage steps h.queued⟩
  · have run := ok.batched e.id (planFor.batchSeqs ▸ List.mem_map_of_mem he)
    exact ok.queued.place_of_running run (planFor.current e he)
  · simp only [List.map_nil, List.sum_nil, Nat.zero_add] at sum
    omega

end Passes

section Flights

variable {s t : Scheduler B} {plan : StepPlan} {es : List Entry}

omit [DecidableEq H] in
/-- A plan stays in flight while its sequences at most finish and go. -/
theorem Flight.of_seqs (f : Flight s plan es) (cfg : t.cfg = s.cfg) (nextId : s.nextId ≤ t.nextId)
    (seqs : ∀ id, id < s.nextId → t.seqs id = s.seqs id ∨ t.seqs id = none ∨
      ∃ seq reason, s.seqs id = some seq ∧
        t.seqs id = some ((seq.withStatus (.finished reason)).withBlocks [])) :
    Flight t plan es where
  cuSeqlensQ := f.cuSeqlensQ
  batchSeqs := f.batchSeqs
  sampledSeqs := f.sampledSeqs
  covered := cfg ▸ f.covered
  nodup := f.nodup
  fits := f.fits
  running := f.running
  old e he := Nat.lt_of_lt_of_le (f.old e he) nextId
  flown e he := by
    rcases seqs e.id (f.old e he) with same | gone | ⟨seq, reason, live, finished⟩
    · rw [same]
      exact f.flown e he
    · exact .inl gone
    · refine .inr (.inr ⟨reason, finished.trans ?_⟩)
      rcases f.flown e he with none | here | ⟨_, here⟩
      · simp [live] at none
      · rw [Option.some.inj (live.symm.trans here)]
      · rw [Option.some.inj (live.symm.trans here)]
        rfl

omit [DecidableEq H] in
theorem finish_flown (s : Scheduler B) (id : SeqId) (reason : FinishReason) (x : SeqId) :
    (s.finish id reason).seqs x = s.seqs x ∨ ∃ seq r, s.seqs x = some seq ∧
      (s.finish id reason).seqs x = some ((seq.withStatus (.finished r)).withBlocks []) := by
  rcases finish_cases s id reason with same | ⟨seq, live, -, eq⟩
  · exact .inl (by rw [same])
  · rw [eq]
    by_cases here : x = id
    · subst here
      exact .inr ⟨seq, reason, live, Function.update_self ..⟩
    · exact .inl (Function.update_of_ne here ..)

omit [DecidableEq H] in
theorem cancel_flown (s : Scheduler B) (requestId : RequestId) (x : SeqId) :
    (s.cancel requestId).1.seqs x = s.seqs x ∨ ∃ seq r, s.seqs x = some seq ∧
      (s.cancel requestId).1.seqs x = some ((seq.withStatus (.finished r)).withBlocks []) := by
  rw [cancel_eq]
  generalize s.sequencesOf requestId = ids
  induction ids generalizing s with
  | nil => exact .inl rfl
  | cons id ids ih =>
    rw [List.foldl_cons]
    rcases ih (s.finish id .cancelled) with same | ⟨mid, r, live, finished⟩
    · rw [same]
      exact finish_flown s id .cancelled x
    · rcases finish_flown s id .cancelled x with same | ⟨seq, r', live', eq⟩
      · exact .inr ⟨mid, r, same ▸ live, finished⟩
      · obtain rfl := Option.some.inj (eq.symm.trans live)
        exact .inr ⟨seq, r, live', finished⟩

omit [DecidableEq H] in
theorem drainFinished_flown (s : Scheduler B) (x : SeqId) :
    s.drainFinished.1.seqs x = s.seqs x ∨ s.drainFinished.1.seqs x = none := by
  cases after : s.drainFinished.1.seqs x with
  | none => exact .inr rfl
  | some seq => exact .inl (drainLoop_seqs (s := s.setFinished []) after).symm

end Flights

section Calls

variable {base s t : Scheduler B}

omit [DecidableEq H] in
/-- Sequences at most finish and go. -/
theorem SeqsOk.of_flown (h : SeqsOk s) (cfg : t.cfg = s.cfg)
    (seqs : ∀ id, t.seqs id = s.seqs id ∨ t.seqs id = none ∨
      ∃ seq reason, s.seqs id = some seq ∧
        t.seqs id = some ((seq.withStatus (.finished reason)).withBlocks [])) : SeqsOk t := by
  intro id seq live
  rw [cfg]
  rcases seqs id with same | gone | ⟨old, reason, live', eq⟩
  · exact h id seq (same ▸ live)
  · simp [gone] at live
  · obtain rfl := Option.some.inj (eq.symm.trans live)
    have old := h id old live'
    exact ⟨old.prompt, old.promptFits, fun place => (by cases place), fun place => (by cases place)⟩

omit [DecidableEq H] in
theorem Roomy.of_flown (h : Roomy s) (cfg : t.cfg = s.cfg)
    (seqs : ∀ id, t.seqs id = s.seqs id ∨ t.seqs id = none ∨
      ∃ seq reason, s.seqs id = some seq ∧
        t.seqs id = some ((seq.withStatus (.finished reason)).withBlocks [])) : Roomy t := by
  intro id seq live place
  rw [cfg]
  rcases seqs id with same | gone | ⟨old, reason, -, eq⟩
  · exact h id seq (same ▸ live) place
  · simp [gone] at live
  · obtain rfl := Option.some.inj (eq.symm.trans live)
    cases place

omit [DecidableEq H] in
theorem Sound.admitted (h : Sound base s) (requestId : RequestId) (prompt : List Token)
    (params : SamplingParams) (tenant : String) :
    Sound base (s.admitRequest requestId prompt params tenant).1 := by
  obtain ⟨extra, balanced⟩ := h.balanced
  refine ⟨⟨extra, admit_balanced balanced requestId prompt params tenant⟩,
    h.regular.lineage (admit_lineage h.queued requestId prompt params tenant),
    admit_exclusive h.exclusive requestId prompt params tenant, ?_, ?_⟩
  · unfold Scheduler.admitRequest
    split
    · exact h.seqs
    · split
      · exact h.seqs
      · rename_i some_ fits
        refine h.seqs.change rfl rfl ⟨List.length_pos_iff.mpr some_, by simpa using fits, fun _ => ⟨rfl, ?_⟩,
          fun place => (by cases place)⟩
        simp only [Sequence.new_tokens]
        omega
  · unfold Scheduler.admitRequest
    split
    · exact h.roomy
    · split
      · exact h.roomy
      · exact h.roomy.change rfl rfl fun place => (by cases place)

omit [DecidableEq H] in
theorem Sound.finish (h : Sound base s) (id : SeqId) (reason : FinishReason) :
    Sound base (s.finish id reason) := by
  obtain ⟨extra, balanced⟩ := h.balanced
  have cfg : (s.finish id reason).cfg = s.cfg :=
    (finish_balanced balanced id reason).setup.cfg.trans h.setup.cfg.symm
  exact ⟨⟨extra, finish_balanced balanced id reason⟩, h.regular.lineage (finish_lineage h.queued id reason),
    finish_exclusive balanced h.exclusive id reason,
    h.seqs.of_flown cfg fun x => (finish_flown s id reason x).imp_right .inr,
    h.roomy.of_flown cfg fun x => (finish_flown s id reason x).imp_right .inr⟩

omit [DecidableEq H] in
theorem Sound.cancel (h : Sound base s) (requestId : RequestId) : Sound base (s.cancel requestId).1 := by
  rw [cancel_eq]
  generalize s.sequencesOf requestId = ids
  induction ids generalizing s with
  | nil => exact h
  | cons id ids ih => exact ih (h.finish id .cancelled)

omit [DecidableEq H] in
theorem Sound.drainFinished (h : Sound base s) : Sound base s.drainFinished.1 := by
  obtain ⟨extra, balanced⟩ := h.balanced
  have balanced' := drainFinished_balanced balanced
  have cfg : s.drainFinished.1.cfg = s.cfg := balanced'.setup.cfg.trans h.setup.cfg.symm
  exact ⟨⟨extra, balanced'⟩, h.regular.lineage (drainFinished_lineage h.queued),
    drainFinished_exclusive h.exclusive,
    h.seqs.of_flown cfg fun x => (drainFinished_flown s x).imp_right .inl,
    h.roomy.of_flown cfg fun x => (drainFinished_flown s x).imp_right .inl⟩

end Calls

section Commits

variable {base s t : Scheduler B} {plan : StepPlan} {es : List Entry} {tokens : List Token}

theorem Sequence.checkFinished_none {seq : Sequence} {eos : List Token} {maxContext : Nat}
    (some_ : seq.tokens ≠ []) (h : seq.checkFinished eos maxContext = none) :
    seq.tokens.length < maxContext ∧ seq.numGenerated < seq.params.maxTokens := by
  unfold Sequence.checkFinished at h
  rw [List.getLast?_eq_some_getLast some_] at h
  simp only at h
  split at h
  · cases h
  · split at h
    · cases h
    · split at h
      · cases h
      · split at h
        · cases h
        · exact ⟨by unfold Sequence.totalLen at *; omega, by omega⟩

omit [DecidableEq H] in
/-- What a flying entry's sequence is now. -/
theorem Flight.fields (f : Flight s plan es) {e : Entry} (he : e ∈ es) {seq : Sequence}
    (live : s.seqs e.id = some seq) :
    seq.tokens = e.seq.tokens ∧ seq.numComputed = e.seq.numComputed ∧ seq.tenant = e.seq.tenant ∧
      seq.promptLen = e.seq.promptLen ∧ seq.status.place ≠ .waiting ∧
      (seq.status.place = .running → seq = e.seq) := by
  rcases f.flown e he with none | same | ⟨reason, same⟩
  · simp [live] at none
  · obtain rfl := Option.some.inj (live.symm.trans same)
    exact ⟨rfl, rfl, rfl, rfl, by rw [f.running e he]; decide, fun _ => rfl⟩
  · obtain rfl := Option.some.inj (live.symm.trans same)
    exact ⟨rfl, rfl, rfl, rfl, by rintro ⟨⟩, by rintro ⟨⟩⟩

/-- A sequence that goes on running after a commit was running, and its last
token did not end it. -/
theorem Entry.after_running {eos : List Token} {maxContext : Nat} {token : Option Token} {e : Entry}
    {seq : Sequence} (place : (e.after eos maxContext token seq).status.place = .running) :
    seq.status.place = .running ∧
      ∀ t, token = some t → ((seq.advanced e.q).pushToken t).checkFinished eos maxContext = none ∧
        e.after eos maxContext token seq = (seq.advanced e.q).pushToken t := by
  have advanced := (seq.advanced_eq e.q).2.2.2.2.2.2.2.2
  cases token with
  | none => exact ⟨advanced ▸ place, fun t h => (by cases h)⟩
  | some token =>
    simp only [Entry.after, Sequence.sampled] at place ⊢
    split at place
    · rename_i going
      exact ⟨advanced ▸ place, fun t h => by
        obtain rfl := Option.some.inj h
        exact ⟨going, rfl⟩⟩
    · split at place
      · rename_i finished
        rw [SeqStatus.isFinished_iff] at finished
        change (seq.advanced e.q).status.place = _ at place
        rw [finished] at place
        cases place
      · cases place

theorem Entry.after_fields (eos : List Token) (maxContext : Nat) (token : Option Token) (e : Entry)
    (seq : Sequence) :
    (e.after eos maxContext token seq).promptLen = seq.promptLen ∧
    (e.after eos maxContext token seq).prefillTarget = seq.prefillTarget ∧
    (e.after eos maxContext token seq).tenant = seq.tenant := by
  obtain ⟨-, promptLen, -, -, target, tenant, -⟩ := seq.advanced_eq e.q
  cases token with
  | none => exact ⟨promptLen, target, tenant⟩
  | some token =>
    obtain ⟨-, promptLen', -, target', tenant', -⟩ := (seq.advanced e.q).sampled_eq eos maxContext token
    exact ⟨promptLen'.trans promptLen, target'.trans target, tenant'.trans tenant⟩

/-- A sequence that stays running keeps its blocks. -/
theorem Entry.after_blocks {eos : List Token} {maxContext : Nat} {token : Option Token} {e : Entry}
    {seq : Sequence} (place : (e.after eos maxContext token seq).status.place = .running) :
    (e.after eos maxContext token seq).blocks = seq.blocks := by
  have advanced := (seq.advanced_eq e.q).2.2.2.1
  cases token with
  | none => exact advanced
  | some token =>
    rw [((Entry.after_running place).2 token rfl).2]
    exact advanced

theorem Entry.after_place (eos : List Token) (maxContext : Nat) (token : Option Token) (e : Entry)
    (seq : Sequence) :
    (e.after eos maxContext token seq).status.place = seq.status.place ∨
      (e.after eos maxContext token seq).status.place = .finished := by
  have advanced := (seq.advanced_eq e.q).2.2.2.2.2.2.2.2
  cases token with
  | none => exact .inl advanced
  | some token =>
    simp only [Entry.after, Sequence.sampled]
    split
    · exact .inl advanced
    · split
      · exact .inl advanced
      · exact .inr rfl

omit [DecidableEq H] in
/-- A commit leaves a sequence with its last token to compute, or with some of
its known text. -/
theorem SeqOk.after (f : Flight s plan es) {e : Entry} (he : e ∈ es) {seq : Sequence} {cfg : SchedulerConfig}
    (eos : List Token) (token : Option Token) (live : s.seqs e.id = some seq) (ok : SeqOk cfg seq)
    (sampled : token.isSome = e.samples) : SeqOk cfg (e.after eos cfg.maxContext token seq) := by
  obtain ⟨known, computed, -, -, going, -⟩ := f.fields he live
  obtain ⟨promptLen, target, -⟩ := Entry.after_fields eos cfg.maxContext token e seq
  have covered := (f.covered e he).tokens
  have pos := (f.covered e he).pos
  have tokens' := Entry.after_tokens eos cfg.maxContext token e seq
  have computed' := Entry.after_numComputed eos cfg.maxContext token e seq
  have le := seq.target_le
  refine ⟨promptLen ▸ ok.prompt, promptLen ▸ ok.promptFits, fun place => ?_, fun place => ?_⟩
  · rcases Entry.after_place eos cfg.maxContext token e seq with same | finished
    · exact absurd (same ▸ place) going
    · rw [place] at finished
      cases finished
  · obtain ⟨was, last⟩ := Entry.after_running place
    obtain ⟨lt, fits, left⟩ := ok.running was
    unfold Entry.stop at covered
    rw [← known, ← computed] at covered
    cases token with
    | none =>
      have more : seq.numComputed + e.q < seq.tokens.length := by
        have : e.samples = false := by simpa using sampled.symm
        unfold Entry.samples Entry.stop Sequence.totalLen at this
        rw [← known, ← computed] at this
        simpa using this
      rw [Option.toList_none, List.append_nil] at tokens'
      rw [tokens', computed', target]
      exact ⟨more, fits, left.imp_right fun h => absurd more (by omega)⟩
    | some token =>
      have all : seq.tokens.length ≤ seq.numComputed + e.q := by
        have : e.samples = true := by simpa using sampled.symm
        unfold Entry.samples Entry.stop Sequence.totalLen at this
        rw [← known, ← computed] at this
        simpa using this
      obtain ⟨unended, eq⟩ := last token rfl
      have short := (Sequence.checkFinished_none (by simp) unended).1
      rw [← eq, tokens'] at short
      rw [tokens', computed', target]
      simp only [Option.toList_some, List.length_append, List.length_singleton] at short ⊢
      exact ⟨by omega, by omega, .inr ⟨by omega, by omega⟩⟩

/-- What a commit leaves under an id: the sequence there was, or what its entry
makes of it. -/
theorem commit_cases (f : Flight s plan es) (e : s.commit plan tokens = some t) {id : SeqId}
    {seq' : Sequence} (live' : t.seqs id = some seq') :
    ((∀ x ∈ es, x.id ≠ id) ∧ s.seqs id = some seq') ∨
    ∃ x ∈ es, x.id = id ∧ ∃ seq, s.seqs id = some seq ∧
      (x.after s.eosTokenIds s.cfg.maxContext (tokenFor es tokens id) seq).Republished seq' := by
  obtain ⟨same, kept⟩ := commit_seqs f e
  by_cases batched : ∃ x ∈ es, x.id = id
  · obtain ⟨x, hx, rfl⟩ := batched
    cases live : s.seqs x.id with
    | none => simp [same x.id (.inl live), live] at live'
    | some seq =>
      obtain ⟨seq'', live'', republished⟩ := kept x hx seq live
      obtain rfl := Option.some.inj (live''.symm.trans live')
      exact .inr ⟨x, hx, rfl, seq, rfl, republished⟩
  · have out : ∀ x ∈ es, x.id ≠ id := fun x hx eq => batched ⟨x, hx, eq⟩
    exact .inl ⟨out, same id (.inr out) ▸ live'⟩

omit [DecidableEq H] in
theorem tokenFor_isSome (nodup : (es.map Entry.id).Nodup) {e : Entry} (he : e ∈ es)
    (enough : tokens.length = ((es.filter Entry.samples).map Entry.id).length) :
    (tokenFor es tokens e.id).isSome = e.samples := by
  cases samples : e.samples with
  | true =>
    obtain ⟨token, eq⟩ := tokenFor_some he samples enough
    rw [eq]
    rfl
  | false =>
    have only : ∀ x ∈ es, x.id = e.id → x.samples = false := by
      intro x hx same
      rw [List.inj_on_of_nodup_map nodup hx he same]
      exact samples
    rw [tokenFor_none only]
    rfl

theorem Sound.commit (h : Sound base s) (f : Flight s plan es)
    (enough : tokens.length = plan.sampledSeqs.length) (e : s.commit plan tokens = some t) : Sound base t := by
  obtain ⟨extra, balanced⟩ := h.balanced
  have balanced' := commit_balanced balanced e
  have cfg : t.cfg = s.cfg := balanced'.setup.cfg.trans h.setup.cfg.symm
  rw [f.sampledSeqs] at enough
  refine ⟨⟨extra, balanced'⟩, h.regular.lineage (commit_lineage h.queued e),
    commit_exclusive balanced h.exclusive e, fun id seq' live' => ?_, fun id seq' live' place => ?_⟩
  · rw [cfg]
    rcases commit_cases f e live' with ⟨-, live⟩ | ⟨x, hx, rfl, seq, live, n, blocks, -, rfl⟩
    · exact h.seqs id seq' live
    · have ok := SeqOk.after f hx s.eosTokenIds _ live (h.seqs x.id seq live) (tokenFor_isSome f.nodup hx enough)
      exact ⟨ok.prompt, ok.promptFits, ok.waiting, ok.running⟩
  · rw [cfg]
    rcases commit_cases f e live' with ⟨-, live⟩ | ⟨x, hx, rfl, seq, live, n, blocks, length, rfl⟩
    · exact h.roomy id seq' live place
    · rw [Entry.after_blocks place] at length
      obtain ⟨was, -⟩ := Entry.after_running place
      change (x.after s.eosTokenIds s.cfg.maxContext (tokenFor es tokens x.id) seq).prefillTarget <
        blocks.length * s.cfg.blockSize
      rw [length, (Entry.after_fields ..).2.1]
      exact h.roomy x.id seq live was

end Commits

end Vapi.Engine
