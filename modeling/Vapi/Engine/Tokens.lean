import Vapi.Engine.Commit
import Vapi.Engine.Ends

/-!
# What a sequence says

Of a sequence its tokens, its parameters and whether it has finished: what each
call leaves of them, and what a commit and a fork make of them.
-/

namespace Vapi.Engine

open Vapi.Cache

/-- A sequence that has said the same and ended alike. -/
structure Sequence.Alike (a b : Sequence) : Prop where
  tokens : b.tokens = a.tokens
  promptLen : b.promptLen = a.promptLen
  params : b.params = a.params
  finished : ∀ reason, b.status = .finished reason ↔ a.status = .finished reason

namespace Sequence

variable {a b c : Sequence}

theorem Alike.refl (a : Sequence) : a.Alike a := ⟨rfl, rfl, rfl, fun _ => .rfl⟩

theorem Alike.trans (h : a.Alike b) (k : b.Alike c) : a.Alike c :=
  ⟨k.tokens.trans h.tokens, k.promptLen.trans h.promptLen, k.params.trans h.params,
    fun reason => (k.finished reason).trans (h.finished reason)⟩

theorem Republished.alike (h : a.Republished b) : a.Alike b := by
  obtain ⟨n, blocks, -, rfl⟩ := h
  exact ⟨rfl, rfl, rfl, fun _ => .rfl⟩

theorem place_finished {reason : FinishReason} (done : a.status = .finished reason) : a.status.place = .finished := by
  rw [done]
  rfl

/-- A sequence that is not finished and another one that is not. -/
theorem Alike.unfinished (tokens : b.tokens = a.tokens) (promptLen : b.promptLen = a.promptLen)
    (params : b.params = a.params)
    (before : a.status.place ≠ .finished) (after : b.status.place ≠ .finished) : a.Alike b :=
  ⟨tokens, promptLen, params, fun _ => ⟨fun done => absurd (place_finished done) after,
    fun done => absurd (place_finished done) before⟩⟩

theorem advanced_alike (q : Nat) (a : Sequence) : a.Alike (a.advanced q) := by
  unfold advanced
  split
  · rename_i prefilled
    have going : a.status = .prefilling := prefilled.2
    refine .unfinished rfl rfl rfl ?_ ?_
    · rw [going]
      exact Place.noConfusion
    · exact Place.noConfusion
  · exact ⟨rfl, rfl, rfl, fun _ => .rfl⟩

end Sequence

variable {H : Type} {B : Blake3 H} {s t u : Scheduler B}

/-- A call that leaves what every sequence has said. -/
structure Leaves (s t : Scheduler B) : Prop where
  cfg : t.cfg = s.cfg
  eos : t.eosTokenIds = s.eosTokenIds
  seqs : ∀ id seq, s.seqs id = some seq → ∃ seq', t.seqs id = some seq' ∧ seq.Alike seq'

namespace Leaves

theorem refl (s : Scheduler B) : Leaves s s := ⟨rfl, rfl, fun _ seq live => ⟨seq, live, .refl seq⟩⟩

theorem trans (h : Leaves s t) (k : Leaves t u) : Leaves s u where
  cfg := k.cfg.trans h.cfg
  eos := k.eos.trans h.eos
  seqs id seq live := by
    obtain ⟨seq', live', first⟩ := h.seqs id seq live
    obtain ⟨seq'', live'', second⟩ := k.seqs id seq' live'
    exact ⟨seq'', live'', first.trans second⟩

theorem update {id : SeqId} {old new : Sequence} (live : s.seqs id = some old)
    (seqs : t.seqs = Function.update s.seqs id (some new)) (cfg : t.cfg = s.cfg) (eos : t.eosTokenIds = s.eosTokenIds)
    (alike : old.Alike new) :
    Leaves s t := by
  refine ⟨cfg, eos, fun x seq here => ?_⟩
  rw [seqs]
  by_cases same : x = id
  · subst same
    obtain rfl := Option.some.inj (live.symm.trans here)
    exact ⟨new, Function.update_self .., alike⟩
  · exact ⟨seq, (Function.update_of_ne same ..).trans here, .refl seq⟩

end Leaves

section Calls

variable [DecidableEq H]

theorem passStep_leaves {p p' : Pass B} (h : PassStep p p') (q : Queued p.scheduler) :
    Leaves p.scheduler p'.scheduler := by
  cases h with
  | batch run new live chunk took pushed => exact .update live rfl rfl rfl ⟨rfl, rfl, rfl, fun _ => .rfl⟩
  | preempt run new live chunk took =>
    refine .update live rfl rfl rfl (.unfinished rfl rfl rfl ?_ Place.noConfusion)
    rw [q.place_of_running run live]
    exact Place.noConfusion
  | start head live budget room hit fits took =>
    refine .update live rfl rfl rfl (.unfinished rfl rfl rfl ?_ Place.noConfusion)
    obtain ⟨seq, there, place⟩ := (q.mem .waiting _).mp (head ▸ List.mem_cons_self)
    obtain rfl := Option.some.inj (live.symm.trans there)
    rw [place]
    exact Place.noConfusion
  | refuse head live hit took => exact ⟨rfl, rfl, fun _ seq here => ⟨seq, here, .refl seq⟩⟩

theorem passSteps_leaves {p p' : Pass B} (h : PassSteps p p') (q : Queued p.scheduler) :
    Leaves p.scheduler p'.scheduler := by
  induction h with
  | refl => exact .refl _
  | tail first step ih => exact ih.trans (passStep_leaves step (passSteps_queued first q))

omit [DecidableEq H] in
theorem advanceOne_leaves (s : Scheduler B) (id : SeqId) (q : Nat) : Leaves s (s.advanceOne id q) := by
  cases live : s.seqs id with
  | none =>
    unfold Scheduler.advanceOne
    rw [live]
    exact .refl s
  | some seq =>
    refine .update live ?_ ?_ ?_ (seq.advanced_alike q)
    · rw [advanceOne_seqs, live, Option.map_some]
    · unfold Scheduler.advanceOne
      rw [live]
      rfl
    · unfold Scheduler.advanceOne
      rw [live]
      rfl

omit [DecidableEq H] in
theorem advanceLoop_leaves {ids : List SeqId} {cu : List UInt32} (e : Scheduler.advanceLoop ids cu s = some t) :
    Leaves s t := by
  induction ids generalizing s cu with
  | nil =>
    obtain rfl := Option.some.inj e
    exact .refl s
  | cons id ids ih =>
    match cu, e with
    | lo :: hi :: cu, e => exact (advanceOne_leaves s id _).trans (ih e)

theorem publishOne_leaves {id : SeqId} (e : s.publishOne id = some t) : Leaves s t := by
  rcases publishOne_cases e with rfl | ⟨seq, pool, swaps, blocks, pool', live, -, -, -, -, rfl⟩
  · exact .refl _
  · exact .update live rfl rfl rfl ⟨rfl, rfl, rfl, fun _ => .rfl⟩

theorem publishLoop_leaves {ids : List SeqId} (e : Scheduler.publishLoop ids s = some t) : Leaves s t := by
  induction ids generalizing s with
  | nil =>
    obtain rfl := Option.some.inj e
    exact .refl s
  | cons id ids ih =>
    obtain ⟨s₁, one, rest⟩ := bind_some e
    exact (publishOne_leaves one).trans (ih rest)

/-- What is to be sampled for is running. -/
theorem schedule_sampled_running {plan : StepPlan} (q : Queued s) (e : s.schedule = some (t, plan)) :
    ∀ id ∈ plan.sampledSeqs, id ∈ t.running := by
  obtain ⟨p, steps, rfl, rfl⟩ := schedule_steps e q
  have drawn := passSteps_drawn steps ⟨List.nodup_nil, .refl _⟩
  have batched : Batched p := passSteps_batched steps fun _ none => by cases none
  exact fun id mem => batched id (drawn.sampled.subset mem)

/-- What a commit makes of each sequence: what was sampled for it is said. -/
theorem commit_tokens {plan : StepPlan} {tokens : List Token} (nodup : plan.sampledSeqs.Nodup)
    (e : s.commit plan tokens = some t) :
    t.cfg = s.cfg ∧ t.eosTokenIds = s.eosTokenIds ∧ ∀ id seq, s.seqs id = some seq → ∃ old seq', seq.Alike old ∧
      t.seqs id = some seq' ∧
      (match (plan.sampledSeqs.zip tokens).lookup id with
        | some token => old.sampled s.eosTokenIds s.cfg.maxContext token
        | none => old).Alike seq' := by
  obtain ⟨s₁, advanced, e⟩ := bind_some e
  have first := advanceLoop_leaves advanced
  have sub := map_fst_zip_prefix plan.sampledSeqs tokens
  have unique := sub.sublist.nodup nodup
  have sampled := fun id => foldl_seqs (f := fun s p => s.pushSampled p.1 p.2) (s := s₁)
    (g := fun token seq => seq.sampled s.eosTokenIds s.cfg.maxContext token)
    (fun t => t.cfg = s.cfg ∧ t.eosTokenIds = s.eosTokenIds)
    (fun t x fixed => ⟨pushSampled_fixed t x.1 x.2 fixed, by rw [pushSampled_seqs, fixed.1, fixed.2]⟩)
    unique ⟨first.cfg, first.eos⟩ id
  have last : Leaves (s₁.sampledLoop (plan.sampledSeqs.zip tokens)) t := by
    unfold Scheduler.publishFullBlocks at e
    split at e
    · exact publishLoop_leaves e
    · obtain rfl := Option.some.inj e
      exact .refl _
  have fixed := (sampled 0).1
  refine ⟨last.cfg.trans fixed.1, last.eos.trans fixed.2, fun id seq live => ?_⟩
  obtain ⟨old, live', alike⟩ := first.seqs id seq live
  have now := (sampled id).2
  rw [live'] at now
  refine ⟨old, ?_⟩
  cases found : (plan.sampledSeqs.zip tokens).lookup id with
  | none =>
    rw [found] at now
    obtain ⟨seq', there, same⟩ := last.seqs id old now
    exact ⟨seq', alike, there, same⟩
  | some token =>
    rw [found] at now
    obtain ⟨seq', there, same⟩ := last.seqs id _ now
    exact ⟨seq', alike, there, same⟩

end Calls

section Ends

/-- The sequence when it is finished, unless it is already. -/
def Sequence.ended (reason : FinishReason) (a : Sequence) : Sequence :=
  if a.status.isFinished then a else (a.withStatus (.finished reason)).withBlocks []

theorem Sequence.ended_ended (reason : FinishReason) (a : Sequence) : (a.ended reason).ended reason = a.ended reason :=
    by
  unfold Sequence.ended
  by_cases done : a.status.isFinished
  · rw [if_pos done, if_pos done]
  · rw [if_neg done]
    exact if_pos rfl

/-- Finishing sequences in turn. -/
theorem finishes_seqs (ids : List SeqId) (reason : FinishReason) (s : Scheduler B) :
    (ids.foldl (fun s id => s.finish id reason) s).cfg = s.cfg ∧
    (ids.foldl (fun s id => s.finish id reason) s).eosTokenIds = s.eosTokenIds ∧
    ∀ id, (ids.foldl (fun s id => s.finish id reason) s).seqs id =
      if id ∈ ids then (s.seqs id).map (·.ended reason) else s.seqs id := by
  induction ids generalizing s with
  | nil => exact ⟨rfl, rfl, fun _ => rfl⟩
  | cons x ids ih =>
    obtain ⟨cfg, eos, seqs⟩ := ih (s.finish x reason)
    have fixed : (s.finish x reason).cfg = s.cfg ∧ (s.finish x reason).eosTokenIds = s.eosTokenIds := by
      rcases finish_cases s x reason with e | ⟨_, -, -, e⟩ <;> rw [e] <;> exact ⟨rfl, rfl⟩
    refine ⟨cfg.trans fixed.1, eos.trans fixed.2, fun id => ?_⟩
    have first : (s.finish x reason).seqs id = if id = x then (s.seqs id).map (·.ended reason) else s.seqs id := by
      rw [finish_seqs, Function.update_apply]
      split
      · rename_i same
        rw [same]
        rfl
      · rfl
    rw [List.foldl_cons, seqs, first]
    by_cases here : id = x
    · by_cases again : id ∈ ids
      · rw [if_pos again, if_pos here, if_pos (here ▸ List.mem_cons_self), Option.map_map]
        congr 1
        exact funext (Sequence.ended_ended reason)
      · rw [if_neg again, if_pos here, if_pos (here ▸ List.mem_cons_self)]
    · simp only [here, if_false, List.mem_cons, false_or]

variable [DecidableEq H]

/-- What a fork adds and leaves: children that have said nothing. -/
theorem forkChildren_tokens (src : Scheduler.ForkSource) (n : Nat) (out : Fork) (s : Scheduler B) :
    (Scheduler.forkChildren src n out s).1.cfg = s.cfg ∧
    (Scheduler.forkChildren src n out s).1.eosTokenIds = s.eosTokenIds ∧
    (∀ id, id < s.nextId → (Scheduler.forkChildren src n out s).1.seqs id = s.seqs id) ∧
    ∀ id, s.nextId ≤ id → id < (Scheduler.forkChildren src n out s).1.nextId →
      ∃ child, (Scheduler.forkChildren src n out s).1.seqs id = some child ∧ child.tokens = src.prompt ∧
        child.promptLen = src.prompt.length ∧ child.params = src.params ∧ child.status = .decoding := by
  induction n generalizing s out with
  | zero => exact ⟨rfl, rfl, fun _ _ => rfl, fun id later known => absurd later (Nat.not_le.mpr known)⟩
  | succ n ih =>
    unfold Scheduler.forkChildren
    rcases made : Scheduler.childBlocks src s.cfg.blockSize s.pool with ⟨pool, err | ⟨blocks, copy⟩⟩
    · exact ⟨rfl, rfl, fun _ _ => rfl, fun id later known => absurd later (Nat.not_le.mpr known)⟩
    · obtain ⟨cfg, eos, old, new⟩ := ih { ids := out.ids ++ [s.nextId], copies := out.copies ++ copy.toList }
        ((s.setPool pool).addFork src blocks)
      refine ⟨cfg, eos, fun id known => ?_, fun id later known => ?_⟩
      · exact (old id (Nat.lt_succ_of_lt known)).trans (Function.update_of_ne (Nat.ne_of_lt known) ..)
      · rcases Nat.eq_or_lt_of_le later with here | later
        · subst here
          exact ⟨_, (old _ (Nat.lt_succ_self _)).trans (Function.update_self ..), rfl, rfl, rfl, rfl⟩
        · exact new id later known

theorem fork_tokens {parent : SeqId} {seq : Sequence} (live : s.seqs parent = some seq) (n : Nat) :
    (s.fork parent n).1.cfg = s.cfg ∧ (s.fork parent n).1.eosTokenIds = s.eosTokenIds ∧
    (∀ id, id < s.nextId → (s.fork parent n).1.seqs id = s.seqs id) ∧
    ∀ id, s.nextId ≤ id → id < (s.fork parent n).1.nextId →
      ∃ child, (s.fork parent n).1.seqs id = some child ∧ child.tokens = seq.prompt ∧
        child.promptLen = seq.prompt.length ∧ child.params = seq.params ∧ child.status = .decoding := by
  unfold Scheduler.fork
  rw [live]
  simp only
  split
  · exact ⟨rfl, rfl, fun _ _ => rfl, fun id later known => absurd later (Nat.not_le.mpr known)⟩
  · exact forkChildren_tokens (Scheduler.forkSource seq) n {} s

/-- What there was before a fork stays, and its children are entered under the next ids. -/
theorem fork_kept (s : Scheduler B) (parent : SeqId) (n : Nat) :
    (s.fork parent n).1.cfg = s.cfg ∧ (s.fork parent n).1.eosTokenIds = s.eosTokenIds ∧
    (∀ id, id < s.nextId → (s.fork parent n).1.seqs id = s.seqs id) ∧
    ∀ fork, (s.fork parent n).2 = .ok fork →
      fork.ids = List.range' s.nextId n ∧ (s.fork parent n).1.nextId = s.nextId + n := by
  cases live : s.seqs parent with
  | none =>
    unfold Scheduler.fork
    rw [live]
    exact ⟨rfl, rfl, fun _ _ => rfl, fun _ ok => by cases ok⟩
  | some seq =>
    obtain ⟨cfg, eos, old, -⟩ := fork_tokens live n
    obtain ⟨m, grows, ids⟩ := fork_grows live n
    refine ⟨cfg, eos, old, fun fork ok => ?_⟩
    obtain ⟨rfl, children⟩ := ids fork ok
    exact ⟨children, grows.nextId⟩

/-- A child is given its first token; nothing else is said. -/
theorem seedFork_tokens (s : Scheduler B) (id : SeqId) (token : Token) :
    (s.seedFork id token).1.cfg = s.cfg ∧ (s.seedFork id token).1.eosTokenIds = s.eosTokenIds ∧
    (∀ x, x ≠ id → (s.seedFork id token).1.seqs x = s.seqs x) ∧
    ∀ seq, s.seqs id = some seq → ∃ seq', (s.seedFork id token).1.seqs id = some seq' ∧
    (seq.pushToken token).Alike seq' := by
  cases live : s.seqs id with
  | none =>
    unfold Scheduler.seedFork
    rw [live]
    exact ⟨rfl, rfl, fun _ _ => rfl, fun _ none => by cases none⟩
  | some seq =>
    obtain ⟨pool, blocks, eq⟩ : ∃ pool blocks, (s.seedFork id token).1 =
        (s.setPool pool).setSeq id ((seq.pushToken token).withBlocks blocks) := by
      unfold Scheduler.seedFork
      simp only [live]
      split <;> exact ⟨_, _, rfl⟩
    rw [eq]
    refine ⟨rfl, rfl, fun x other => Function.update_of_ne other .., fun seq' same => ?_⟩
    obtain rfl := Option.some.inj same
    exact ⟨_, Function.update_self .., rfl, rfl, rfl, fun _ => .rfl⟩

omit [DecidableEq H] in
theorem drainLoop_eos (ids : List SeqId) (s : Scheduler B) :
    (Scheduler.drainLoop ids s).1.eosTokenIds = s.eosTokenIds := by
  induction ids generalizing s with
  | nil => rfl
  | cons id ids ih =>
    unfold Scheduler.drainLoop Scheduler.drainOne
    cases s.seqs id with
    | none => exact ih s
    | some seq => exact ih _

omit [DecidableEq H] in
theorem drainFinished_eos (s : Scheduler B) : s.drainFinished.1.eosTokenIds = s.eosTokenIds :=
  drainLoop_eos s.finished (s.setFinished [])

end Ends

end Vapi.Engine
