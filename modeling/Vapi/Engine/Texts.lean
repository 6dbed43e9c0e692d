import Vapi.Engine.Routing

/-!
# Where texts come from

A step leaves a sequence's text as it was or, by a commit, one token longer; a
text that is new is a prompt, or a leader's prompt with a first token of its own.
-/

namespace Vapi.Engine

open Vapi.Cache

/-- The same prompt, what was generated after it, and the parameters it is generated under. -/
structure Sequence.SameText (a b : Sequence) : Prop where
  params : b.params = a.params
  promptLen : b.promptLen = a.promptLen
  tokens : b.tokens = a.tokens

namespace Sequence.SameText

variable {a b c : Sequence}

theorem refl (a : Sequence) : a.SameText a := ⟨rfl, rfl, rfl⟩

theorem trans (h : a.SameText b) (k : b.SameText c) : a.SameText c :=
  ⟨k.params.trans h.params, k.promptLen.trans h.promptLen, k.tokens.trans h.tokens⟩

end Sequence.SameText

variable {H : Type} {B : Blake3 H} {KV : Type}

/-- A sequence's text after a step, by what the step found. -/
inductive Arises (w : World B KV) (e : Event) (id : SeqId) (seq' : Sequence) : Prop
  | kept {seq : Sequence} (live : w.scheduler.seqs id = some seq) (same : seq.SameText seq')
  | admitted {requestId : RequestId} {prompt : List Token} {params : SamplingParams} {tenant : String}
      (is : e = .admitRequest requestId prompt params tenant) (fresh : id = w.scheduler.nextId)
      (new : (Sequence.new requestId prompt params tenant).SameText seq')
  | drawn {sampled : List Token} {plan : StepPlan} {i : Nat} {token : Token} {seq : Sequence} (is : e = .commit sampled)
      (flying : w.inFlight = some plan) (here : plan.sampledSeqs[i]? = some id) (given : sampled[i]? = some token)
      (live : w.scheduler.seqs id = some seq) (more : (seq.pushToken token).SameText seq')
  | forked {parent : SeqId} {tokens : List Token} {token : Token} {source : Sequence} (is : e = .fork parent tokens)
      (leads : parent ∈ w.leaders) (given : token ∈ tokens) (live : w.scheduler.seqs parent = some source)
      (new : ((Sequence.new source.requestId source.prompt source.params source.tenant).pushToken token).SameText seq')

section Calls

variable {base s t u : Scheduler B}

/-- Sequences that at most finish and go keep their texts. -/
theorem sameText_of_flown
    (seqs : ∀ id, t.seqs id = s.seqs id ∨ t.seqs id = none ∨ ∃ seq reason, s.seqs id = some seq ∧
      t.seqs id = some ((seq.withStatus (.finished reason)).withBlocks []))
    {id : SeqId} {seq' : Sequence} (live : t.seqs id = some seq') :
    ∃ seq, s.seqs id = some seq ∧ seq.SameText seq' := by
  rcases seqs id with same | gone | ⟨seq, reason, live', finished⟩
  · exact ⟨seq', same ▸ live, .refl _⟩
  · exact absurd (live.symm.trans gone) (by simp)
  · obtain rfl := Option.some.inj (live.symm.trans finished)
    exact ⟨seq, live', rfl, rfl, rfl⟩

/-- One sequence changed, its text not. -/
theorem sameText_of_update {id : SeqId} {old new : Sequence} (live : s.seqs id = some old) (same : old.SameText new)
    (seqs : t.seqs = Function.update s.seqs id (some new)) {x : SeqId} {seq' : Sequence}
    (live' : t.seqs x = some seq') :
    ∃ seq, s.seqs x = some seq ∧ seq.SameText seq' := by
  rw [seqs, Function.update_apply] at live'
  split at live'
  · rename_i here
    obtain rfl := Option.some.inj live'
    exact ⟨old, here ▸ live, same⟩
  · exact ⟨seq', live', .refl _⟩

/-- What a sequence has after an admission it had before, but for the one that is new. -/
theorem admit_texts (requestId : RequestId) (prompt : List Token) (params : SamplingParams) (tenant : String)
    {id : SeqId} {seq' : Sequence} (live : (s.admitRequest requestId prompt params tenant).1.seqs id = some seq') :
    s.seqs id = some seq' ∨ id = s.nextId ∧ seq' = Sequence.new requestId prompt params tenant := by
  unfold Scheduler.admitRequest at live
  split at live
  · exact .inl live
  · split at live
    · exact .inl live
    · change Function.update s.seqs s.nextId _ id = some seq' at live
      rw [Function.update_apply] at live
      split at live
      · rename_i fresh
        exact .inr ⟨fresh, (Option.some.inj live).symm⟩
      · exact .inl live

variable [DecidableEq H]

theorem passStep_texts {p p' : Pass B} (h : PassStep p p') {id : SeqId} {seq' : Sequence}
    (live : p'.scheduler.seqs id = some seq') : ∃ seq, p.scheduler.seqs id = some seq ∧ seq.SameText seq' := by
  cases h with
  | batch run new live' chunk took pushed => exact sameText_of_update live' (by exact ⟨rfl, rfl, rfl⟩) rfl live
  | preempt run new live' chunk took => exact sameText_of_update live' (by exact ⟨rfl, rfl, rfl⟩) rfl live
  | start head live' budget room hit fits took => exact sameText_of_update live' (by exact ⟨rfl, rfl, rfl⟩) rfl live
  | refuse head live' hit took => exact ⟨seq', live, .refl _⟩

/-- Preempted, started or batched, a sequence's text is the same. -/
theorem passSteps_texts {p p' : Pass B} (h : PassSteps p p') {id : SeqId} {seq' : Sequence}
    (live : p'.scheduler.seqs id = some seq') : ∃ seq, p.scheduler.seqs id = some seq ∧ seq.SameText seq' := by
  induction h generalizing seq' with
  | refl => exact ⟨seq', live, .refl _⟩
  | tail _ step ih =>
    obtain ⟨mid, live', same⟩ := passStep_texts step live
    obtain ⟨seq, live'', before⟩ := ih live'
    exact ⟨seq, live'', before.trans same⟩

/-- A commit gives each sequence it samples the token drawn for it. -/
theorem Sound.commit_texts (h : Sound base s) {plan : StepPlan} {es : List Entry} (f : Flight s plan es)
    {sampled : List Token} (enough : sampled.length = plan.sampledSeqs.length) (e : s.commit plan sampled = some u)
    {id : SeqId} {seq' : Sequence} (live : u.seqs id = some seq') :
    ∃ seq, s.seqs id = some seq ∧ (id ∉ plan.sampledSeqs ∧ seq.SameText seq' ∨ ∃ i : Nat, ∃ token,
      plan.sampledSeqs[i]? = some id ∧ sampled[i]? = some token ∧ (seq.pushToken token).SameText seq') := by
  have advances := h.advances f enough e
  obtain ⟨seq, before⟩ : ∃ seq, s.seqs id = some seq := by
    by_contra none
    have none := Option.eq_none_iff_forall_ne_some.mpr fun seq is => none ⟨seq, is⟩
    exact absurd (((commit_seqs f e).1 id (.inl none)).trans none) (by simp [live])
  obtain ⟨old, before', continues⟩ := (commit_lineage h.queued e).old id seq' live (h.queued.fresh id seq before)
  obtain rfl := Option.some.inj (before.symm.trans before')
  refine ⟨seq, before, ?_⟩
  by_cases out : id ∈ plan.sampledSeqs
  · obtain ⟨i, lt, here⟩ := List.getElem_of_mem out
    have drawn := List.getElem?_eq_getElem (enough ▸ lt)
    have here := List.getElem?_eq_some_iff.mpr ⟨lt, here⟩
    obtain ⟨seq'', live', tokens⟩ := advances.given i id _ seq here drawn before
    obtain rfl := Option.some.inj (live.symm.trans live')
    exact .inr ⟨i, _, here, drawn, continues.params, continues.promptLen, tokens⟩
  · obtain ⟨seq'', live', tokens⟩ := advances.kept id seq out before
    obtain rfl := Option.some.inj (live.symm.trans live')
    exact .inl ⟨out, continues.params, continues.promptLen, tokens⟩

/-- A fork leaves the others alone; each of its children has the prompt and a token of its own. -/
theorem fork_texts {extra : BlockId → Nat} {parent : SeqId} {tokens : List Token} {fork : Fork}
    (balanced : Balanced base s extra) (e : s.fork parent tokens.length = (t, .ok fork))
    (all : (seedAll (fork.ids.zip tokens) t).2 = true) {id : SeqId} {seq' : Sequence}
    (live : (seedAll (fork.ids.zip tokens) t).1.seqs id = some seq') :
    s.seqs id = some seq' ∨ ∃ source, ∃ token ∈ tokens, s.seqs parent = some source ∧
      ((Sequence.new source.requestId source.prompt source.params source.tenant).pushToken token).SameText seq' := by
  obtain ⟨balanced', source, made, parentLive, -, length, forked, run⟩ := fork_ok balanced e
  obtain ⟨firsts, pairs⟩ := forked.pairs length
  obtain ⟨same, given⟩ := seedAll_seqs (firsts ▸ List.nodup_range') run ⟨extra, balanced'⟩ all
  rw [firsts] at same
  by_cases made_ : id ∈ List.range' s.nextId made.length
  · obtain ⟨le, lt⟩ := List.mem_range'_1.mp made_
    obtain ⟨k, rfl⟩ := Nat.exists_eq_add_of_le le
    have lt : k < made.length := Nat.lt_of_add_lt_add_left lt
    have drawn := List.getElem?_eq_getElem (length ▸ lt)
    obtain ⟨taken, after, -⟩ := given _ (pairs k _ drawn) _ (forked.new k _ (List.getElem?_eq_getElem lt))
    obtain rfl := Option.some.inj (live.symm.trans after)
    exact .inr ⟨source, _, List.mem_of_getElem? drawn, parentLive, rfl, rfl, rfl⟩
  · rw [same id made_] at live
    have old : id < s.nextId := by
      have := balanced'.queued.fresh id seq' live
      rw [forked.nextId] at this
      by_contra ge
      exact made_ (List.mem_range'_1.mpr ⟨Nat.not_lt.mp ge, this⟩)
    exact .inl (forked.old id old ▸ live)

end Calls

variable [DecidableEq H] {base : Scheduler B} {w w' : World B KV} {kernel : Kernel KV}

/-- Every text there is after a step has arisen in one of these ways. -/
theorem Standing.arises (h : Standing base w) {e : Event} (seeds : w.Seeds e) (step : w.Step kernel e w') {id : SeqId}
    {seq' : Sequence} (live : w'.scheduler.seqs id = some seq') : Arises w e id seq' := by
  unfold World.Step World.exec at step
  cases e with
  | admitRequest requestId prompt params tenant =>
    obtain rfl := Option.some.inj step
    rcases admit_texts requestId prompt params tenant live with old | ⟨fresh, rfl⟩
    · exact .kept old (.refl _)
    · exact .admitted rfl fresh (.refl _)
  | schedule =>
    obtain ⟨⟨s, plan⟩, scheduled, eq⟩ := bind_some step
    obtain rfl := Option.some.inj eq
    obtain ⟨p, steps, rfl, -⟩ := schedule_steps scheduled h.sound.queued
    obtain ⟨seq, live', same⟩ := passSteps_texts steps live
    exact .kept live' same
  | commit sampled =>
    obtain ⟨plan, flying, step⟩ := bind_some step
    split at step
    · cases step
    · rename_i enough
      obtain ⟨u, committed, eq⟩ := bind_some step
      obtain rfl := Option.some.inj eq
      obtain ⟨es, f⟩ := h.flight plan flying
      obtain ⟨seq, live', ⟨-, same⟩ | ⟨i, token, here, given, more⟩⟩ :=
        h.sound.commit_texts f (not_not.mp enough) committed live
      · exact .kept live' same
      · exact .drawn rfl flying here given live' more
  | fork parent tokens =>
    replace step : w.fork parent tokens = some w' := step
    unfold World.fork at step
    split at step
    · cases step
    · rename_i leads
      have seeds := seeds parent tokens rfl
      obtain ⟨extra, balanced⟩ := h.sound.balanced
      rcases forked : w.scheduler.fork parent tokens.length with ⟨t, err | fork⟩
      · rw [forked] at step seeds
        obtain rfl := Option.some.inj step
        change t.seqs = w.scheduler.seqs at seeds
        exact .kept (seeds ▸ live) (.refl _)
      · rw [forked] at step seeds
        obtain rfl := Option.some.inj step
        rcases fork_texts balanced forked seeds live with old | ⟨source, token, given, live', new⟩
        · exact .kept old (.refl _)
        · exact .forked rfl (not_not.mp leads) given live' new
  | cancel requestId =>
    obtain rfl := Option.some.inj step
    obtain ⟨seq, live', same⟩ :=
      sameText_of_flown (fun x => (cancel_flown w.scheduler requestId x).imp_right .inr) live
    exact .kept live' same
  | finishWith finished reason =>
    obtain rfl := Option.some.inj step
    obtain ⟨seq, live', same⟩ :=
      sameText_of_flown (fun x => (finish_flown w.scheduler finished reason x).imp_right .inr) live
    exact .kept live' same
  | drainFinished =>
    obtain rfl := Option.some.inj step
    obtain ⟨seq, live', same⟩ := sameText_of_flown (fun x => (drainFinished_flown w.scheduler x).imp_right .inl) live
    exact .kept live' same

end Vapi.Engine
