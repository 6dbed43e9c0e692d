import Vapi.Engine.Accounting
import Vapi.Engine.Validate

/-!
# What a commit does to each sequence

The three phases of `commit` go over the sequences of a batch, each once. So
what becomes of a sequence is a function of the sequence alone: how far it
advanced, what was sampled for it, and which blocks stand in for its own.
-/

namespace Vapi.Engine

open Vapi.Cache
open Ragged (offsets)

namespace Sequence

/-- The sequence once `q` more of its tokens have been computed. -/
def advanced (q : Nat) (seq : Sequence) : Sequence :=
  if ¬(seq.advanceComputed q).needsPrefill ∧ (seq.advanceComputed q).status = .prefilling then
    (seq.advanceComputed q).withStatus .decoding
  else seq.advanceComputed q

/-- The sequence once a token was sampled for it, finished if that ends it. -/
def sampled (eos : List Token) (maxContext : Nat) (token : Token) (seq : Sequence) : Sequence :=
  match (seq.pushToken token).checkFinished eos maxContext with
  | none => seq.pushToken token
  | some reason =>
    if seq.status.isFinished then seq.pushToken token
    else ((seq.pushToken token).withStatus (.finished reason)).withBlocks []

/-- The same sequence with as many blocks, and another mark of how many are
published. -/
def Republished (a b : Sequence) : Prop :=
  ∃ n blocks, blocks.length = a.blocks.length ∧ b = (a.withCached n).withBlocks blocks

theorem Republished.refl (a : Sequence) : a.Republished a := ⟨a.numCachedBlocks, a.blocks, rfl, rfl⟩

theorem Republished.trans {a b c : Sequence} (h : a.Republished b) (k : b.Republished c) :
    a.Republished c := by
  obtain ⟨n, blocks, len, rfl⟩ := h
  obtain ⟨m, blocks', len', rfl⟩ := k
  exact ⟨m, blocks', len'.trans len, rfl⟩

section Fields

variable (seq : Sequence) (q : Nat)

theorem advanced_eq : (seq.advanced q).tokens = seq.tokens ∧ (seq.advanced q).promptLen = seq.promptLen ∧
    (seq.advanced q).numComputed = seq.numComputed + q ∧ (seq.advanced q).blocks = seq.blocks ∧
    (seq.advanced q).prefillTarget = seq.prefillTarget ∧ (seq.advanced q).tenant = seq.tenant ∧
    (seq.advanced q).params = seq.params ∧ (seq.advanced q).requestId = seq.requestId ∧
    (seq.advanced q).status.place = seq.status.place := by
  unfold advanced
  split
  · rename_i done
    exact ⟨rfl, rfl, rfl, rfl, rfl, rfl, rfl, rfl, (congrArg SeqStatus.place done.2).symm⟩
  · exact ⟨rfl, rfl, rfl, rfl, rfl, rfl, rfl, rfl, rfl⟩

theorem sampled_eq (eos : List Token) (maxContext : Nat) (token : Token) :
    (seq.sampled eos maxContext token).tokens = seq.tokens ++ [token] ∧
    (seq.sampled eos maxContext token).promptLen = seq.promptLen ∧
    (seq.sampled eos maxContext token).numComputed = seq.numComputed ∧
    (seq.sampled eos maxContext token).prefillTarget = seq.prefillTarget ∧
    (seq.sampled eos maxContext token).tenant = seq.tenant ∧
    (seq.sampled eos maxContext token).params = seq.params ∧
    (seq.sampled eos maxContext token).requestId = seq.requestId := by
  unfold sampled
  split
  · exact ⟨rfl, rfl, rfl, rfl, rfl, rfl, rfl⟩
  · split <;> exact ⟨rfl, rfl, rfl, rfl, rfl, rfl, rfl⟩

end Fields

end Sequence

variable {H : Type} {B : Blake3 H} {s t : Scheduler B}

theorem advanceOne_seqs (s : Scheduler B) (id : SeqId) (q : Nat) :
    (s.advanceOne id q).seqs = Function.update s.seqs id ((s.seqs id).map (·.advanced q)) := by
  unfold Scheduler.advanceOne
  cases live : s.seqs id with
  | none => exact (Function.update_eq_self_iff.mpr live.symm).symm
  | some seq => rfl

theorem finish_seqs (s : Scheduler B) (id : SeqId) (reason : FinishReason) :
    (s.finish id reason).seqs = Function.update s.seqs id ((s.seqs id).map fun seq =>
      if seq.status.isFinished then seq else (seq.withStatus (.finished reason)).withBlocks []) := by
  unfold Scheduler.finish
  cases live : s.seqs id with
  | none => exact (Function.update_eq_self_iff.mpr live.symm).symm
  | some seq =>
    by_cases fin : seq.status.isFinished
    · simp only [fin, if_true, Option.map_some]
      rw [← live, Function.update_eq_self]
    · simp [fin, Scheduler.retire]

theorem pushSampled_seqs (s : Scheduler B) (id : SeqId) (token : Token) :
    (s.pushSampled id token).seqs = Function.update s.seqs id
      ((s.seqs id).map (·.sampled s.eosTokenIds s.cfg.maxContext token)) := by
  cases live : s.seqs id with
  | none =>
    rw [Option.map_none, ← live, Function.update_eq_self]
    simp [Scheduler.pushSampled, live]
  | some seq =>
    unfold Scheduler.pushSampled Sequence.sampled
    simp only [live, Scheduler.setSeq_eosTokenIds, Scheduler.setSeq_cfg, Option.map_some]
    cases (seq.pushToken token).checkFinished s.eosTokenIds s.cfg.maxContext with
    | none => rfl
    | some reason =>
      simp only [finish_seqs, Scheduler.setSeq_seqs, Function.update_self, Option.map_some,
        Function.update_idem]
      rfl

theorem pushSampled_fixed (t : Scheduler B) (id : SeqId) (token : Token)
    (h : t.cfg = s.cfg ∧ t.eosTokenIds = s.eosTokenIds) :
    (t.pushSampled id token).cfg = s.cfg ∧ (t.pushSampled id token).eosTokenIds = s.eosTokenIds := by
  cases live : t.seqs id with
  | none => simpa [Scheduler.pushSampled, live] using h
  | some seq =>
    rcases pushSampled_cases live token with e | ⟨reason, -, e⟩ <;> rw [e]
    · exact h
    · rcases finish_cases (t.setSeq id (seq.pushToken token)) id reason with e | ⟨_, -, -, e⟩ <;> rw [e]
      · exact h
      · exact h

/-- What a loop does to one sequence, when it goes over each sequence once. -/
theorem foldl_seqs {β : Type} {f : Scheduler B → SeqId × β → Scheduler B}
    {g : β → Sequence → Sequence} (P : Scheduler B → Prop)
    (step : ∀ s x, P s → P (f s x) ∧
      (f s x).seqs = Function.update s.seqs x.1 ((s.seqs x.1).map (g x.2)))
    {l : List (SeqId × β)} (nodup : (l.map Prod.fst).Nodup) (h : P s) (id : SeqId) :
    P (l.foldl f s) ∧ (l.foldl f s).seqs id =
      match l.lookup id with
      | some b => (s.seqs id).map (g b)
      | none => s.seqs id := by
  induction l generalizing s with
  | nil => exact ⟨h, rfl⟩
  | cons x l ih =>
    obtain ⟨x, b⟩ := x
    obtain ⟨out, nodup⟩ := List.nodup_cons.mp nodup
    obtain ⟨h', seqs⟩ := step s (x, b) h
    obtain ⟨rest, eq⟩ := ih nodup h'
    refine ⟨rest, eq.trans ?_⟩
    rw [seqs, List.lookup_cons]
    by_cases e : id = x
    · subst e
      have none : l.lookup id = none := by
        rw [List.lookup_eq_none_iff]
        exact fun p hp => bne_iff_ne.mpr fun eq => out (List.mem_map.mpr ⟨p, hp, eq.symm⟩)
      simp [none]
    · rw [Function.update_of_ne e, beq_false_of_ne e]

/-- A zipped list's first parts are a prefix of the first list. -/
theorem map_fst_zip_prefix {α β : Type} (as : List α) (bs : List β) :
    (as.zip bs).map Prod.fst <+: as := by
  induction as generalizing bs with
  | nil => exact List.prefix_rfl
  | cons a as ih =>
    cases bs with
    | nil => exact List.nil_prefix
    | cons b bs => exact List.cons_prefix_cons.mpr ⟨rfl, ih bs⟩

section Advance

/-- The first phase over the cumulative lengths of the entries themselves. -/
theorem advanceLoop_eq {es : List Entry} (fits : (es.map Entry.q).sum < 2 ^ 32) (s : Scheduler B) :
    Scheduler.advanceLoop (es.map Entry.id) (cumulative Entry.q es) s =
      some ((es.map fun e => (e.id, e.q)).foldl (fun s x => s.advanceOne x.1 x.2) s) := by
  have loop : ∀ (es : List Entry) (n : Nat) (s : Scheduler B), n + (es.map Entry.q).sum < 2 ^ 32 →
      Scheduler.advanceLoop (es.map Entry.id) ((offsets n (es.map Entry.q)).map UInt32.ofNat) s =
        some ((es.map fun e => (e.id, e.q)).foldl (fun s x => s.advanceOne x.1 x.2) s) := by
    intro es
    induction es with
    | nil => exact fun n s _ => rfl
    | cons e es ih =>
      intro n s fits
      rw [List.map_cons, List.sum_cons, ← Nat.add_assoc] at fits
      have next := ih (n + e.q) (s.advanceOne e.id e.q) fits
      have q := ofNat_sub_ofNat (a := n) (q := e.q) (by omega)
      have head : offsets (n + e.q) (es.map Entry.q) =
          (n + e.q) :: (offsets (n + e.q) (es.map Entry.q)).tail := by cases es <;> rfl
      rw [List.map_cons, List.map_cons, offsets, List.map_cons, head, List.map_cons,
        Scheduler.advanceLoop, q, ← List.map_cons, ← head, next]
      rfl
  cases es with
  | nil => rfl
  | cons e es => exact loop (e :: es) 0 s (by simpa using fits)

end Advance

section Publish

variable [DecidableEq H]

theorem publishOne_seqs {id : SeqId} (e : s.publishOne id = some t) :
    (∀ x, x ≠ id ∨ s.seqs x = none → t.seqs x = s.seqs x) ∧
    (∀ seq, s.seqs id = some seq → ∃ seq', t.seqs id = some seq' ∧ seq.Republished seq') := by
  rcases publishOne_cases e with rfl | ⟨seq, pool, swaps, blocks, pool', live, -, -, -, swapped, rfl⟩
  · exact ⟨fun _ _ => rfl, fun seq h => ⟨seq, h, .refl seq⟩⟩
  · refine ⟨fun x h => Function.update_of_ne ?_ .., fun seq' h => ?_⟩
    · rintro rfl
      rcases h with ne | gone
      · exact ne rfl
      · simp [live] at gone
    · obtain rfl := Option.some.inj (live.symm.trans h)
      refine ⟨_, Function.update_self .., _, blocks, ?_, rfl⟩
      have := swapBlocks_length swaps seq.blocks pool
      rwa [swapped] at this

theorem publishLoop_seqs {ids : List SeqId} (e : Scheduler.publishLoop ids s = some t) :
    (∀ x, x ∉ ids ∨ s.seqs x = none → t.seqs x = s.seqs x) ∧
    (∀ x seq, s.seqs x = some seq → ∃ seq', t.seqs x = some seq' ∧ seq.Republished seq') := by
  induction ids generalizing s with
  | nil =>
    simp only [Scheduler.publishLoop, Option.some.injEq] at e
    exact e ▸ ⟨fun _ _ => rfl, fun x seq h => ⟨seq, h, .refl seq⟩⟩
  | cons id ids ih =>
    obtain ⟨s₁, one, rest⟩ := bind_some e
    obtain ⟨same, kept⟩ := publishOne_seqs one
    obtain ⟨same', kept'⟩ := ih rest
    refine ⟨fun x h => ?_, fun x seq h => ?_⟩
    · have first : s₁.seqs x = s.seqs x := same x (h.imp_left fun out => by simp at out; exact out.1)
      rw [← first]
      exact same' x (h.imp (fun out => by simp at out; exact out.2) fun gone => first.trans gone)
    · obtain ⟨seq₁, live, r⟩ : ∃ seq₁, s₁.seqs x = some seq₁ ∧ seq.Republished seq₁ := by
        by_cases e : x = id
        · subst e
          exact kept seq h
        · exact ⟨seq, (same x (.inl e)).trans h, .refl seq⟩
      obtain ⟨seq₂, live', r'⟩ := kept' x seq₁ live
      exact ⟨seq₂, live', r.trans r'⟩

/-- Publishing reads no token a sequence does not have. -/
theorem publishLoop_total {ids : List SeqId}
    (known : ∀ id seq, s.seqs id = some seq → id ∈ ids → seq.numComputed ≤ seq.tokens.length) :
    ∃ t, Scheduler.publishLoop ids s = some t := by
  induction ids generalizing s with
  | nil => exact ⟨s, rfl⟩
  | cons id ids ih =>
    obtain ⟨s₁, one⟩ : ∃ s₁, s.publishOne id = some s₁ := by
      unfold Scheduler.publishOne
      cases live : s.seqs id with
      | none => exact ⟨s, rfl⟩
      | some seq =>
        have le := known id seq live (by simp)
        have := Nat.div_mul_le_self seq.numComputed s.cfg.blockSize
        simp only
        split
        · exact ⟨_, rfl⟩
        · rw [if_neg (by omega)]
          exact ⟨_, rfl⟩
    obtain ⟨same, kept⟩ := publishOne_seqs one
    obtain ⟨t, rest⟩ := ih (s := s₁) (by
      intro x seq live hx
      by_cases e : x = id
      · subst e
        cases before : s.seqs x with
        | none => simp [same x (.inr before), before] at live
        | some old =>
          obtain ⟨seq', live', n, blocks, -, rfl⟩ := kept old before
          obtain rfl := Option.some.inj (live'.symm.trans live)
          exact known x old before (by simp)
      · exact known x seq ((same x (.inl e)).symm.trans live) (by simp [hx]))
    exact ⟨t, by simp [Scheduler.publishLoop, one, rest]⟩

end Publish

section Commit

/-- What was sampled for a sequence. -/
def tokenFor (es : List Entry) (tokens : List Token) (id : SeqId) : Option Token :=
  (((es.filter Entry.samples).map Entry.id).zip tokens).lookup id

/-- The sequence of an entry once its batch has been committed, but for the
blocks it has published. -/
def Entry.after (eos : List Token) (maxContext : Nat) (token : Option Token) (e : Entry)
    (seq : Sequence) : Sequence :=
  match token with
  | some token => (seq.advanced e.q).sampled eos maxContext token
  | none => seq.advanced e.q

theorem Entry.after_numComputed (eos : List Token) (maxContext : Nat) (token : Option Token) (e : Entry)
    (seq : Sequence) : (e.after eos maxContext token seq).numComputed = seq.numComputed + e.q := by
  cases token with
  | none => exact (seq.advanced_eq e.q).2.2.1
  | some token => exact ((seq.advanced e.q).sampled_eq eos maxContext token).2.2.1.trans (seq.advanced_eq e.q).2.2.1

theorem Entry.after_tokens (eos : List Token) (maxContext : Nat) (token : Option Token) (e : Entry)
    (seq : Sequence) : (e.after eos maxContext token seq).tokens = seq.tokens ++ token.toList := by
  cases token with
  | none => simpa [Entry.after] using (seq.advanced_eq e.q).1
  | some token =>
    refine ((seq.advanced e.q).sampled_eq eos maxContext token).1.trans ?_
    rw [(seq.advanced_eq e.q).1]
    rfl

/-- The entries of a plan, and the sequences it is committed over: those of
the entries, unless finished or gone since. -/
structure Flight (s : Scheduler B) (plan : StepPlan) (es : List Entry) : Prop where
  cuSeqlensQ : plan.batch.cuSeqlensQ = cumulative Entry.q es
  batchSeqs : plan.batchSeqs = es.map Entry.id
  sampledSeqs : plan.sampledSeqs = (es.filter Entry.samples).map Entry.id
  covered : ∀ e ∈ es, e.Covered s.cfg.blockSize
  nodup : (es.map Entry.id).Nodup
  fits : (es.map Entry.q).sum < 2 ^ 32
  old : ∀ e ∈ es, e.id < s.nextId
  running : ∀ e ∈ es, e.seq.status.place = .running
  flown : ∀ e ∈ es, s.seqs e.id = none ∨ s.seqs e.id = some e.seq ∨
    ∃ reason, s.seqs e.id = some ((e.seq.withStatus (.finished reason)).withBlocks [])

variable {plan : StepPlan} {es : List Entry} {tokens : List Token}

theorem Flight.lookup (f : Flight s plan es) {e : Entry} (he : e ∈ es) :
    (es.map fun e => (e.id, e.q)).lookup e.id = some e.q := by
  have nodup := f.nodup
  clear f
  induction es with
  | nil => simp at he
  | cons x es ih =>
    obtain ⟨out, nodup⟩ := List.nodup_cons.mp nodup
    rw [List.map_cons, List.lookup_cons]
    rcases List.mem_cons.mp he with rfl | he
    · simp
    · have ne : e.id ≠ x.id := fun eq => out (eq ▸ List.mem_map_of_mem he)
      rw [beq_false_of_ne ne]
      exact ih he nodup

theorem tokenFor_none {id : SeqId} (out : ∀ e ∈ es, e.id = id → e.samples = false) :
    tokenFor es tokens id = none := by
  rw [tokenFor, List.lookup_eq_none_iff]
  intro p hp
  have := (List.of_mem_zip hp).1
  obtain ⟨e, he, eq⟩ := List.mem_map.mp this
  obtain ⟨he, samples⟩ := List.mem_filter.mp he
  refine bne_iff_ne.mpr fun same => ?_
  rw [out e he (eq.trans same.symm)] at samples
  exact Bool.false_ne_true samples

/-- A token for every sequence sampled. -/
theorem tokenFor_some {e : Entry} (he : e ∈ es) (samples : e.samples = true)
    (enough : tokens.length = ((es.filter Entry.samples).map Entry.id).length) :
    ∃ token, tokenFor es tokens e.id = some token := by
  cases known : tokenFor es tokens e.id with
  | some token => exact ⟨token, rfl⟩
  | none =>
    rw [tokenFor, List.lookup_eq_none_iff] at known
    have mem : e.id ∈ (((es.filter Entry.samples).map Entry.id).zip tokens).map Prod.fst := by
      rw [List.map_fst_zip (Nat.le_of_eq enough.symm)]
      exact List.mem_map_of_mem (List.mem_filter.mpr ⟨he, samples⟩)
    obtain ⟨p, hp, same⟩ := List.mem_map.mp mem
    exact absurd same.symm (bne_iff_ne.mp (known p hp))

/-- The two first phases, one after the other. -/
theorem sampled_seqs (f : Flight s plan es) (tokens : List Token) {s₁ : Scheduler B}
    (e : Scheduler.advanceLoop plan.batchSeqs plan.batch.cuSeqlensQ s = some s₁) (id : SeqId) :
    (s₁.sampledLoop (plan.sampledSeqs.zip tokens)).seqs id =
      match (es.map fun e => (e.id, e.q)).lookup id, tokenFor es tokens id with
      | some q, some token => (s.seqs id).map fun seq =>
          (seq.advanced q).sampled s.eosTokenIds s.cfg.maxContext token
      | some q, none => (s.seqs id).map (·.advanced q)
      | none, _ => s.seqs id := by
  rw [f.batchSeqs, f.cuSeqlensQ, advanceLoop_eq f.fits] at e
  obtain rfl := Option.some.inj e
  obtain ⟨⟨cfg, eos⟩, advanced⟩ := foldl_seqs (s := s) (f := fun s x => s.advanceOne x.1 x.2)
    (g := fun q seq => seq.advanced q) (fun t => t.cfg = s.cfg ∧ t.eosTokenIds = s.eosTokenIds)
    (fun t x h => ⟨by unfold Scheduler.advanceOne; split <;> exact h, advanceOne_seqs t x.1 x.2⟩)
    (l := es.map fun e => (e.id, e.q)) (by simpa [Function.comp_def] using f.nodup) ⟨rfl, rfl⟩ id
  have once : ((plan.sampledSeqs.zip tokens).map Prod.fst).Nodup := by
    have sub := map_fst_zip_prefix plan.sampledSeqs tokens
    rw [f.sampledSeqs] at sub ⊢
    exact (f.nodup.sublist (List.filter_sublist.map _)).sublist sub.sublist
  generalize (es.map fun e => (e.id, e.q)).foldl (fun s x => s.advanceOne x.1 x.2) s = s₁ at *
  obtain ⟨-, sampled⟩ := foldl_seqs (s := s₁) (f := fun s x => s.pushSampled x.1 x.2)
    (g := fun token seq => seq.sampled s.eosTokenIds s.cfg.maxContext token)
    (fun t => t.cfg = s.cfg ∧ t.eosTokenIds = s.eosTokenIds)
    (fun t x h => ⟨pushSampled_fixed t x.1 x.2 h, by rw [← h.1, ← h.2]; exact pushSampled_seqs t x.1 x.2⟩)
    once ⟨cfg, eos⟩ id
  refine Eq.trans sampled ?_
  rw [advanced, f.sampledSeqs,
    show (((es.filter Entry.samples).map Entry.id).zip tokens).lookup id = tokenFor es tokens id from rfl]
  cases known : (es.map fun e => (e.id, e.q)).lookup id with
  | some q =>
    cases tokenFor es tokens id with
    | none => rfl
    | some token => simp [Option.map_map, Function.comp_def]
  | none =>
    have out : ∀ e ∈ es, e.id = id → e.samples = false := by
      rintro e he rfl
      simp [f.lookup he] at known
    rw [tokenFor_none out]

/-- A sequence after the two first phases: what it was, or what its entry makes
of it. -/
theorem sampled_cases (f : Flight s plan es) (tokens : List Token) {s₁ : Scheduler B}
    (e : Scheduler.advanceLoop plan.batchSeqs plan.batch.cuSeqlensQ s = some s₁) {id : SeqId} {seq' : Sequence}
    (live : (s₁.sampledLoop (plan.sampledSeqs.zip tokens)).seqs id = some seq') :
    s.seqs id = some seq' ∧ (∀ x ∈ es, x.id ≠ id) ∨
    ∃ x ∈ es, x.id = id ∧ ∃ seq, s.seqs id = some seq ∧
      seq' = x.after s.eosTokenIds s.cfg.maxContext (tokenFor es tokens id) seq := by
  rw [sampled_seqs f tokens e] at live
  by_cases batched : ∃ x ∈ es, x.id = id
  · obtain ⟨x, hx, rfl⟩ := batched
    rw [f.lookup hx] at live
    refine .inr ⟨x, hx, rfl, ?_⟩
    unfold Entry.after
    cases known : s.seqs x.id with
    | none => cases token : tokenFor es tokens x.id <;> simp [token, known] at live
    | some seq =>
      refine ⟨seq, rfl, ?_⟩
      cases token : tokenFor es tokens x.id <;> rw [token, known] at live <;> exact (Option.some.inj live).symm
  · have none : (es.map fun e => (e.id, e.q)).lookup id = none := by
      rw [List.lookup_eq_none_iff]
      intro p hp
      obtain ⟨x, hx, rfl⟩ := List.mem_map.mp hp
      exact bne_iff_ne.mpr fun eq => batched ⟨x, hx, eq.symm⟩
    rw [none] at live
    exact .inl ⟨live, fun x hx eq => batched ⟨x, hx, eq⟩⟩

variable [DecidableEq H]

/-- Every sequence of the batch is what its own entry and token make of it,
and the others are as they were. -/
theorem commit_seqs (f : Flight s plan es) (e : s.commit plan tokens = some t) :
    (∀ id, s.seqs id = none ∨ (∀ x ∈ es, x.id ≠ id) → t.seqs id = s.seqs id) ∧
    (∀ x ∈ es, ∀ seq, s.seqs x.id = some seq → ∃ seq', t.seqs x.id = some seq' ∧
      (x.after s.eosTokenIds s.cfg.maxContext (tokenFor es tokens x.id) seq).Republished seq') := by
  obtain ⟨s₁, advanced, e⟩ := bind_some e
  have middle := sampled_seqs f tokens advanced
  generalize s₁.sampledLoop (plan.sampledSeqs.zip tokens) = s₂ at e middle
  obtain ⟨same, kept⟩ : (∀ x, x ∉ plan.batchSeqs ∨ s₂.seqs x = none → t.seqs x = s₂.seqs x) ∧
      (∀ x seq, s₂.seqs x = some seq → ∃ seq', t.seqs x = some seq' ∧ seq.Republished seq') := by
    unfold Scheduler.publishFullBlocks at e
    split at e
    · exact publishLoop_seqs e
    · exact Option.some.inj e ▸ ⟨fun _ _ => rfl, fun x seq h => ⟨seq, h, .refl seq⟩⟩
  refine ⟨fun id h => ?_, fun x hx seq live => ?_⟩
  · have before : s₂.seqs id = s.seqs id := by
      rw [middle]
      rcases h with gone | out
      · rw [gone]
        split <;> rfl
      · have none : (es.map fun e => (e.id, e.q)).lookup id = none := by
          rw [List.lookup_eq_none_iff]
          intro p hp
          obtain ⟨e, he, rfl⟩ := List.mem_map.mp hp
          exact bne_iff_ne.mpr fun eq => out e he eq.symm
        rw [none]
    rw [← before]
    refine same id (h.symm.imp (fun out => ?_) before.trans)
    rw [f.batchSeqs, List.mem_map]
    rintro ⟨e, he, eq⟩
    exact out e he eq
  · refine kept x.id _ ?_
    rw [middle, f.lookup hx, live]
    cases tokenFor es tokens x.id <;> rfl

/-- A commit of a plan in flight never panics. -/
theorem commit_total (f : Flight s plan es) : ∃ t, s.commit plan tokens = some t := by
  obtain ⟨s₁, advanced⟩ : ∃ s₁, Scheduler.advanceLoop plan.batchSeqs plan.batch.cuSeqlensQ s = some s₁ := by
    rw [f.batchSeqs, f.cuSeqlensQ]
    exact ⟨_, advanceLoop_eq f.fits s⟩
  have published : ∃ t, (s₁.sampledLoop (plan.sampledSeqs.zip tokens)).publishFullBlocks plan = some t := by
    unfold Scheduler.publishFullBlocks
    split
    · refine publishLoop_total fun id seq live hid => ?_
      rw [f.batchSeqs] at hid
      obtain ⟨e, he, rfl⟩ := List.mem_map.mp hid
      obtain ⟨old, before, after⟩ : ∃ old, s.seqs e.id = some old ∧
          seq = e.after s.eosTokenIds s.cfg.maxContext (tokenFor es tokens e.id) old := by
        rcases sampled_cases f tokens advanced live with ⟨-, out⟩ | ⟨x, hx, same, old⟩
        · exact absurd rfl (out e he)
        · exact List.inj_on_of_nodup_map f.nodup hx he same ▸ old
      have fields : old.tokens = e.seq.tokens ∧ old.numComputed = e.seq.numComputed := by
        rcases f.flown e he with none | same | ⟨reason, same⟩
        · simp [before] at none
        · rw [Option.some.inj (before.symm.trans same)]
          exact ⟨rfl, rfl⟩
        · rw [Option.some.inj (before.symm.trans same)]
          exact ⟨rfl, rfl⟩
      have stop := (f.covered e he).tokens
      rw [after, Entry.after_numComputed, Entry.after_tokens, fields.1, fields.2, List.length_append]
      exact Nat.le_trans stop (Nat.le_add_right _ _)
    · exact ⟨_, rfl⟩
  obtain ⟨t, published⟩ := published
  exact ⟨t, by simp [Scheduler.commit, advanced, published]⟩

end Commit

end Vapi.Engine
