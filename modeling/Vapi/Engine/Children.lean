import Vapi.Engine.Sound
import Vapi.Engine.World

/-!
# Children with their first token

A fork that succeeds has made its children under the next ids; giving them
their tokens changes nothing else.
-/

namespace Vapi.Engine

open Vapi.Cache

variable {H : Type} [DecidableEq H] {B : Blake3 H}

section Seeding

variable {base s t : Scheduler B} {id : SeqId} {seq : Sequence} {token : Token}

theorem seedFork_fixed (s : Scheduler B) (id : SeqId) (token : Token) :
    (s.seedFork id token).1.running = s.running ∧ (s.seedFork id token).1.nextId = s.nextId := by
  unfold Scheduler.seedFork
  cases s.seqs id with
  | none => exact ⟨rfl, rfl⟩
  | some seq =>
    simp only
    rcases takeBlocks BlockPool.allocateGuarded
      (s.pool.blocksFor ((seq.pushToken token).numComputed + 1) - (seq.pushToken token).blocks.length)
      s.pool with ⟨pool, taken, failed⟩
    cases failed <;> exact ⟨rfl, rfl⟩

theorem seedFork_ok (w : Wf s.pool) (live : s.seqs id = some seq) (e : s.seedFork id token = (t, .ok ())) :
    ∃ taken, Takes s.pool t.pool taken ∧
      taken.length = s.pool.blocksFor (seq.numComputed + 1) - seq.blocks.length ∧
      t.seqs = Function.update s.seqs id (some ((seq.pushToken token).withBlocks (seq.blocks ++ taken))) := by
  unfold Scheduler.seedFork at e
  simp only [live] at e
  rcases took : takeBlocks BlockPool.allocateGuarded
    (s.pool.blocksFor ((seq.pushToken token).numComputed + 1) - (seq.pushToken token).blocks.length)
    s.pool with ⟨pool, taken, failed⟩
  obtain ⟨takes, full, -⟩ := takeBlocks_spec allocateGuarded_allocates w took
  rw [took] at e
  cases failed with
  | some err => cases e
  | none =>
    obtain ⟨rfl, -⟩ := Prod.mk.inj e
    exact ⟨taken, takes, full rfl, rfl⟩

/-- Giving the children their tokens preserves what giving one does. -/
theorem seedAll_preserves {P : Scheduler B → Prop}
    (step : ∀ s id token, P s → id ∈ s.running → P (s.seedFork id token).1) {l : List (SeqId × Token)}
    (run : ∀ p ∈ l, p.1 ∈ s.running) (h : P s) : P (seedAll l s).1 := by
  induction l generalizing s with
  | nil => exact h
  | cons p l ih =>
    obtain ⟨id, token⟩ := p
    have first := step s id token h (run (id, token) (by simp))
    have running := (seedFork_fixed s id token).1
    unfold seedAll
    rcases e : s.seedFork id token with ⟨s', _ | ⟨⟩⟩ <;> rw [e] at first running
    · exact first
    · exact ih (fun p hp => running ▸ run p (by simp [hp])) first

/-- What giving the children their tokens comes to, when none is refused. -/
theorem seedAll_seqs {l : List (SeqId × Token)} (nodup : (l.map Prod.fst).Nodup)
    (run : ∀ p ∈ l, p.1 ∈ s.running) (b : ∃ extra, Balanced base s extra)
    (all : (seedAll l s).2 = true) :
    (∀ x, x ∉ l.map Prod.fst → (seedAll l s).1.seqs x = s.seqs x) ∧
    ∀ p ∈ l, ∀ seq, s.seqs p.1 = some seq → ∃ taken,
      (seedAll l s).1.seqs p.1 = some ((seq.pushToken p.2).withBlocks (seq.blocks ++ taken)) ∧
      (taken.length = s.pool.blocksFor (seq.numComputed + 1) - seq.blocks.length) := by
  induction l generalizing s with
  | nil => exact ⟨fun _ _ => rfl, by simp⟩
  | cons p l ih =>
    obtain ⟨id, token⟩ := p
    obtain ⟨out, nodup⟩ := List.nodup_cons.mp nodup
    obtain ⟨extra, balanced⟩ := b
    have here := run (id, token) (by simp)
    obtain ⟨seq, live, -⟩ := balanced.queued.running here
    have balanced' := seedFork_balanced balanced here token
    have running := (seedFork_fixed s id token).1
    unfold seedAll at all ⊢
    rcases e : s.seedFork id token with ⟨s', _ | ⟨⟩⟩
    · rw [e] at all
      cases all
    · rw [e] at all balanced' running
      obtain ⟨taken, takes, length, seqs⟩ := seedFork_ok balanced.wf live e
      obtain ⟨same, given⟩ := ih nodup (fun p hp => running ▸ run p (by simp [hp])) ⟨extra, balanced'⟩ all
      refine ⟨fun x hx => ?_, fun p hp old live' => ?_⟩
      · rw [List.map_cons, List.mem_cons, not_or] at hx
        rw [same x hx.2, seqs, Function.update_of_ne hx.1]
      · rcases List.mem_cons.mp hp with rfl | hp
        · obtain rfl := Option.some.inj (live.symm.trans live')
          exact ⟨taken, by rw [same id out, seqs, Function.update_self], length⟩
        · have ne : p.1 ≠ id := fun eq => out (List.mem_map.mpr ⟨p, hp, eq⟩)
          rw [← takes.shape.blocksFor]
          exact given p hp old (by rw [seqs, Function.update_of_ne ne]; exact live')

omit [DecidableEq H] in
/-- The pairs of children and tokens are those children, each with its token. -/
theorem Forked.pairs {src : Scheduler.ForkSource} {fork : Fork} {made : List (List BlockId)}
    {tokens : List Token} (f : Forked src s t {} fork made) (length : made.length = tokens.length) :
    (fork.ids.zip tokens).map Prod.fst = List.range' s.nextId made.length ∧
    ∀ k token, tokens[k]? = some token → (s.nextId + k, token) ∈ fork.ids.zip tokens := by
  have ids : fork.ids = List.range' s.nextId made.length := by simpa using f.ids
  refine ⟨by rw [List.map_fst_zip (by rw [ids, List.length_range', length]), ids], fun k token h => ?_⟩
  have lt := (List.getElem?_eq_some_iff.mp h).1
  refine List.mem_of_getElem? (i := k) (List.getElem?_zip_eq_some.mpr ⟨?_, h⟩)
  rw [ids, List.getElem?_range' (by omega)]
  simp

/-- A fork that succeeds is one of a sequence past its prompt. -/
theorem fork_ok {extra : BlockId → Nat} {parent : SeqId} {tokens : List Token} {fork : Fork}
    (h : Balanced base s extra) (e : s.fork parent tokens.length = (t, .ok fork)) :
    Balanced base t extra ∧ ∃ seq made, s.seqs parent = some seq ∧ seq.needsPrefill = false ∧
      made.length = tokens.length ∧ Forked (Scheduler.forkSource seq) s t {} fork made ∧
      ∀ p ∈ fork.ids.zip tokens, p.1 ∈ t.running := by
  have balanced := (fork_balanced h parent tokens.length).1 fork (by rw [e])
  rw [e] at balanced
  cases live : s.seqs parent with
  | none =>
    unfold Scheduler.fork at e
    rw [live] at e
    cases e
  | some seq =>
    cases ready : seq.needsPrefill with
    | true =>
      unfold Scheduler.fork at e
      simp only [live, ready, if_true] at e
      cases e
    | false =>
      rw [fork_eq live ready] at e
      obtain ⟨made, length, forked⟩ := forkChildren_ok h (fun b hb => h.pos_refcount live hb) e
      refine ⟨balanced, seq, made, rfl, ready, length, forked, fun p hp => ?_⟩
      rw [forked.running, List.mem_append, ← (forked.pairs length).1]
      exact .inr (List.mem_map_of_mem hp)

/-- What a sequence is after a fork whose children all got a token: what it
was, or such a child. -/
theorem fork_cases {parent : SeqId} {tokens : List Token} {fork : Fork} {x : SeqId} {seq' : Sequence}
    (b : ∃ extra, Balanced base s extra) (e : s.fork parent tokens.length = (t, .ok fork))
    (all : (seedAll (fork.ids.zip tokens) t).2 = true)
    (live' : (seedAll (fork.ids.zip tokens) t).1.seqs x = some seq') :
    x < s.nextId ∧ s.seqs x = some seq' ∨
    ∃ seq made blocks token taken, s.seqs parent = some seq ∧ seq.needsPrefill = false ∧
      Forked (Scheduler.forkSource seq) s t {} fork made ∧ s.nextId ≤ x ∧
      made[x - s.nextId]? = some blocks ∧
      taken.length = s.pool.blocksFor (seq.numComputed + 1) - blocks.length ∧
      seq' = ((child (Scheduler.forkSource seq) blocks).pushToken token).withBlocks (blocks ++ taken) := by
  obtain ⟨extra, balanced⟩ := b
  obtain ⟨balanced', seq, made, live, ready, length, forked, run⟩ := fork_ok balanced e
  obtain ⟨firsts, pairs⟩ := forked.pairs length
  obtain ⟨same, given⟩ := seedAll_seqs (firsts ▸ List.nodup_range') run ⟨extra, balanced'⟩ all
  rw [firsts] at same
  by_cases made_ : x ∈ List.range' s.nextId made.length
  · obtain ⟨le, lt⟩ := List.mem_range'_1.mp made_
    obtain ⟨k, rfl⟩ := Nat.exists_eq_add_of_le le
    have lt : k < made.length := Nat.lt_of_add_lt_add_left lt
    obtain ⟨blocks, hb⟩ : ∃ blocks, made[k]? = some blocks := ⟨_, List.getElem?_eq_getElem lt⟩
    obtain ⟨token, ht⟩ : ∃ token, tokens[k]? = some token :=
      ⟨_, List.getElem?_eq_getElem (length ▸ lt)⟩
    obtain ⟨taken, after, taken_length⟩ := given _ (pairs k token ht) _ (forked.new k blocks hb)
    refine .inr ⟨seq, made, blocks, token, taken, live, ready, forked, le, ?_, ?_, ?_⟩
    · rw [Nat.add_sub_cancel_left]
      exact hb
    · rw [taken_length, balanced.setup.shape.blocksFor,
        balanced'.setup.shape.blocksFor]
      rfl
    · exact Option.some.inj (live'.symm.trans after)
  · rw [same x made_] at live'
    have old : x < s.nextId := by
      have := balanced'.queued.fresh x seq' live'
      rw [forked.nextId] at this
      by_contra ge
      exact made_ (List.mem_range'_1.mpr ⟨Nat.not_lt.mp ge, this⟩)
    exact .inl ⟨old, forked.old x old ▸ live'⟩

theorem fork_old {parent : SeqId} {tokens : List Token} {fork : Fork} (b : ∃ extra, Balanced base s extra)
    (e : s.fork parent tokens.length = (t, .ok fork)) (all : (seedAll (fork.ids.zip tokens) t).2 = true) :
    (∀ x, x < s.nextId → (seedAll (fork.ids.zip tokens) t).1.seqs x = s.seqs x) ∧
      s.nextId ≤ (seedAll (fork.ids.zip tokens) t).1.nextId := by
  obtain ⟨extra, balanced⟩ := b
  obtain ⟨balanced', seq, made, live, -, length, forked, run⟩ := fork_ok balanced e
  obtain ⟨firsts, -⟩ := forked.pairs length
  obtain ⟨same, -⟩ := seedAll_seqs (firsts ▸ List.nodup_range') run ⟨extra, balanced'⟩ all
  constructor
  · intro x lt
    have out : x ∉ (fork.ids.zip tokens).map Prod.fst := by
      rw [firsts, List.mem_range'_1]
      exact fun h => absurd lt (Nat.not_lt.mpr h.1)
    exact (same x out).trans (forked.old x lt)
  · rw [seedAll_preserves (P := fun u => u.nextId = t.nextId)
      (fun s id token h _ => (seedFork_fixed s id token).2.trans h) run rfl, forked.nextId]
    exact Nat.le_add_right _ _

/-- A fork of a sequence that has one token more than its prompt, all computed
but that one, keeps the invariants once the children have theirs. -/
theorem Sound.fork {parent : SeqId} {tokens : List Token} {fork : Fork} (size : 0 < base.cfg.blockSize)
    (same : base.pool.blockSize = base.cfg.blockSize) (h : Sound base s)
    (first : ∀ seq, s.seqs parent = some seq → seq.numComputed = seq.promptLen)
    (e : s.fork parent tokens.length = (t, .ok fork)) (all : (seedAll (fork.ids.zip tokens) t).2 = true) :
    Sound base (seedAll (fork.ids.zip tokens) t).1 := by
  obtain ⟨extra, balanced⟩ := h.balanced
  obtain ⟨balanced', -, -, -, -, -, -, run⟩ := fork_ok balanced e
  have exclusive : Exclusive t := by
    have := fork_exclusive balanced h.exclusive parent tokens.length
    rwa [e] at this
  have regular : Regular t := by
    have := h.regular.lineage (fork_lineage h.queued parent tokens.length)
    rwa [e] at this
  obtain ⟨balanced'', exclusive', regular'⟩ := seedAll_preserves
    (P := fun t => Balanced base t extra ∧ Exclusive t ∧ Regular t)
    (fun s id token h run => ⟨seedFork_balanced h.1 run token, seedFork_exclusive h.1 h.2.1 id token,
      h.2.2.lineage (seedFork_lineage h.1.queued id token)⟩) run ⟨balanced', exclusive, regular⟩
  have cfg := balanced''.setup.cfg
  have grown : ∀ x seq', (seedAll (fork.ids.zip tokens) t).1.seqs x = some seq' →
      SeqOk base.cfg seq' ∧
      (seq'.status.place = .running → seq'.prefillTarget < seq'.blocks.length * base.cfg.blockSize) := by
    intro x seq' live'
    rcases fork_cases h.balanced e all live' with ⟨-, old⟩ | ⟨parent', made', blocks, token, taken, live, -, -, -,
      -, taken_length, rfl⟩
    · exact ⟨h.setup.cfg ▸ h.seqs x seq' old, h.setup.cfg ▸ h.roomy x seq' old⟩
    · have ok := h.seqs parent parent' live
      have computed := first parent' live
      have prompt : parent'.prompt.length = parent'.promptLen := by
        rw [Sequence.prompt, List.length_take,
          Nat.min_eq_left (Nat.le_trans parent'.promptLen_le parent'.target_le)]
      rw [h.setup.cfg] at ok
      refine ⟨⟨?_, ?_, fun place => (by cases place), fun _ => ?_⟩, fun _ => ?_⟩
      · exact Nat.lt_of_lt_of_eq ok.prompt prompt.symm
      · exact prompt.trans_lt ok.promptFits
      · have fits := ok.promptFits
        have tokens' : (parent'.prompt ++ [token]).length = parent'.promptLen + 1 := by simp [prompt]
        change parent'.numComputed < (parent'.prompt ++ [token]).length ∧ (parent'.prompt ++ [token]).length ≤ _ ∧
          (parent'.prompt.length = (parent'.prompt ++ [token]).length ∨ parent'.prompt.length ≤ parent'.numComputed ∧
            parent'.numComputed + 1 = (parent'.prompt ++ [token]).length)
        rw [tokens', prompt, computed]
        exact ⟨Nat.lt_succ_self _, fits, .inr ⟨Nat.le_refl _, rfl⟩⟩
      · have blockSize := h.setup.shape.blockSize.trans same
        have enough := le_blocksFor_mul (p := s.pool) (blockSize ▸ size) (parent'.numComputed + 1)
        rw [blockSize, computed] at enough
        rw [computed] at taken_length
        change parent'.prompt.length < (blocks ++ taken).length * base.cfg.blockSize
        rw [prompt]
        refine Nat.lt_of_lt_of_le (Nat.lt_of_succ_le enough) (Nat.mul_le_mul_right _ ?_)
        rw [List.length_append]
        omega
  refine ⟨⟨extra, balanced''⟩, regular', exclusive', fun x seq' live' => ?_, fun x seq' live' => ?_⟩
  · rw [cfg]
    exact (grown x seq' live').1
  · rw [cfg]
    exact (grown x seq' live').2

end Seeding

end Vapi.Engine
