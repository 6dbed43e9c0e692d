import Vapi.Engine.Stored
import Vapi.Engine.Texts
import Vapi.Backend.Scheduled

/-!
# Served as by the plain decoder

The engine over its backend goes through the states it has over a device whose
cells are the texts they are for: the model's caches mirror that device, and the
logits in flight are those of the plain decoder. So no forward pass fails and no
copy does, whatever was batched, shared, preempted, recomputed or forked.
-/

namespace Vapi.Backend

open Vapi.Engine Vapi.Cache
open Transition (Run Guarded)

variable {H : Type} {B : Blake3 H} {S : Type} {hidden kvHeads dim vocab : Nat}

/-- Every token that an event brings is one of the first `n`. -/
def Event.Within (n : Nat) : Event → Prop
  | .admitRequest _ prompt _ _ => ∀ token ∈ prompt, token.toNat < n
  | .commit tokens => ∀ token ∈ tokens, token.toNat < n
  | .fork _ tokens => ∀ token ∈ tokens, token.toNat < n
  | _ => True

/-- A configuration of the engine that the model and its cache can serve. -/
structure Suits (base : Scheduler B) (d : Decoder S hidden kvHeads dim vocab) (numBlocks : Nat) : Prop where
  fits : Engine.Fits base
  collisionFree : CollisionFree base.cacheNamespace base.cfg.blockSize
  enough : base.pool.numBlocks ≤ numBlocks
  slots : numBlocks * base.cfg.blockSize < 2 ^ 32
  positions : base.cfg.maxContext ≤ d.maxPositions

variable [Field S] [LinearOrder S] (f : Numerics S) (d : Decoder S hidden kvHeads dim vocab) (numBlocks : Nat)

/-- The same engine over caches and over a device of texts. -/
structure Follows (blockSize : Nat) (x : Inference B S hidden kvHeads dim vocab) (w : World B (List Token)) : Prop where
  scheduler : x.scheduler = w.scheduler
  inFlight : x.inFlight.map Prod.fst = w.inFlight
  leaders : x.leaders.map Prod.fst = w.leaders
  mirrors : d.Mirrors f x.caches (w.device.cells numBlocks blockSize)
  rows : ∀ plan rows, x.inFlight = some (plan, rows) → List.Forall₂ (fun id row =>
    ∀ seq, x.scheduler.seqs id = some seq → row = d.plain f seq.tokens) plan.sampledSeqs rows
  led : ∀ l ∈ x.leaders, ∀ seq, x.scheduler.seqs l.1 = some seq → l.2 = d.plain f seq.prompt

variable {f d numBlocks} {base : Scheduler B} {x x' : Inference B S hidden kvHeads dim vocab}
  {w w' : World B (List Token)}

/-- A call that leaves the texts there were as they were. -/
theorem Follows.setScheduler (h : Follows f d numBlocks base.cfg.blockSize x w) (standing : Standing base w)
    {t : Scheduler B} (old : ∀ id seq', id < w.scheduler.nextId → t.seqs id = some seq' →
      ∃ seq, w.scheduler.seqs id = some seq ∧ seq.SameText seq') :
    Follows f d numBlocks base.cfg.blockSize (x.setScheduler t) (w.setScheduler t) where
  scheduler := rfl
  inFlight := h.inFlight
  leaders := rfl
  mirrors := h.mirrors
  rows plan rows flying := by
    have known := h.inFlight
    rw [show x.inFlight = some (plan, rows) from flying] at known
    obtain ⟨es, f⟩ := standing.flight plan known.symm
    obtain ⟨length, each⟩ := List.forall₂_iff_zip.mp (h.rows plan rows flying)
    refine List.forall₂_iff_zip.mpr ⟨length, fun {id row} mem seq' live => ?_⟩
    have sampled := (List.of_mem_zip mem).1
    rw [f.sampledSeqs] at sampled
    obtain ⟨e, entry, rfl⟩ := List.mem_map.mp sampled
    obtain ⟨seq, live', same⟩ := old e.id seq' (f.old e (List.mem_of_mem_filter entry)) live
    rw [same.tokens]
    exact each mem seq (h.scheduler ▸ live')
  led l mem := absurd mem List.not_mem_nil

variable [DecidableEq H]

/-- What is scheduled runs, and its rows are those of the plain decoder. -/
theorem Follows.schedule (h : Follows f d numBlocks base.cfg.blockSize x w) (suits : Suits base d numBlocks)
    (stored : Stored (fun _ ts => ts) base w)
    (known : ∀ id, ∀ token ∈ textOf w.scheduler id, token.toNat < d.embed.length) :
    ∃ x' w', x.schedule f d numBlocks base.cfg.blockSize = some x' ∧ w.schedule texts = some w' ∧
      Follows f d numBlocks base.cfg.blockSize x' w' ∧
      ∃ plan rows, w.scheduler.schedule = some (x'.scheduler, plan) ∧ x'.inFlight = some (plan, rows) ∧
        List.Forall₂ (fun id row => ∃ seq, x'.scheduler.seqs id = some seq ∧ row = d.plain f seq.tokens)
          plan.sampledSeqs rows := by
  have sound := stored.standing.sound
  have cfg := sound.setup.cfg
  obtain ⟨t, plan, es, scheduled, made, -, holds⟩ :=
    schedule_content suits.fits sound suits.collisionFree (fun _ _ _ _ _ => rfl : Computes texts _ _) stored.content
  obtain ⟨p, steps, same, -⟩ := schedule_steps scheduled sound.queued
  have known' : ∀ id, ∀ token ∈ textOf t id, token.toNat < d.embed.length := by
    intro id token mem
    refine known id token ?_
    unfold textOf at mem ⊢
    cases live : t.seqs id with
    | none => simp [live] at mem
    | some seq' =>
      obtain ⟨seq, live', text⟩ := passSteps_texts steps (same ▸ live)
      change w.scheduler.seqs id = some seq at live'
      rw [live] at mem
      rw [live', Option.elim_some, ← text.tokens]
      exact mem
  have laying := laying_of_scheduled made cfg suits.fits suits.enough suits.slots holds
  have feeds := feeds_of_scheduled made cfg suits.fits suits.positions known'
  obtain ⟨caches, answered, mirrors⟩ := d.forward_eq f laying feeds h.mirrors
  rw [← forward_cells made cfg suits.fits] at mirrors
  have flight := made.flight cfg suits.fits
  have rows : List.Forall₂ (fun id row => ∃ seq, t.seqs id = some seq ∧ row = d.plain f seq.tokens) plan.sampledSeqs
      ((askedOf es).map fun a => d.plain f (upTo (textOf t) a)) := by
    rw [flight.sampledSeqs, askedOf, List.map_map]
    refine List.forall₂_map_left_iff.mpr (List.forall₂_map_right_iff.mpr (List.forall₂_same.mpr fun e mem => ?_))
    obtain ⟨entry, samples⟩ := List.mem_filter.mp mem
    have stop := stop_of_samples made entry samples
    have pos := (made.covered e entry).pos
    refine ⟨e.seq, made.current e entry, ?_⟩
    have whole : e.stop - 1 + 1 = e.seq.tokens.length := by
      unfold Entry.stop at stop ⊢
      omega
    rw [Function.comp_apply, upTo, textOf_entry made entry, whole, List.take_length]
  have own {leaders : List (SeqId × (Fin vocab → S))} {caches : List (LayerBuffers S hidden kvHeads dim)}
      (none : leaders = []) (mirrors :
        d.Mirrors f caches ((forward texts t plan.rows w.device).cells numBlocks base.cfg.blockSize)) :
      Follows f d numBlocks base.cfg.blockSize
        ⟨t, caches, some (plan, (askedOf es).map fun a => d.plain f (upTo (textOf t) a)), leaders⟩
        ⟨t, forward texts t plan.rows w.device, some plan, []⟩ := by
    subst none
    refine ⟨rfl, rfl, rfl, mirrors, fun plan' rows' flying => ?_, fun l mem => absurd mem List.not_mem_nil⟩
    obtain ⟨rfl, rfl⟩ := Prod.mk.inj (Option.some.inj flying)
    refine rows.imp fun id row is seq live => ?_
    obtain ⟨seq', live', is⟩ := is
    exact Option.some.inj (live'.symm.trans live) ▸ is
  have over_ : w.schedule texts = some ⟨t, forward texts t plan.rows w.device, some plan, []⟩ := by
    unfold World.schedule
    rw [scheduled]
    rfl
  by_cases empty : plan.isEmpty
  · -- nothing is batched, so nothing is asked for or written
    have none : es = [] := by
      obtain ⟨maxQ, maxK, batch⟩ := batch_of_scheduled made
      have tokens : plan.batch.tokens.length = 0 := List.length_eq_zero_iff.mpr (List.isEmpty_iff.mp empty)
      rw [batch] at tokens
      change (batchOf base.cfg.blockSize es).tokens.length = 0 at tokens
      rw [batchOf_tokens_length] at tokens
      refine List.eq_nil_iff_forall_not_mem.mpr fun e mem => ?_
      have le := List.single_le_sum (l := es.map Entry.q) (by simp) e.q (List.mem_map_of_mem mem)
      have pos := (made.covered e mem).pos
      omega
    have still : forward texts t plan.rows w.device = w.device := by
      rw [made.rows cfg suits.fits, none]
      rfl
    refine ⟨_, _, ?_, over_, own rfl (still.symm ▸ h.mirrors), plan, _, scheduled, rfl, rows⟩
    unfold Inference.schedule
    rw [h.scheduler, scheduled]
    simp only [Option.bind_eq_bind, Option.bind_some, if_pos empty, none]
    rfl
  · refine ⟨_, _, ?_, over_, own rfl mirrors, plan, _, scheduled, rfl, rows⟩
    have given : (d.answers f (textOf t) (askedOf es)).getD [] =
        (askedOf es).map fun a => d.plain f (upTo (textOf t) a) := by
      unfold Decoder.answers
      split
      · rename_i none
        rw [none]
        rfl
      · rfl
    unfold Inference.schedule
    rw [h.scheduler, scheduled]
    simp only [Option.bind_eq_bind, Option.bind_some, if_neg empty, answered, given]

theorem Follows.commit (h : Follows f d numBlocks base.cfg.blockSize x w) (standing : Standing base w)
    (sampled : List Token) :
    Option.Rel (Follows f d numBlocks base.cfg.blockSize) (x.commit sampled) (w.commit sampled) := by
  unfold Inference.commit World.commit
  have flying := h.inFlight
  cases waiting : x.inFlight with
  | none =>
    rw [waiting] at flying
    rw [← flying]
    exact .none
  | some flight =>
    obtain ⟨plan, rows⟩ := flight
    rw [waiting] at flying
    rw [← flying]
    simp only [Option.map_some, Option.bind_eq_bind, Option.bind_some]
    split
    · exact .none
    · rename_i enough
      obtain ⟨es, fl⟩ := standing.flight plan flying.symm
      rw [h.scheduler]
      cases committed : w.scheduler.commit plan sampled with
      | none => exact .none
      | some t =>
        obtain ⟨length, each⟩ := List.forall₂_iff_zip.mp (h.rows plan rows waiting)
        have firsts : (plan.sampledSeqs.zip rows).map Prod.fst = plan.sampledSeqs :=
          List.map_fst_zip (Nat.le_of_eq length)
        refine .some ⟨rfl, rfl, ?_, h.mirrors, (fun _ _ none => by cases none), fun l mem seq' live => ?_⟩
        · show ((plan.sampledSeqs.zip rows).filter ((fun id => (t.seqs id).any (·.numGenerated = 1)) ∘ Prod.fst)).map
            Prod.fst = _
          rw [← List.filter_map, firsts]
        · -- its first token is the one after the prompt
          obtain ⟨mem, first⟩ := List.mem_filter.mp mem
          obtain ⟨seq, live', ⟨out, -⟩ | ⟨i, token, -, -, more⟩⟩ :=
            standing.sound.commit_texts fl (not_not.mp enough) committed live
          · exact absurd (List.of_mem_zip mem).1 out
          · rw [each mem seq (h.scheduler ▸ live')]
            rw [live, Option.any_some, decide_eq_true_eq, Sequence.numGenerated, more.tokens, more.promptLen] at first
            change (seq.tokens ++ [token]).length - seq.promptLen = 1 at first
            rw [List.length_append, List.length_singleton] at first
            have whole : seq.promptLen = seq.tokens.length := by
              have := seq.promptLen_le
              have := seq.target_le
              omega
            rw [Sequence.prompt, more.tokens, more.promptLen]
            change _ = d.plain f ((seq.tokens ++ [token]).take seq.promptLen)
            rw [whole, List.take_left]

/-- The copies of a fork are of blocks that there are. -/
theorem fork_copies_inside {s t : Scheduler B} {extra : BlockId → Nat} {parent : SeqId} {tokens : List Token}
    {fork : Fork} (balanced : Balanced base s extra) (forked : s.fork parent tokens.length = (t, .ok fork)) :
    ∀ pair ∈ fork.copies, pair.1 < base.pool.numBlocks ∧ pair.2 < base.pool.numBlocks := by
  obtain ⟨balanced', seq, made, live, -, -, is, -⟩ := fork_ok balanced forked
  intro pair mem
  rw [is.copies] at mem
  obtain ⟨blocks, made_, copy⟩ := List.mem_flatMap.mp (by simpa using mem)
  obtain ⟨source, target, -⟩ := mem_childCopy.mp copy
  obtain ⟨k, here⟩ := List.getElem?_of_mem made_
  constructor
  · rw [← balanced.setup.shape.numBlocks]
    exact balanced.wf.lt_of_pos (balanced.pos_refcount live (List.mem_of_getElem? source))
  · rw [← balanced'.setup.shape.numBlocks]
    exact balanced'.wf.lt_of_pos (balanced'.pos_refcount (is.new k blocks here) (List.mem_of_getElem? target))

theorem Follows.fork (h : Follows f d numBlocks base.cfg.blockSize x w) (suits : Suits base d numBlocks)
    (stored : Stored (fun _ ts => ts) base w) {parent : SeqId} {tokens : List Token}
    (keeps : w.Keeps (.fork parent tokens)) :
    Option.Rel (Follows f d numBlocks base.cfg.blockSize) (x.fork base.cfg.blockSize parent tokens)
      (w.fork parent tokens) := by
  unfold Inference.fork World.fork
  rw [h.leaders, h.scheduler]
  split
  · exact .none
  · rename_i leads
    rw [not_not] at leads
    have idle : x.inFlight = none := by
      have none := h.inFlight
      rwa [stored.apart.resolve_left (List.ne_nil_of_mem leads), Option.map_eq_none_iff] at none
    have erased : (x.leaders.eraseP (parent == ·.1)).map Prod.fst = w.leaders.erase parent := by
      rw [List.erase_eq_eraseP, ← h.leaders, List.eraseP_map]
      rfl
    have seeds := stored.standing.seeds suits.fits keeps leads parent tokens rfl
    have led {t : Scheduler B} (old : ∀ id, id < w.scheduler.nextId → t.seqs id = w.scheduler.seqs id) :
        ∀ l ∈ x.leaders.eraseP (parent == ·.1), ∀ seq, t.seqs l.1 = some seq → l.2 = d.plain f seq.prompt := by
      intro l mem seq live
      have mem := List.mem_of_mem_eraseP mem
      have before := stored.standing.led l.1 (h.leaders ▸ List.mem_map_of_mem mem)
      rw [old l.1 before, ← h.scheduler] at live
      exact h.led l mem seq live
    obtain ⟨extra, balanced⟩ := stored.standing.sound.balanced
    rcases forked : w.scheduler.fork parent tokens.length with ⟨t, err | fork⟩
    · rw [forked] at seeds
      refine .some ⟨rfl, h.inFlight, erased, h.mirrors, fun plan rows flying => ?_, led fun id _ => ?_⟩
      · exact absurd (idle.symm.trans flying) (by simp)
      · change t.seqs = w.scheduler.seqs at seeds
        rw [seeds]
    · rw [forked] at seeds
      obtain ⟨caches, copied, mirrors⟩ := copyBlocks_mirrors f (fun pair mem =>
        (fork_copies_inside balanced forked pair mem).imp (Nat.lt_of_lt_of_le · suits.enough)
          (Nat.lt_of_lt_of_le · suits.enough)) h.mirrors
      simp only [copied]
      refine .some ⟨rfl, h.inFlight, erased, mirrors, fun plan rows flying => ?_, led fun id lt => ?_⟩
      · exact absurd (idle.symm.trans flying) (by simp)
      · exact (fork_old ⟨extra, balanced⟩ forked seeds).1 id lt

end Vapi.Backend
