import Vapi.Cache.Isolation
import Vapi.Engine.Content

/-!
# Cached content over runs

As long as a fork finds its parent running, with a block for every child or
none even for the first, an engine's device holds what its index and its
sequences say.
-/

namespace Vapi.Engine

open Vapi.Cache
open Paged (Memory Holds)
open Transition (Run Guarded)

variable {H : Type} {B : Blake3 H} {KV : Type}

/-- A fork that makes children finds its parent running, and a block for every
child or none to spare. -/
def World.Keeps (w : World B KV) (e : Event) : Prop :=
  ∀ parent tokens, e = .fork parent tokens → tokens = [] ∨
    ∀ seq, w.scheduler.seqs parent = some seq → seq.status.place = .running ∧
      (tokens.length + w.scheduler.pool.watermark ≤ w.scheduler.pool.numFree ∨
        w.scheduler.pool.numFree ≤ w.scheduler.pool.watermark)

variable [DecidableEq H]

section Seeds

variable {base s t : Scheduler B} {w : World B KV}

/-- A child that has the blocks for its first token gets it. -/
theorem seedFork_roomy {id : SeqId} {seq : Sequence} (live : s.seqs id = some seq)
    (room : s.pool.blocksFor (seq.numComputed + 1) ≤ seq.blocks.length) (token : Token) :
    ∃ t, s.seedFork id token = (t, .ok ()) ∧ t.pool = s.pool ∧
      t.seqs = Function.update s.seqs id (some (seq.pushToken token)) := by
  have none_ : s.pool.blocksFor ((seq.pushToken token).numComputed + 1) - (seq.pushToken token).blocks.length = 0 :=
    Nat.sub_eq_zero_of_le room
  unfold Scheduler.seedFork
  simp only [live]
  rw [none_]
  refine ⟨_, rfl, rfl, ?_⟩
  change Function.update s.seqs id (some ((seq.pushToken token).withBlocks (seq.blocks ++ []))) = _
  rw [List.append_nil]
  rfl

theorem seedAll_roomy {l : List (SeqId × Token)}
    (room : ∀ p ∈ l, ∃ seq, s.seqs p.1 = some seq ∧ s.pool.blocksFor (seq.numComputed + 1) ≤ seq.blocks.length) :
    (seedAll l s).2 = true := by
  induction l generalizing s with
  | nil => rfl
  | cons p l ih =>
    obtain ⟨id, token⟩ := p
    obtain ⟨seq, live, enough⟩ := room (id, token) (by simp)
    obtain ⟨t, seeded, pool, seqs⟩ := seedFork_roomy live enough token
    unfold seedAll
    rw [seeded]
    refine ih fun p hp => ?_
    obtain ⟨seq', live', enough'⟩ := room p (by simp [hp])
    rw [pool, seqs]
    by_cases same : p.1 = id
    · rw [same] at live' ⊢
      obtain rfl := Option.some.inj (live.symm.trans live')
      exact ⟨_, Function.update_self .., enough'⟩
    · exact ⟨seq', by rw [Function.update_of_ne same]; exact live', enough'⟩

omit [DecidableEq H] in
/-- A running leader has the block its first token goes to. -/
theorem Standing.openBlock (h : Standing base w) {parent : SeqId} (leads : parent ∈ w.leaders) {seq : Sequence}
    (live : w.scheduler.seqs parent = some seq) (place : seq.status.place = .running) :
    seq.numComputed / w.scheduler.cfg.blockSize < seq.blocks.length := by
  have room := h.sound.roomy parent seq live place
  have computed := (h.leaders parent leads seq live).1
  have short := seq.promptLen_le
  exact Nat.div_lt_of_lt_mul (by rw [Nat.mul_comm]; omega)

theorem Standing.seeds (h : Standing base w) (fits : Fits base) {parent : SeqId} {tokens : List Token}
    (keeps : w.Keeps (.fork parent tokens)) (leads : parent ∈ w.leaders) : w.Seeds (.fork parent tokens) := by
  intro parent' tokens' eq
  cases eq
  have keeps := keeps parent tokens rfl
  obtain ⟨extra, bal⟩ := h.sound.balanced
  cases live : w.scheduler.seqs parent with
  | none =>
    have refused : w.scheduler.fork parent tokens.length =
        (w.scheduler, .error (.engine "fork: no such sequence")) := by simp [Scheduler.fork, live]
    rw [refused]
  | some seq =>
    cases ready : seq.needsPrefill with
    | true =>
      have refused : w.scheduler.fork parent tokens.length =
          (w.scheduler, .error (.engine "fork: the parent has not finished prefilling")) := by
        simp [Scheduler.fork, live, ready]
      rw [refused]
    | false =>
      have held : ∀ b ∈ (Scheduler.forkSource seq).blocks, 0 < w.scheduler.pool.refcount b :=
        fun b hb => bal.pos_refcount live hb
      rcases forked : w.scheduler.fork parent tokens.length with ⟨t, err | fork⟩
      · rw [fork_eq live ready] at forked
        obtain ⟨some_, isOpen, tight⟩ := (forkChildren_error_iff bal held tokens.length {}).mp ⟨err, by rw [forked]⟩
        obtain ⟨n, length⟩ := Nat.exists_eq_succ_of_ne_zero some_
        rcases keeps with rfl | keeps
        · exact absurd rfl some_
        · obtain ⟨-, enough | empty⟩ := keeps seq live
          · omega
          · obtain ⟨e, refused⟩ := (childBlocks_error_iff bal.wf held).mpr ⟨isOpen, by omega⟩
            rcases hc : Scheduler.childBlocks (Scheduler.forkSource seq) w.scheduler.cfg.blockSize w.scheduler.pool
              with ⟨pool, r⟩
            rw [hc] at refused
            change r = .error e at refused
            rw [length, Scheduler.forkChildren, hc, refused] at forked
            obtain ⟨rfl, -⟩ := Prod.mk.inj forked
            rfl
      · obtain ⟨bal', seq', made, live', -, lengths, f, -⟩ := fork_ok bal forked
        obtain rfl := Option.some.inj (live.symm.trans live')
        refine seedAll_roomy fun p hp => ?_
        rcases keeps with rfl | keeps
        · simp at hp
        · have isOpen := h.openBlock leads live (keeps seq live).1
          have first := List.mem_map_of_mem (f := Prod.fst) hp
          rw [(f.pairs lengths).1] at first
          obtain ⟨le, lt⟩ := List.mem_range'_1.mp first
          obtain ⟨k, hk⟩ := Nat.exists_eq_add_of_le le
          have inMade : k < made.length := by omega
          have new := f.new k made[k] (List.getElem?_eq_getElem inMade)
          refine ⟨_, hk ▸ new, ?_⟩
          have blockSize : t.pool.blockSize = w.scheduler.cfg.blockSize :=
            bal'.setup.shape.blockSize.trans (fits.same.trans (congrArg _ h.sound.setup.cfg.symm))
          have size : 0 < w.scheduler.cfg.blockSize := h.sound.setup.cfg ▸ fits.size
          change t.pool.blocksFor (seq.numComputed + 1) ≤ made[k].length
          rw [(f.blocks _ (List.getElem_mem inMade)).length]
          unfold BlockPool.blocksFor
          rw [blockSize]
          have ceil : seq.numComputed + 1 + w.scheduler.cfg.blockSize - 1 =
              seq.numComputed + w.scheduler.cfg.blockSize := by omega
          rw [ceil, Nat.add_div_right _ size]
          exact Nat.le_min.mpr ⟨isOpen, Nat.le_refl _⟩

end Seeds

section Invariant

variable {kv : String → List Token → KV} {base : Scheduler B} {w w' : World B KV} {kernel : Kernel KV}

/-- The device holds what the index and the sequences say; the sequences of a
plan in flight have its positions as well. -/
structure Stored (kv : String → List Token → KV) (base : Scheduler B) (w : World B KV) : Prop where
  standing : Standing base w
  content : Content kv w.scheduler w.device
  flown : ∀ plan, w.inFlight = some plan → ∃ es, Flight w.scheduler plan es ∧
    ∀ x ∈ es, ∀ seq, w.scheduler.seqs x.id = some seq → seq.status.place = .running →
      Holds w.device w.scheduler.cfg.blockSize seq.blocks x.stop (seq.content kv)
  apart : w.leaders = [] ∨ w.inFlight = none

omit [DecidableEq H] in
/-- A call after which only sequences that ran before run, and as they were. -/
theorem Stored.setScheduler (h : Stored kv base w) {t : Scheduler B} (standing : Standing base (w.setScheduler t))
    (flies : ∀ plan es, Flight w.scheduler plan es → Flight t plan es)
    (named : ∀ k b, t.pool.byHash k = some b → w.scheduler.pool.byHash k = some b)
    (seqs : ∀ id seq, t.seqs id = some seq → seq.status.place = .running → w.scheduler.seqs id = some seq) :
    Stored kv base (w.setScheduler t) := by
  have cfg : t.cfg = w.scheduler.cfg := standing.sound.setup.cfg.trans h.standing.sound.setup.cfg.symm
  refine ⟨standing, h.content.of_seqs cfg (standing.sound.setup.cacheNamespace.trans
    h.standing.sound.setup.cacheNamespace.symm) named seqs, fun plan flying => ?_, .inl rfl⟩
  obtain ⟨es, f, holds⟩ := h.flown plan flying
  refine ⟨es, flies plan es f, fun x hx seq live place => ?_⟩
  have := holds x hx seq (seqs x.id seq live place) place
  rw [← cfg] at this
  exact this

omit [DecidableEq H] in
/-- What runs after sequences at most finished and went, ran before. -/
theorem running_of_flown {s t : Scheduler B}
    (seqs : ∀ id, t.seqs id = s.seqs id ∨ t.seqs id = none ∨ ∃ seq reason, s.seqs id = some seq ∧
      t.seqs id = some ((seq.withStatus (.finished reason)).withBlocks []))
    (id : SeqId) (seq : Sequence) (live : t.seqs id = some seq) (place : seq.status.place = .running) :
    s.seqs id = some seq := by
  rcases seqs id with same | gone | ⟨old, reason, -, retired⟩
  · exact same ▸ live
  · exact absurd (live.symm.trans gone) (by simp)
  · obtain rfl := Option.some.inj (live.symm.trans retired)
    cases place

omit [DecidableEq H] in
theorem Stored.retire (h : Stored kv base w) {t : Scheduler B} (sound : Sound base t)
    (nextId : w.scheduler.nextId ≤ t.nextId)
    (named : ∀ k b, t.pool.byHash k = some b → w.scheduler.pool.byHash k = some b)
    (seqs : ∀ id, t.seqs id = w.scheduler.seqs id ∨ t.seqs id = none ∨ ∃ seq reason,
      w.scheduler.seqs id = some seq ∧ t.seqs id = some ((seq.withStatus (.finished reason)).withBlocks [])) :
    Stored kv base (w.setScheduler t) :=
  h.setScheduler (h.standing.setScheduler sound nextId fun id _ => seqs id)
    (fun _ _ f => f.of_seqs (sound.setup.cfg.trans h.standing.sound.setup.cfg.symm) nextId fun id _ => seqs id)
    named (running_of_flown seqs)

theorem Stored.schedule (h : Stored kv base w) (fits : Fits base)
    (cf : CollisionFree base.cacheNamespace base.cfg.blockSize) (computes : Computes kernel kv base.cfg.blockSize)
    (e : w.schedule kernel = some w') : Stored kv base w' := by
  have standing := h.standing.schedule fits.committable e
  obtain ⟨t, plan, es, scheduled, made, content, flown⟩ :=
    schedule_content fits h.standing.sound cf computes h.content
  unfold World.schedule at e
  rw [scheduled] at e
  obtain rfl := Option.some.inj e
  refine ⟨standing, content, fun plan' flying => ?_, .inl rfl⟩
  obtain rfl := Option.some.inj flying
  refine ⟨es, made.flight h.standing.sound.setup.cfg fits, fun x hx seq live _ => ?_⟩
  obtain rfl := Option.some.inj ((made.current x hx).symm.trans live)
  have := flown x hx
  rw [← made.sound.setup.cfg] at this
  exact this

theorem Stored.commit (h : Stored kv base w) (fits : Fits base)
    (cf : CollisionFree base.cacheNamespace base.cfg.blockSize) {sampled : List Token}
    (e : w.commit sampled = some w') : Stored kv base w' := by
  have standing := h.standing.commit e
  obtain ⟨plan, flying, e⟩ := bind_some e
  obtain ⟨es, f, flown⟩ := h.flown plan flying
  split at e
  · cases e
  · obtain ⟨t, committed, e⟩ := bind_some e
    obtain rfl := Option.some.inj e
    exact ⟨standing, commit_content h.standing.sound cf fits.size f committed h.content flown, by simp, .inr rfl⟩

theorem Stored.fork (h : Stored kv base w) (fits : Fits base) {parent : SeqId} {tokens : List Token}
    (keeps : w.Keeps (.fork parent tokens)) (e : w.fork parent tokens = some w') : Stored kv base w' := by
  unfold World.fork at e
  split at e
  · cases e
  · rename_i leads
    rw [not_not] at leads
    have seeds := h.standing.seeds fits keeps leads
    have standing : ∀ w', w.fork parent tokens = some w' → Standing base w' :=
      fun w' e => h.standing.fork fits.committable seeds e
    unfold World.fork at standing
    rw [if_neg (by simp [leads])] at standing
    have idle : w.inFlight = none := h.apart.resolve_left (List.ne_nil_of_mem leads)
    have seeds := seeds parent tokens rfl
    obtain ⟨extra, bal⟩ := h.standing.sound.balanced
    rcases forked : w.scheduler.fork parent tokens.length with ⟨t, err | fork⟩
    · rw [forked] at e seeds standing
      obtain rfl := Option.some.inj e
      have standing := standing _ rfl
      refine ⟨standing, ?_, fun plan flying => ?_, .inr idle⟩
      · refine h.content.of_seqs (standing.sound.setup.cfg.trans h.standing.sound.setup.cfg.symm)
          (standing.sound.setup.cacheNamespace.trans h.standing.sound.setup.cacheNamespace.symm)
          (fun k b hb => fork_byHash bal parent tokens.length (by rw [forked]; exact hb)) fun id seq live _ => ?_
        change t.seqs = w.scheduler.seqs at seeds
        exact seeds ▸ live
      · exact absurd (idle.symm.trans flying) (by simp)
    · rw [forked] at e seeds standing
      obtain rfl := Option.some.inj e
      refine ⟨standing _ rfl, ?_, fun plan flying => absurd (idle.symm.trans flying) (by simp), .inr idle⟩
      refine fork_content ⟨extra, bal⟩ h.standing.sound.exclusive forked seeds
        (fun seq live => Nat.le_of_eq (h.standing.leaders parent leads seq live).1) (fun seq live => ?_) h.content
      rcases keeps parent tokens rfl with none | keeps
      · exact .inl none
      · exact .inr (keeps seq live).1

theorem Stored.step (h : Stored kv base w) (fits : Fits base)
    (cf : CollisionFree base.cacheNamespace base.cfg.blockSize) (computes : Computes kernel kv base.cfg.blockSize)
    {e : Event} (keeps : w.Keeps e) (step : w.Step kernel e w') : Stored kv base w' := by
  have sound := h.standing.sound
  obtain ⟨extra, bal⟩ := sound.balanced
  unfold World.Step World.exec at step
  cases e with
  | admitRequest requestId prompt params tenant =>
    obtain rfl := Option.some.inj step
    have lineage := admit_lineage sound.queued requestId prompt params tenant
    have admitted : w.Step kernel (.admitRequest requestId prompt params tenant)
      (w.setScheduler (w.scheduler.admitRequest requestId prompt params tenant).1) := rfl
    have standing := h.standing.step fits.committable (by simp [World.Seeds]) admitted
    have seqs : ∀ id, id < w.scheduler.nextId →
        (w.scheduler.admitRequest requestId prompt params tenant).1.seqs id = w.scheduler.seqs id := by
      intro id lt
      unfold Scheduler.admitRequest
      split
      · rfl
      · split
        · rfl
        · exact Function.update_of_ne (Nat.ne_of_lt lt) ..
    refine h.setScheduler standing
      (fun _ _ f => f.of_seqs (standing.sound.setup.cfg.trans sound.setup.cfg.symm) lineage.nextId
        fun id lt => .inl (seqs id lt)) (fun k b hb => ?_) fun id seq live place => ?_
    · unfold Scheduler.admitRequest at hb
      split at hb
      · exact hb
      · split at hb <;> exact hb
    · unfold Scheduler.admitRequest at live
      split at live
      · exact live
      · split at live
        · exact live
        · change Function.update w.scheduler.seqs w.scheduler.nextId _ id = some seq at live
          rw [Function.update_apply] at live
          split at live
          · obtain rfl := Option.some.inj live
            cases place
          · exact live
  | schedule => exact h.schedule fits cf computes step
  | commit sampled => exact h.commit fits cf step
  | fork parent tokens => exact h.fork fits keeps step
  | cancel requestId =>
    obtain rfl := Option.some.inj step
    refine h.retire (sound.cancel requestId) (cancel_lineage sound.queued requestId).nextId (fun k b hb => ?_)
      fun id => (cancel_flown w.scheduler requestId id).imp_right .inr
    rw [cancel_byHash bal] at hb
    exact hb
  | finishWith id reason =>
    obtain rfl := Option.some.inj step
    refine h.retire (sound.finish id reason) (finish_lineage sound.queued id reason).nextId (fun k b hb => ?_)
      fun x => (finish_flown w.scheduler id reason x).imp_right .inr
    rw [← finish_byHash bal id reason]
    exact hb
  | drainFinished =>
    obtain rfl := Option.some.inj step
    refine h.retire sound.drainFinished (drainFinished_lineage sound.queued).nextId (fun k b hb => ?_)
      fun x => (drainFinished_flown w.scheduler x).imp_right .inl
    rw [(drainFinished_emptied w.scheduler).pool] at hb
    exact hb

end Invariant

/-- A row writes what its token and all before it determine. -/
def rowContent (kv : String → List Token → KV) : Kernel KV :=
  fun seq _ row => kv seq.tenant (seq.tokens.take (row.position + 1))

omit [DecidableEq H] in
theorem new_stored {cfg : SchedulerConfig} {n watermark : Nat} {ns : CacheNamespace B} {eos : List Token}
    (kv : String → List Token → KV) :
    Stored kv (Scheduler.new cfg (BlockPool.new n cfg.blockSize watermark) ns eos)
      (World.new (Scheduler.new cfg (BlockPool.new n cfg.blockSize watermark) ns eos)) where
  standing := new_standing cfg n watermark ns eos
  content := ⟨fun h b named => absurd named (by
    simp [World.new, Scheduler.new, (new_fields n cfg.blockSize watermark).2.2.2]), by simp [World.new, Scheduler.new]⟩
  flown := by simp [World.new]
  apart := .inl rfl

/-- In a run whose forks keep to it, every block the index names holds the
block of text its name stands for, and every running sequence's blocks hold its
text as far as it is computed. -/
theorem cached_content {cfg : SchedulerConfig} {n watermark : Nat} {ns : CacheNamespace B} {eos : List Token}
    {kv : String → List Token → KV} {es : List Event} {w : World B KV} (size : 0 < cfg.blockSize)
    (slots : n * cfg.blockSize ≤ 2 ^ 32) (lengths : cfg.maxBatchedTokens * cfg.maxContext < 2 ^ 32)
    (cf : CollisionFree ns cfg.blockSize)
    (run : Run (Guarded World.Keeps (World.Step (rowContent kv)))
      (World.new (Scheduler.new cfg (BlockPool.new n cfg.blockSize watermark) ns eos)) es w) :
    (∀ h b, w.scheduler.pool.byHash h = some b →
      (∃ tenant ts, ∃ i : Nat, (hashBlockChain (ns.forTenant tenant) ts cfg.blockSize)[i]? = some h) ∧
      ∀ tenant ts, ∀ i : Nat, (hashBlockChain (ns.forTenant tenant) ts cfg.blockSize)[i]? = some h →
        ∀ o, o < cfg.blockSize → w.device b o = some (kv tenant (ts.take (i * cfg.blockSize + o + 1)))) ∧
    ∀ id seq, w.scheduler.seqs id = some seq → seq.status.place = .running →
      Holds w.device cfg.blockSize seq.blocks seq.numComputed (seq.content kv) := by
  have fits := Fits.new watermark ns eos size slots lengths
  have stored := run.invariant (Stored kv _) (new_stored kv)
    fun _ _ _ h step => h.step fits cf (fun _ _ _ _ _ => rfl) step.1 step.2
  have setup := stored.standing.sound.setup
  have index := stored.content.index
  constructor
  · intro h b named
    obtain ⟨tenant, ts, i, chain, -⟩ := index h b named
    rw [setup.cfg, setup.cacheNamespace] at chain
    refine ⟨⟨tenant, ts, i, chain⟩, fun tenant ts i chain o lt => ?_⟩
    have block := index.block (by rw [setup.cfg, setup.cacheNamespace]; exact cf) (by rw [setup.cfg]; exact size)
      (by rw [setup.cfg, setup.cacheNamespace]; exact chain) named (by rw [setup.cfg]; exact lt)
    rw [setup.cfg] at block
    exact block
  · intro id seq live place
    have holds := stored.content.filled id seq live place
    rw [computed_of live, setup.cfg] at holds
    exact holds

/-- A leader whose one token is its last is forked all the same: its blocks are
gone, and the child has fresh ones in their place, none of them written. -/
theorem finished_leader_forked :
    ∃ w : World Blake3.identity (List Token), Run (World.Step (rowContent fun _ ts => ts))
      (World.new (Scheduler.fresh { blockSize := 1, prefixCache := false } 8 0))
      [.admitRequest ⟨"r"⟩ [1, 2] { maxTokens := 1, n := 2 } "global", .schedule, .commit [3], .fork 0 [5]] w ∧
      ∃ seq, w.scheduler.seqs 1 = some seq ∧ seq.status.place = .running ∧
        ¬Holds w.device 1 seq.blocks seq.numComputed (seq.content fun _ ts => ts) := by
  refine ⟨_, runs_steps rfl, _, rfl, rfl, fun holds => ?_⟩
  exact absurd (holds 0 (by decide)) (by decide)

/-- With two tokens to go it is still running, and the child has a copy. -/
theorem cached_content_forked :
    ∃ w : World Blake3.identity (List Token), Run (Guarded World.Keeps (World.Step (rowContent fun _ ts => ts)))
      (World.new (Scheduler.fresh { blockSize := 4, prefixCache := false } 8 0))
      [.admitRequest ⟨"r"⟩ [1, 2] { maxTokens := 2, n := 2 } "global", .schedule, .commit [3], .fork 0 [5]] w ∧
      ∀ id seq, w.scheduler.seqs id = some seq → seq.status.place = .running →
        Holds w.device 4 seq.blocks seq.numComputed (seq.content fun _ ts => ts) := by
  obtain ⟨w, steps, placed, room, forked⟩ : ∃ w : World Blake3.identity (List Token),
      World.runs (rowContent fun _ ts => ts) [.admitRequest ⟨"r"⟩ [1, 2] { maxTokens := 2, n := 2 } "global",
        .schedule, .commit [3]] (World.new (Scheduler.fresh { blockSize := 4, prefixCache := false } 8 0)) = some w ∧
      (w.scheduler.seqs 0).all (fun seq => seq.status.place = .running) = true ∧
      1 + w.scheduler.pool.watermark ≤ w.scheduler.pool.numFree ∧ (w.fork 0 [5]).isSome :=
    ⟨_, rfl, by decide, by decide, by decide⟩
  have kept : w.Keeps (.fork 0 [5]) := by
    intro parent tokens same
    cases same
    refine .inr fun seq live => ⟨?_, .inl room⟩
    rw [live] at placed
    exact of_decide_eq_true placed
  obtain ⟨w', forked⟩ := Option.isSome_iff_exists.mp forked
  have run : Run (Guarded World.Keeps (World.Step (rowContent fun _ ts => ts))) _ _ w' :=
    (runs_calm steps (by simp [World.Keeps])).snoc ⟨kept, forked⟩
  have cf : CollisionFree (CacheNamespace.new "model" "weights" .f32 none "global") 4 :=
    identity_collisionFree _ _
  exact ⟨w', run, (cached_content (by decide) (by decide) (by decide) cf run).2⟩

end Vapi.Engine
