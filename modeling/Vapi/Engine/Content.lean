import Vapi.Engine.Batches

/-!
# What the cache holds

The device holds, for every block the index names, the keys and values of the
text its hash stands for; and, for every running sequence, those of its own
text as far as it is computed. `kv` gives the keys and values of a token in
its text: of the last one of a tenant's tokens.
-/

namespace Vapi.Engine

open Vapi.Cache
open Paged (Memory Holds)
open Transition (Run Guarded)

variable {H : Type} {B : Blake3 H} {KV : Type}

/-- The keys and values of a sequence's positions. -/
def Sequence.content (kv : String → List Token → KV) (seq : Sequence) (i : Nat) : KV :=
  kv seq.tenant (seq.tokens.take (i + 1))

/-- Every block the index names holds a block of the text its hash stands for. -/
def IndexSound (kv : String → List Token → KV) (s : Scheduler B) (d : Memory KV) : Prop :=
  ∀ h b, s.pool.byHash h = some b → ∃ tenant ts i,
    (hashBlockChain (s.cacheNamespace.forTenant tenant) ts s.cfg.blockSize)[i]? = some h ∧
    ∀ o, o < s.cfg.blockSize → d b o = some (kv tenant (ts.take (i * s.cfg.blockSize + o + 1)))

/-- Every running sequence's positions up to its mark hold its own text. -/
structure Marked (kv : String → List Token → KV) (s : Scheduler B) (d : Memory KV) (mark : SeqId → Nat) :
    Prop where
  index : IndexSound kv s d
  filled : ∀ id seq, s.seqs id = some seq → seq.status.place = .running →
    Holds d s.cfg.blockSize seq.blocks (mark id) (seq.content kv)

/-- As far as each is computed. -/
def Scheduler.computed (s : Scheduler B) (id : SeqId) : Nat :=
  match s.seqs id with
  | some seq => seq.numComputed
  | none => 0

abbrev Content (kv : String → List Token → KV) (s : Scheduler B) (d : Memory KV) : Prop :=
  Marked kv s d s.computed

/-- What a row writes is what its token's place in the text says, once what
comes before it is in place. -/
def Computes (kernel : Kernel KV) (kv : String → List Token → KV) (bs : Nat) : Prop :=
  ∀ (e : Entry) (d : Memory KV) (i : Nat), i < e.seq.tokens.length →
    Holds d bs e.seq.blocks i (e.seq.content kv) → kernel e.seq d (e.row bs i) = e.seq.content kv i

variable {kv : String → List Token → KV} {s t : Scheduler B} {d : Memory KV}

theorem computed_of {id : SeqId} {seq : Sequence} (live : s.seqs id = some seq) :
    s.computed id = seq.numComputed := by
  unfold Scheduler.computed
  rw [live]

/-- The index loses names, the device keeps what they name. -/
theorem IndexSound.mono {d' : Memory KV} (h : IndexSound kv s d) (cfg : t.cfg = s.cfg)
    (ns : t.cacheNamespace = s.cacheNamespace)
    (named : ∀ k b, t.pool.byHash k = some b → s.pool.byHash k = some b ∧ d' b = d b) : IndexSound kv t d' := by
  intro k b hb
  obtain ⟨before, same⟩ := named k b hb
  rw [cfg, ns, same]
  exact h k b before

/-- Equal texts up to a position have the same content there. -/
theorem Sequence.content_eq {a b : Sequence} {i : Nat} (tenant : b.tenant = a.tenant)
    (text : b.tokens.take (i + 1) = a.tokens.take (i + 1)) : b.content kv i = a.content kv i := by
  rw [Sequence.content, Sequence.content, tenant, text]

/-- Sequences that stay as they are, or no longer run, and an index that only
loses names. -/
theorem Content.of_seqs (h : Content kv s d) (cfg : t.cfg = s.cfg) (ns : t.cacheNamespace = s.cacheNamespace)
    (named : ∀ k b, t.pool.byHash k = some b → s.pool.byHash k = some b)
    (seqs : ∀ id seq, t.seqs id = some seq → seq.status.place = .running → s.seqs id = some seq) :
    Content kv t d := by
  refine ⟨h.index.mono cfg ns fun k b hb => ⟨named k b hb, rfl⟩, fun id seq live place => ?_⟩
  have before := seqs id seq live place
  have := h.filled id seq before place
  rw [computed_of before] at this
  rwa [computed_of live, cfg]

/-- What the index names for a text's own hash is that text's block. -/
theorem IndexSound.block (h : IndexSound kv s d) (cf : CollisionFree s.cacheNamespace s.cfg.blockSize)
    (size : 0 < s.cfg.blockSize) {tenant : String} {ts : List Token} {j o : Nat} {k : H} {b : BlockId}
    (chain : (hashBlockChain (s.cacheNamespace.forTenant tenant) ts s.cfg.blockSize)[j]? = some k)
    (named : s.pool.byHash k = some b) (lt : o < s.cfg.blockSize) :
    d b o = some (kv tenant (ts.take (j * s.cfg.blockSize + o + 1))) := by
  obtain ⟨tenant', ts', i, chain', holds⟩ := h k b named
  obtain ⟨rfl, rfl, text⟩ := cf.same size chain' chain
  have le : i * s.cfg.blockSize + o + 1 ≤ (i + 1) * s.cfg.blockSize := by
    rw [Nat.succ_mul]
    omega
  have cut := congrArg (List.take (i * s.cfg.blockSize + o + 1)) text
  rw [List.take_take, List.take_take, Nat.min_eq_left le] at cut
  rw [holds o lt, cut]

/-- One sequence changes, and holds its own text. -/
theorem Content.change (h : Content kv s d) {id : SeqId} {new : Sequence} (cfg : t.cfg = s.cfg)
    (ns : t.cacheNamespace = s.cacheNamespace)
    (named : ∀ k b, t.pool.byHash k = some b → s.pool.byHash k = some b)
    (seqs : t.seqs = Function.update s.seqs id (some new))
    (mine : new.status.place = .running →
      Holds d s.cfg.blockSize new.blocks new.numComputed (new.content kv)) : Content kv t d := by
  refine ⟨h.index.mono cfg ns fun k b hb => ⟨named k b hb, rfl⟩, fun x seq live place => ?_⟩
  rw [computed_of live, cfg]
  rw [seqs, Function.update_apply] at live
  split at live
  · obtain rfl := Option.some.inj live
    exact mine place
  · exact computed_of live ▸ h.filled x seq live place

variable [DecidableEq H]

section Passes

variable {p p' : Pass B} {extra : BlockId → Nat} {base : Scheduler B}

theorem passStep_content (step : PassStep p p') (bal : Balanced base p.scheduler extra)
    (regular : Regular p.scheduler)
    (cf : CollisionFree p.scheduler.cacheNamespace p.scheduler.cfg.blockSize)
    (size : 0 < p.scheduler.cfg.blockSize)
    (same : p.scheduler.pool.blockSize = p.scheduler.cfg.blockSize) (h : Content kv p.scheduler d) :
    Content kv p'.scheduler d := by
  cases step with
  | @batch id seq q pool taken plan run new live chunk took pushed =>
    have takes := takeBlocks_takes bal.wf took
    refine h.change rfl rfl (fun k b hb => ((takes.byHash k b).mp hb).1) rfl fun place => ?_
    exact (computed_of live ▸ h.filled id seq live place).append taken
  | @preempt id seq q pool taken err run new live chunk took =>
    have takes := takeBlocks_takes bal.wf took
    have free := freeAll_spec takes.wf (l := seq.blocks ++ taken) (by
      intro b
      have := takes.refcount b
      have := bal.le_refcount b live
      rw [List.count_append]
      omega)
    refine h.change rfl rfl (fun k b hb => ?_) rfl fun place => (by cases place)
    change (pool.freeAll (seq.blocks ++ taken)).byHash k = some b at hb
    rw [free.byHash] at hb
    exact ((takes.byHash k b).mp hb).1
  | @start id rest seq found pool matched taken cached head live budget room hit fits took =>
    obtain ⟨prefix_, exact_⟩ := matchCached_spec bal.wf hit
    have takes := takeBlocks_takes prefix_.counts.wf took
    refine h.change rfl rfl (fun k b hb => prefix_.counts.byHash ▸ ((takes.byHash k b).mp hb).1) rfl fun _ => ?_
    intro i hi
    have hi : i < cached := hi
    rw [(exact_ same).1] at hi
    have lt := Nat.mod_lt i size
    have inTable := (Nat.div_lt_iff_lt_mul size).mpr hi
    have get := List.getElem?_eq_getElem inTable
    obtain ⟨k, chain, named⟩ := prefix_.named _ _ get
    rw [regular.nsFor] at chain
    have block := h.index.block cf size chain named lt
    have page : (matched ++ taken)[i / p.scheduler.cfg.blockSize]? =
        some matched[i / p.scheduler.cfg.blockSize] := by
      rw [List.getElem?_append_left inTable, get]
    change Paged.Memory.lookup d p.scheduler.cfg.blockSize (matched ++ taken) i = some (seq.content kv i)
    have div := Nat.div_add_mod i p.scheduler.cfg.blockSize
    -- the text hashed reaches past the position
    have within : i + 1 ≤ seq.prefillTarget := by
      obtain ⟨hlt, -⟩ := List.getElem?_eq_some_iff.mp chain
      rw [hashBlockChain_length] at hlt
      have := (Nat.le_div_iff_mul_le size).mp hlt
      rw [List.length_take, Nat.succ_mul, Nat.mul_comm] at this
      omega
    rw [Paged.lookup_of_page page, block, Nat.mul_comm, div, List.take_take, Nat.min_eq_left within]
    rfl
  | @refuse id rest seq found pool matched taken cached n failed head live hit took =>
    obtain ⟨prefix_, -⟩ := matchCached_spec bal.wf hit
    have takes := takeBlocks_takes prefix_.counts.wf took
    have free := freeAll_spec takes.wf (l := matched ++ taken) (by
      intro b
      have := takes.refcount b
      have := congrFun prefix_.counts.refcount b
      simp only [List.count_append] at this ⊢
      omega)
    refine h.of_seqs rfl rfl (fun k b hb => ?_) fun _ _ live _ => live
    change (pool.freeAll (matched ++ taken)).byHash k = some b at hb
    rw [free.byHash] at hb
    exact prefix_.counts.byHash ▸ ((takes.byHash k b).mp hb).1

theorem passSteps_content (size : 0 < base.cfg.blockSize) (same : base.pool.blockSize = base.cfg.blockSize)
    (cf : CollisionFree base.cacheNamespace base.cfg.blockSize) (ok : PassSound base p)
    (h : Content kv p.scheduler d) (steps : PassSteps p p') : Content kv p'.scheduler d := by
  have both : PassSound base p' ∧ Content kv p'.scheduler d := by
    induction steps with
    | refl => exact ⟨ok, h⟩
    | tail _ step ih =>
      obtain ⟨ok, h⟩ := ih
      obtain ⟨extra, balanced⟩ := ok.balanced
      have ready := ok.toPassOk.ready size same
      refine ⟨ok.step size same step, passStep_content step balanced ok.regular ?_ ready.size ready.blockSize h⟩
      rw [balanced.setup.cacheNamespace, balanced.setup.cfg]
      exact cf
  exact both.2

end Passes

section Forwards

variable {base : Scheduler B} {extra : BlockId → Nat} {mark : SeqId → Nat}

omit [DecidableEq H] in
/-- A write to a sequence's first unmarked position, in an open block. -/
theorem Marked.write (h : Marked kv s d mark) (bal : Balanced base s extra) (ex : Exclusive s)
    (size : 0 < s.cfg.blockSize) {id : SeqId} {seq : Sequence} {b : BlockId} (live : s.seqs id = some seq)
    (ahead : seq.numComputed ≤ mark id) (get : seq.blocks[mark id / s.cfg.blockSize]? = some b) :
    Marked kv s (d.write s.cfg.blockSize (b * s.cfg.blockSize + mark id % s.cfg.blockSize)
      (seq.content kv (mark id))) (Function.update mark id (mark id + 1)) := by
  have isOpen : seq.Open s.cfg.blockSize b := ⟨_, Nat.div_le_div_right ahead, get⟩
  have sole := ex id seq b live isOpen
  have lt := Nat.mod_lt (mark id) size
  have elsewhere : ∀ c, c ≠ b → ∀ v,
      (d.write s.cfg.blockSize (b * s.cfg.blockSize + mark id % s.cfg.blockSize) v) c = d c := by
    intro c ne v
    funext o
    rw [Paged.write_apply lt, if_neg fun e => ne e.1]
  refine ⟨h.index.mono rfl rfl fun k c hc => ⟨hc, elsewhere c (fun e => sole.unnamed k (e ▸ hc)) _⟩,
    fun x seq' live' place => ?_⟩
  by_cases e : x = id
  · subst e
    obtain rfl := Option.some.inj (live.symm.trans live')
    rw [Function.update_self]
    have once : seq.blocks.count b ≤ 1 := sole.refcount ▸ bal.le_refcount b live
    exact (h.filled x seq live place).write size get fun i hi => index_unique once hi get
  · rw [Function.update_of_ne e]
    have out : b ∉ seq'.blocks := ex.apart bal (Ne.symm e) live isOpen live'
    refine (h.filled x seq' live' place).congr fun i c _ hc => ?_
    rw [elsewhere c (fun eq => out (eq ▸ List.mem_of_getElem? hc)) _]

omit [DecidableEq H] in
/-- The rows of one entry fill its positions. -/
theorem Marked.entry {kernel : Kernel KV} (h : Marked kv s d mark) (bal : Balanced base s extra)
    (ex : Exclusive s) (size : 0 < s.cfg.blockSize) (computes : Computes kernel kv s.cfg.blockSize) {e : Entry}
    (current : s.seqs e.id = some e.seq) (running : e.seq.status.place = .running)
    (covered : e.Covered s.cfg.blockSize) (start : mark e.id = e.start) :
    Marked kv s (forward kernel s (e.positions.map (e.row s.cfg.blockSize)) d)
      (Function.update mark e.id e.stop) := by
  have upTo : ∀ n, n ≤ e.q →
      Marked kv s (forward kernel s ((List.range' e.start n).map (e.row s.cfg.blockSize)) d)
        (Function.update mark e.id (e.start + n)) := by
    intro n
    induction n with
    | zero =>
      intro _
      rw [Nat.add_zero, ← start, Function.update_eq_self]
      exact h
    | succ n ih =>
      intro le
      have before := ih (by omega)
      rw [List.range'_1_concat, List.map_append, List.map_singleton]
      unfold forward at before ⊢
      rw [List.foldl_append]
      generalize ((List.range' e.start n).map (e.row s.cfg.blockSize)).foldl _ d = d' at before ⊢
      have mark' : Function.update mark e.id (e.start + n) e.id = e.start + n := Function.update_self ..
      have blocks := covered.blocks
      have tokens := covered.tokens
      unfold Entry.stop at blocks tokens
      unfold Entry.start at before mark' ⊢
      have inTable : (e.seq.numComputed + n) / s.cfg.blockSize < e.seq.blocks.length :=
        (Nat.div_lt_iff_lt_mul size).mpr (by omega)
      have get := List.getElem?_eq_getElem inTable
      have step := before.write bal ex size current (by rw [mark']; exact Nat.le_add_right _ _)
        (by rw [mark']; exact get)
      rw [mark', Function.update_idem, Nat.add_assoc e.seq.numComputed n 1] at step
      have value := computes e d' (e.seq.numComputed + n) (by omega) (mark' ▸ before.filled e.id e.seq current running)
      have slot : e.slot s.cfg.blockSize (e.seq.numComputed + n) =
          e.seq.blocks[(e.seq.numComputed + n) / s.cfg.blockSize] * s.cfg.blockSize +
            (e.seq.numComputed + n) % s.cfg.blockSize := by
        rw [Entry.slot, List.getD_eq_getElem?_getD, get]
        rfl
      have row : (e.row s.cfg.blockSize (e.seq.numComputed + n)).slot = e.slot s.cfg.blockSize (e.seq.numComputed + n) := rfl
      have id : (e.row s.cfg.blockSize (e.seq.numComputed + n)).id = e.id := rfl
      rw [List.foldl_cons, List.foldl_nil, id, current]
      simp only
      rw [value, row, slot]
      exact step
  exact upTo e.q (Nat.le_refl _)

omit [DecidableEq H] in
/-- A batch fills the positions of its entries. -/
theorem Marked.forward {kernel : Kernel KV} (bal : Balanced base s extra) (ex : Exclusive s)
    (size : 0 < s.cfg.blockSize) (computes : Computes kernel kv s.cfg.blockSize) {es : List Entry}
    (current : ∀ e ∈ es, s.seqs e.id = some e.seq) (running : ∀ e ∈ es, e.seq.status.place = .running)
    (covered : ∀ e ∈ es, e.Covered s.cfg.blockSize) (nodup : (es.map Entry.id).Nodup)
    (h : Marked kv s d mark) (start : ∀ e ∈ es, mark e.id = e.start) :
    ∃ mark', Marked kv s (forward kernel s (es.flatMap fun e => e.positions.map (e.row s.cfg.blockSize)) d) mark' ∧
      (∀ e ∈ es, mark' e.id = e.stop) ∧ ∀ x, (∀ e ∈ es, e.id ≠ x) → mark' x = mark x := by
  induction es generalizing d mark with
  | nil => exact ⟨mark, h, by simp, fun _ _ => rfl⟩
  | cons e es ih =>
    obtain ⟨out, nodup⟩ := List.nodup_cons.mp nodup
    have first := h.entry bal ex size computes (current e (by simp)) (running e (by simp)) (covered e (by simp))
      (start e (by simp))
    have apart : ∀ x ∈ es, x.id ≠ e.id := fun x hx same => out (same ▸ List.mem_map_of_mem hx)
    obtain ⟨mark', marked, stops, others⟩ := ih (fun x hx => current x (by simp [hx]))
      (fun x hx => running x (by simp [hx])) (fun x hx => covered x (by simp [hx])) nodup first
      fun x hx => by rw [Function.update_of_ne (apart x hx)]; exact start x (by simp [hx])
    refine ⟨mark', ?_, fun x hx => ?_, fun x hx => ?_⟩
    · rw [List.flatMap_cons]
      unfold Engine.forward at marked ⊢
      rw [List.foldl_append]
      exact marked
    · rcases List.mem_cons.mp hx with rfl | hx
      · rw [others x.id apart, Function.update_self]
      · exact stops x hx
    · rw [others x fun y hy => hx y (by simp [hy]), Function.update_of_ne (Ne.symm (hx e (by simp)))]

end Forwards

/-- What is scheduled finds its prefix in place, and once its batch has run its
own positions too. -/
theorem schedule_content {base s : Scheduler B} {kernel : Kernel KV} (fits : Fits base) (sound : Sound base s)
    (cf : CollisionFree base.cacheNamespace base.cfg.blockSize) (computes : Computes kernel kv base.cfg.blockSize)
    (h : Content kv s d) :
    ∃ t plan es, s.schedule = some (t, plan) ∧ Scheduled base s t plan es ∧
      Content kv t (forward kernel t plan.rows d) ∧
      ∀ e ∈ es, Holds (forward kernel t plan.rows d) base.cfg.blockSize e.seq.blocks e.stop (e.seq.content kv) := by
  obtain ⟨t, plan, es, scheduled, made⟩ := schedule_sound fits.size fits.same sound
  have planned : Content kv t d := by
    obtain ⟨p, steps, rfl, -⟩ := schedule_steps scheduled sound.queued
    exact passSteps_content fits.size fits.same cf sound.pass h steps
  obtain ⟨extra, balanced⟩ := made.sound.balanced
  have cfg := made.sound.setup.cfg
  obtain ⟨core, planFor, -⟩ := made.planFor
  obtain ⟨mark', marked, stops, others⟩ := planned.forward balanced made.sound.exclusive (cfg ▸ fits.size)
    (cfg ▸ computes) made.current made.running made.covered planFor.nodup fun e he => computed_of (made.current e he)
  rw [cfg, ← made.rows sound.setup.cfg fits] at marked
  refine ⟨t, plan, es, scheduled, made, ⟨marked.index, fun id seq live place => ?_⟩, fun e he => ?_⟩
  · refine (marked.filled id seq live place).mono ?_
    by_cases batched : ∃ e ∈ es, e.id = id
    · obtain ⟨e, he, rfl⟩ := batched
      rw [stops e he, computed_of (made.current e he)]
      exact Nat.le_add_right _ _
    · rw [others id fun e he same => batched ⟨e, he, same⟩]
  · have := marked.filled e.id e.seq (made.current e he) (made.running e he)
    rwa [stops e he, cfg] at this

section Commits

variable {base : Scheduler B} {extra : BlockId → Nat} {plan : StepPlan} {es : List Entry} {tokens : List Token}

omit [DecidableEq H] in
/-- Finishing releases blocks, and the index keeps naming them. -/
theorem finish_byHash (bal : Balanced base s extra) (id : SeqId) (reason : FinishReason) :
    (s.finish id reason).pool.byHash = s.pool.byHash := by
  rcases finish_cases s id reason with same | ⟨seq, live, -, eq⟩
  · rw [same]
  · rw [eq]
    exact (freeAll_spec bal.wf fun b => bal.le_refcount b live).byHash

omit [DecidableEq H] in
theorem cancel_byHash (bal : Balanced base s extra) (requestId : RequestId) :
    (s.cancel requestId).1.pool.byHash = s.pool.byHash := by
  rw [cancel_eq]
  generalize s.sequencesOf requestId = ids
  induction ids generalizing s with
  | nil => rfl
  | cons id ids ih => exact (ih (finish_balanced bal id .cancelled)).trans (finish_byHash bal id .cancelled)

omit [DecidableEq H] in
theorem sampledLoop_byHash (bal : Balanced base s extra) (pairs : List (SeqId × Token)) :
    (s.sampledLoop pairs).pool.byHash = s.pool.byHash := by
  unfold Scheduler.sampledLoop
  induction pairs generalizing s with
  | nil => rfl
  | cons p pairs ih =>
    refine (ih (pushSampled_balanced bal p.1 p.2)).trans ?_
    cases live : s.seqs p.1 with
    | none => simp [Scheduler.pushSampled, live]
    | some seq =>
      have balanced : Balanced base (s.setSeq p.1 (seq.pushToken p.2)) extra :=
        bal.keep live (bal.queued.keep live (by rfl) rfl rfl
          (funext fun place => by cases place <;> rfl) (bal.queued.idle _ seq live)) rfl
      rcases pushSampled_cases live p.2 with eq | ⟨reason, -, eq⟩ <;> rw [eq]
      · rfl
      · exact finish_byHash balanced p.1 reason

omit [DecidableEq H] in
/-- The first two phases: what was in flight is computed. -/
theorem sampled_content (bal : Balanced base s extra) (f : Flight s plan es) {s₁ : Scheduler B}
    (e : Scheduler.advanceLoop plan.batchSeqs plan.batch.cuSeqlensQ s = some s₁) (h : Content kv s d)
    (flown : ∀ x ∈ es, ∀ seq, s.seqs x.id = some seq → seq.status.place = .running →
      Holds d s.cfg.blockSize seq.blocks x.stop (seq.content kv)) :
    Content kv (s₁.sampledLoop (plan.sampledSeqs.zip tokens)) d := by
  have bal₁ := advanceLoop_balanced bal e
  have bal₂ := sampledLoop_balanced bal₁ (plan.sampledSeqs.zip tokens)
  have pool : s₁.pool = s.pool := advanceLoop_preserves (P := fun t => t.pool = s.pool)
    (fun s id q h => by unfold Scheduler.advanceOne; split <;> exact h) rfl e
  have byHash := sampledLoop_byHash bal₁ (plan.sampledSeqs.zip tokens)
  have cfg := bal₂.setup.cfg.trans bal.setup.cfg.symm
  have ns := bal₂.setup.cacheNamespace.trans bal.setup.cacheNamespace.symm
  rw [pool] at byHash
  refine ⟨h.index.mono cfg ns fun k b hb => ⟨byHash ▸ hb, rfl⟩, fun id seq' live' place => ?_⟩
  rw [computed_of live', cfg]
  rcases sampled_cases f tokens e live' with ⟨live, -⟩ | ⟨x, hx, rfl, seq, live, rfl⟩
  · exact computed_of live ▸ h.filled id seq' live place
  · obtain ⟨was, -⟩ := Entry.after_running place
    obtain ⟨known, computed, -, -, -, -⟩ := f.fields hx live
    obtain ⟨-, -, tenant⟩ := Entry.after_fields s.eosTokenIds s.cfg.maxContext (tokenFor es tokens x.id) x seq
    rw [Entry.after_blocks place, Entry.after_numComputed, computed]
    refine (flown x hx seq live was).values fun i hi => Sequence.content_eq tenant ?_
    have lt : i + 1 ≤ seq.tokens.length := known ▸ Nat.le_trans hi (f.covered x hx).tokens
    rw [Entry.after_tokens, List.take_append_of_le_length lt]

/-- A published block is full of its own text, and the block adopted in its
place is full of the same. -/
theorem publishOne_content (bal : Balanced base s extra) (regular : Regular s)
    (cf : CollisionFree s.cacheNamespace s.cfg.blockSize) (size : 0 < s.cfg.blockSize) (h : Content kv s d)
    {id : SeqId} (e : s.publishOne id = some t) : Content kv t d := by
  rcases publishOne_cases e with rfl | ⟨seq, pool, swaps, blocks, pool', live, -, known, pub, swapped, rfl⟩
  · exact h
  · obtain ⟨published, -, -, byHash, -⟩ := publish_swaps bal live pub swapped
    obtain ⟨-, -, places⟩ := swapBlocks_other swapped
    rw [regular.nsFor] at published
    have length := swapBlocks_length swaps seq.blocks pool
    rw [swapped] at length
    change blocks.length = seq.blocks.length at length
    -- a sequence that has a block runs, so its full blocks hold its text
    have own : ∀ (i : Nat) (b : BlockId), i < seq.numComputed / s.cfg.blockSize → seq.blocks[i]? = some b →
        ∀ o, o < s.cfg.blockSize → d b o = some (kv seq.tenant ((seq.tokens.take
          (seq.numComputed / s.cfg.blockSize * s.cfg.blockSize)).take (i * s.cfg.blockSize + o + 1))) := by
      intro i b full get o lt
      have place : seq.status.place = .running := by
        by_contra idle
        rw [bal.queued.idle id seq live idle] at get
        simp at get
      have le : i * s.cfg.blockSize + o + 1 ≤ seq.numComputed / s.cfg.blockSize * s.cfg.blockSize := by
        have := Nat.mul_le_mul_right s.cfg.blockSize (Nat.succ_le_of_lt full)
        rw [Nat.succ_mul] at this
        omega
      have computed := Nat.div_mul_le_self seq.numComputed s.cfg.blockSize
      have holds := h.filled id seq live place (i * s.cfg.blockSize + o) (by rw [computed_of live]; omega)
      have div : (i * s.cfg.blockSize + o) / s.cfg.blockSize = i := by
        rw [Nat.add_comm, Nat.add_mul_div_right _ _ size, Nat.div_eq_of_lt lt, Nat.zero_add]
      have mod : (i * s.cfg.blockSize + o) % s.cfg.blockSize = o := by
        rw [Nat.mul_add_mod_self_right, Nat.mod_eq_of_lt lt]
      rw [Paged.lookup_of_page (div.symm ▸ get), mod] at holds
      rw [holds, List.take_take, Nat.min_eq_left le]
      rfl
    refine ⟨fun k b hb => ?_, fun x seq' live' place => ?_⟩
    · change pool'.byHash k = some b at hb
      rw [byHash] at hb
      rcases published.byHash k b hb with before | ⟨i, hi, get⟩
      · exact h.index k b before
      · obtain ⟨full, chain⟩ := mem_items hi
        exact ⟨seq.tenant, _, i, chain, own i b full get⟩
    · by_cases same : x = id
      · subst same
        rw [computed_of live']
        change Function.update s.seqs x (some _) x = some seq' at live'
        rw [Function.update_self] at live'
        obtain rfl := Option.some.inj live'
        have before := h.filled x seq live place
        rw [computed_of live] at before
        change Holds d s.cfg.blockSize blocks seq.numComputed (seq.content kv)
        refine Holds.swap before fun i page _ hp => ?_
        have lt := Nat.mod_lt i size
        obtain ⟨page', get⟩ : ∃ page', blocks[i / s.cfg.blockSize]? = some page' :=
          ⟨_, List.getElem?_eq_getElem (length ▸ (List.getElem?_eq_some_iff.mp hp).1)⟩
        refine ⟨page', get, ?_⟩
        rcases places _ _ get with unswapped | ⟨sw, hs, at_, rfl⟩
        · rw [Option.some.inj (unswapped.symm.trans hp)]
        · obtain ⟨k, hk, named | ⟨j, hj, get'⟩⟩ := published.canonical sw hs
          · obtain ⟨full, chain⟩ := mem_items hk
            rw [h.index.block cf size chain named lt, own sw.1 page full (at_ ▸ hp) _ lt]
          · obtain ⟨-, chain⟩ := mem_items hk
            obtain ⟨-, chain'⟩ := mem_items hj
            obtain ⟨-, rfl, -⟩ := cf.same size chain' chain
            rw [at_] at get'
            rw [Option.some.inj (get'.symm.trans hp)]
      · rw [computed_of live']
        change Function.update s.seqs id (some _) x = some seq' at live'
        rw [Function.update_of_ne same] at live'
        exact computed_of live' ▸ h.filled x seq' live' place

theorem publishLoop_content (bal : Balanced base s extra) (regular : Regular s)
    (cf : CollisionFree base.cacheNamespace base.cfg.blockSize) (size : 0 < base.cfg.blockSize)
    (h : Content kv s d) {ids : List SeqId} (e : Scheduler.publishLoop ids s = some t) : Content kv t d := by
  induction ids generalizing s with
  | nil =>
    obtain rfl := Option.some.inj e
    exact h
  | cons id ids ih =>
    obtain ⟨s₁, one, rest⟩ := bind_some e
    refine ih (publishOne_balanced bal one) (regular.lineage (publishOne_lineage bal.queued one)) ?_ rest
    refine publishOne_content bal regular ?_ ?_ h one <;> rw [bal.setup.cfg]
    · rw [bal.setup.cacheNamespace]
      exact cf
    · exact size

/-- A commit computes what was in flight, and publishes blocks of it. -/
theorem commit_content (sound : Sound base s) (cf : CollisionFree base.cacheNamespace base.cfg.blockSize)
    (size : 0 < base.cfg.blockSize) (f : Flight s plan es) (e : s.commit plan tokens = some t)
    (h : Content kv s d)
    (flown : ∀ x ∈ es, ∀ seq, s.seqs x.id = some seq → seq.status.place = .running →
      Holds d s.cfg.blockSize seq.blocks x.stop (seq.content kv)) : Content kv t d := by
  obtain ⟨extra, bal⟩ := sound.balanced
  obtain ⟨s₁, advanced, e⟩ := bind_some e
  have pushed := sampledLoop_balanced (advanceLoop_balanced bal advanced) (plan.sampledSeqs.zip tokens)
  have regular := sound.regular.lineage ((advanceLoop_lineage bal.queued advanced).trans
    (sampledLoop_lineage (advanceLoop_queued bal.queued advanced) (plan.sampledSeqs.zip tokens)))
  have computed : Content kv (s₁.sampledLoop (plan.sampledSeqs.zip tokens)) d :=
    sampled_content bal f advanced h flown
  unfold Scheduler.publishFullBlocks at e
  split at e
  · exact publishLoop_content pushed regular cf size computed e
  · exact Option.some.inj e ▸ computed

end Commits

section Forks

variable {base : Scheduler B} {extra : BlockId → Nat} {src : Scheduler.ForkSource}

/-- A fork takes names off the index, and gives none. -/
theorem forkChildren_byHash (h : Balanced base s extra) (held : ∀ b ∈ src.blocks, 0 < s.pool.refcount b)
    (n : Nat) (out : Fork) {k : H} {b : BlockId}
    (named : (Scheduler.forkChildren src n out s).1.pool.byHash k = some b) : s.pool.byHash k = some b := by
  induction n generalizing s out with
  | zero => exact named
  | succ n ih =>
    have shared := sharedPool_spec src s.cfg.blockSize h.wf held
    unfold Scheduler.forkChildren at named
    rcases hc : Scheduler.childBlocks src s.cfg.blockSize s.pool with ⟨pool, err | ⟨blocks, copy⟩⟩
    · obtain ⟨rfl, -, -⟩ := childBlocks_error h.wf held hc
      rw [hc] at named
      exact shared.byHash ▸ named
    · obtain ⟨entered, held', -, -⟩ := forkChildren_entered h held hc
      obtain ⟨own, -, takes, -⟩ := childBlocks_ok h.wf held hc
      rw [hc] at named
      exact shared.byHash ▸ ((takes.byHash k b).mp (ih entered held' _ named)).1

theorem fork_byHash (h : Balanced base s extra) (parent : SeqId) (n : Nat) {k : H} {b : BlockId}
    (named : (s.fork parent n).1.pool.byHash k = some b) : s.pool.byHash k = some b := by
  unfold Scheduler.fork at named
  cases live : s.seqs parent with
  | none => simpa only [live] using named
  | some seq =>
    simp only [live] at named
    split at named
    · exact named
    · exact forkChildren_byHash h (fun b hb => h.pos_refcount live hb) n {} named

theorem seedFork_byHash (w : Wf s.pool) (id : SeqId) (token : Token) {k : H} {b : BlockId}
    (named : (s.seedFork id token).1.pool.byHash k = some b) : s.pool.byHash k = some b := by
  unfold Scheduler.seedFork at named
  cases live : s.seqs id with
  | none => simpa only [live] using named
  | some seq =>
    simp only [live] at named
    rcases took : takeBlocks BlockPool.allocateGuarded
      (s.pool.blocksFor ((seq.pushToken token).numComputed + 1) - (seq.pushToken token).blocks.length)
      s.pool with ⟨pool, taken, failed⟩
    obtain ⟨takes, -⟩ := takeBlocks_spec allocateGuarded_allocates w took
    rw [took] at named
    cases failed <;> exact ((takes.byHash k b).mp named).1

omit [DecidableEq H] in
/-- Where a child's open block has content to be copied, it is copied. -/
theorem mem_childCopy {bs : Nat} {blocks : List BlockId} {c : BlockId × BlockId} :
    c ∈ childCopy src bs blocks ↔ src.blocks[src.computed / bs]? = some c.1 ∧
      blocks[src.computed / bs]? = some c.2 ∧ src.computed % bs ≠ 0 := by
  unfold childCopy
  cases src.blocks[src.computed / bs]? with
  | none => simp
  | some openBlock =>
    cases blocks[src.computed / bs]? with
    | none => simp
    | some own =>
      by_cases part : src.computed % bs ≠ 0
      · simp [part, Prod.ext_iff, eq_comm]
      · simp [part]

omit [DecidableEq H] in
/-- The copies of a fork go from its parent's open block to blocks that no
sequence from before it holds and the index does not name. -/
theorem Forked.apart {seq : Sequence} {fork : Fork} {made : List (List BlockId)}
    (f : Forked (Scheduler.forkSource seq) s t {} fork made) (bal : Balanced base t extra) (ex : Exclusive t)
    (cfg : t.cfg = s.cfg) (old : ∀ x seq, s.seqs x = some seq → x < s.nextId) :
    ∀ c ∈ fork.copies, seq.blocks[seq.numComputed / s.cfg.blockSize]? = some c.1 ∧ Sole t.pool c.2 ∧
      ∀ x seq', s.seqs x = some seq' → c.2 ∉ seq'.blocks := by
  intro c hc
  have copies : fork.copies = made.flatMap (childCopy (Scheduler.forkSource seq) s.cfg.blockSize) := by
    simpa using f.copies
  rw [copies] at hc
  obtain ⟨blocks, hb, hc⟩ := List.mem_flatMap.mp hc
  obtain ⟨from_, own, -⟩ := mem_childCopy.mp hc
  obtain ⟨k, hk⟩ := List.getElem?_of_mem hb
  have new := f.new k blocks hk
  have isOpen : (child (Scheduler.forkSource seq) blocks).Open t.cfg.blockSize c.2 :=
    ⟨_, Nat.le_refl _, cfg ▸ own⟩
  refine ⟨from_, ex _ _ _ new isOpen, fun x seq' live' => ?_⟩
  have lt := old x seq' live'
  exact ex.apart bal (Nat.ne_of_gt (Nat.lt_of_lt_of_le lt (Nat.le_add_right _ _))) new isOpen
    ((f.old x lt).trans live')

/-- The children hold the prompt their parent holds: its full blocks, and a
copy of its open one. -/
theorem fork_content {parent : SeqId} {tokens : List Token} {fork : Fork} (b : ∃ extra, Balanced base s extra)
    (ex : Exclusive s) (e : s.fork parent tokens.length = (t, .ok fork))
    (all : (seedAll (fork.ids.zip tokens) t).2 = true)
    (first : ∀ seq, s.seqs parent = some seq → seq.numComputed ≤ seq.promptLen)
    (running : ∀ seq, s.seqs parent = some seq → tokens = [] ∨ seq.status.place = .running)
    (h : Content kv s d) :
    Content kv (seedAll (fork.ids.zip tokens) t).1 (fork.copies.foldl (fun d c => d.copy c.1 c.2) d) := by
  have cases' : ∀ x seq', (seedAll (fork.ids.zip tokens) t).1.seqs x = some seq' → _ :=
    fun x seq' live' => fork_cases b e all live'
  obtain ⟨extra, bal⟩ := b
  obtain ⟨bal', seq, made, live, -, length, forked, run⟩ := fork_ok bal e
  have ex' : Exclusive t := by
    have := fork_exclusive bal ex parent tokens.length
    rwa [e] at this
  obtain ⟨bal'', named⟩ := seedAll_preserves
    (P := fun u => Balanced base u extra ∧ ∀ k b, u.pool.byHash k = some b → t.pool.byHash k = some b)
    (fun u id token h run => ⟨seedFork_balanced h.1 run token,
      fun k b hb => h.2 k b (seedFork_byHash h.1.wf id token hb)⟩) run ⟨bal', fun _ _ hb => hb⟩
  have cfg := bal''.setup.cfg.trans bal.setup.cfg.symm
  have apart := forked.apart bal' ex' (bal'.setup.cfg.trans bal.setup.cfg.symm) bal.queued.fresh
  -- the copies are all of the parent's open block
  have from_ : ∀ c ∈ fork.copies, c.1 = seq.blocks.getD (seq.numComputed / s.cfg.blockSize) 0 := by
    intro c hc
    rw [List.getD_eq_getElem?_getD, (apart c hc).1]
    rfl
  have copied := Paged.copies_apply (m := d) from_ fun c hc same => (apart c hc).2.2 parent seq live
    (same ▸ from_ c hc ▸ List.mem_of_getElem? (apart c hc).1)
  generalize fork.copies.foldl (fun d c => d.copy c.1 c.2) d = d' at copied ⊢
  have kept : ∀ b, (∀ c ∈ fork.copies, c.2 ≠ b) → d' b = d b := by
    intro b out
    rw [copied, if_neg]
    intro hb
    obtain ⟨c, hc, same⟩ := List.mem_map.mp hb
    exact out c hc same
  refine ⟨h.index.mono cfg (bal''.setup.cacheNamespace.trans bal.setup.cacheNamespace.symm) fun k b hb => ?_,
    fun x seq' live' place => ?_⟩
  · have before := named k b hb
    refine ⟨fork_byHash bal parent tokens.length (by rw [e]; exact before), kept b fun c hc same => ?_⟩
    exact (apart c hc).2.1.unnamed k (same ▸ before)
  · rw [computed_of live', cfg]
    rcases cases' x seq' live' with ⟨-, before⟩ | ⟨seq₀, made₀, blocks, token, taken, live₀, -, forked₀, -, made', -, rfl⟩
    · have holds := h.filled x seq' before place
      rw [computed_of before] at holds
      refine holds.congr fun i b _ hb => ?_
      rw [kept b fun c hc same => (apart c hc).2.2 x seq' before (same ▸ List.mem_of_getElem? hb)]
    · obtain rfl := Option.some.inj (live.symm.trans live₀)
      have mem := List.mem_of_getElem? made'
      have shape := forked₀.blocks blocks mem
      have place : seq.status.place = .running := by
        refine (running seq live).resolve_left fun none => ?_
        have lengths := congrArg List.length (forked.ids.symm.trans forked₀.ids)
        have some_ := (List.getElem?_eq_some_iff.mp made').1
        rw [List.length_append, List.length_append, List.length_range', List.length_range'] at lengths
        rw [none] at length
        exact absurd some_ (by simp only [List.length_nil] at length; omega)
      have holds := h.filled parent seq live place
      rw [computed_of live] at holds
      have prompt : ∀ i, i < seq.numComputed →
          Sequence.content kv (((child (Scheduler.forkSource seq) blocks).pushToken token).withBlocks (blocks ++ taken)) i =
            seq.content kv i := by
        intro i hi
        refine Sequence.content_eq rfl ?_
        have short := first seq live
        change ((seq.tokens.take seq.promptLen) ++ [token]).take (i + 1) = _
        rw [List.take_append_of_le_length, List.take_take, Nat.min_eq_left (by omega)]
        rw [List.length_take]
        have := Nat.le_trans seq.promptLen_le seq.target_le
        omega
      refine Holds.values (Holds.append ?_ taken) prompt
      refine holds.swap fun i b hi hb => ?_
      have le := Nat.div_le_div_right (c := s.cfg.blockSize) (Nat.le_of_lt hi)
      rcases Nat.lt_or_eq_of_le le with full | isOpen
      · refine ⟨b, (shape.shared _ full).trans hb, ?_⟩
        rw [kept b fun c hc same => (apart c hc).2.2 parent seq live (same ▸ List.mem_of_getElem? hb)]
      · have lt := (List.getElem?_eq_some_iff.mp hb).1
        have inTable : seq.numComputed / s.cfg.blockSize < blocks.length := by
          rw [shape.length]
          change _ < min seq.blocks.length (seq.numComputed / s.cfg.blockSize + 1)
          omega
        have own := List.getElem?_eq_getElem inTable
        refine ⟨_, by rw [isOpen]; exact own, ?_⟩
        have part : seq.numComputed % s.cfg.blockSize ≠ 0 := by
          intro none
          have := Nat.div_add_mod seq.numComputed s.cfg.blockSize
          have := Nat.div_add_mod i s.cfg.blockSize
          rw [isOpen] at this
          omega
        have copy : (b, blocks[seq.numComputed / s.cfg.blockSize]) ∈ fork.copies := by
          have copies : fork.copies = made₀.flatMap (childCopy (Scheduler.forkSource seq) s.cfg.blockSize) := by
            simpa using forked₀.copies
          rw [copies]
          rw [isOpen] at hb
          exact List.mem_flatMap.mpr ⟨blocks, mem, mem_childCopy.mpr ⟨hb, own, part⟩⟩
        rw [copied, if_pos (List.mem_map_of_mem copy), ← from_ _ copy]

end Forks

end Vapi.Engine
