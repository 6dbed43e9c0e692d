import Vapi.Engine.Provenance
import Vapi.Engine.Shortened

/-!
# What a promotion finds

With blank blocks enough a promotion makes resident the longest prefix of the
hashes that was held in the pool or in the spill store, and the scheduler
counts what is resident. The hashes it asks for are those the scheduler
matches when the job is the engine's own tenant's.
-/

namespace Vapi.Cache

section Blank

variable {H : Type} [DecidableEq H] {p : BlockPool H} {id : BlockId} {rest : List BlockId}

omit [DecidableEq H] in
theorem Wf.freeList_length (wf : Wf p) : p.freeList.length = p.numFree := by
  obtain ⟨L, r⟩ := wf
  rw [r.freeList, r.numFree]

/-- A first free block that carries nothing is handed out, and nothing is evicted. -/
theorem allocate_blank (wf : Wf p) (free : p.freeList = id :: rest) (blank : p.hashOf id = none) :
    ∃ q, p.allocate = .ok (q, id) ∧ Allocates p q id ∧ q.freeList = rest ∧ q.byHash = p.byHash ∧
      q.hashOf = p.hashOf ∧ q.evictedContent = p.evictedContent := by
  have some_ : p.numFree ≠ 0 := by
    rw [← wf.freeList_length, free]
    exact Nat.succ_ne_zero _
  rcases allocate_spec wf with ⟨none_, -⟩ | ⟨q, b, took, spec⟩
  · exact absurd none_ some_
  · have first : id :: rest = b :: q.freeList := free.symm.trans (allocate_first wf took).2
    obtain ⟨rfl, rfl⟩ := List.cons.inj first
    refine ⟨q, took, spec, rfl, ?_⟩
    obtain ⟨L, r⟩ := wf
    have head : p.lru.head = some id := by rw [r.list.head, ← r.freeList, free]; rfl
    rw [allocate_eq some_ head] at took
    obtain ⟨rfl, -⟩ := Prod.mk.inj (Except.ok.inj took)
    have untouched : (p.detach id).evict id = p.detach id := by
      unfold BlockPool.evict
      rw [show (p.detach id).hashOf id = none from blank]
    rw [untouched]
    exact ⟨rfl, rfl, rfl⟩

omit [DecidableEq H] in
/-- A named block that is let go comes last. -/
theorem free_named (wf : Wf p) {h : H} (once : p.refcount id = 1) (named : p.byHash h = some id) :
    (p.free id).freeList = p.freeList ++ [id] := by
  obtain ⟨L, r⟩ := wf
  have one : L.count id = 1 := by rw [← r.refcount, once]
  have index : ∃ h, L.index h = some id := ⟨h, by rw [← r.byHash, named]⟩
  rw [(free_refines r (one ▸ Nat.one_pos)).freeList, r.freeList]
  simp only [Ledger.release, one, if_true, if_pos index]

omit [DecidableEq H] in
theorem free_evicted (p : BlockPool H) (id : BlockId) : (p.free id).evictedContent = p.evictedContent := by
  unfold BlockPool.free
  simp only
  split
  · rfl
  · rfl

/-- As many blocks come first in the free list, and carry nothing. -/
def BlockPool.Blank (p : BlockPool H) (n : Nat) : Prop :=
  n ≤ p.freeList.length ∧ ∀ b ∈ p.freeList.take n, p.hashOf b = none

end Blank

namespace SpillStore

variable {H V : Type} {s : SpillStore H V} {h : H}

/-- Whether there is an entry. -/
def holds (s : SpillStore H V) (h : H) : Bool :=
  (s.ram h).isSome || (s.disk h).isSome && (s.dir.bind (· h)).isSome

theorem holds_iff : s.holds h = true ↔ ∃ bytes, s.Holds h bytes := by
  unfold holds Holds
  rw [Bool.or_eq_true, Bool.and_eq_true, Option.isSome_iff_exists, Option.isSome_iff_exists (x := s.dir.bind _)]
  constructor
  · rintro (⟨bytes, ram⟩ | ⟨indexed, bytes, file⟩)
    · exact ⟨bytes, .inl ram⟩
    · exact ⟨bytes, .inr ⟨indexed, file⟩⟩
  · rintro ⟨bytes, ram | ⟨indexed, file⟩⟩
    · exact .inl ⟨bytes, ram⟩
    · exact .inr ⟨indexed, bytes, file⟩

variable [DecidableEq H]

/-- An entry is handed back where its file can be read, and stays. -/
theorem get_held (held : s.holds h = true) (reads : ∀ i, s.files.answers i = true) :
    ∃ bytes, (s.get h).2 = some bytes ∧ (s.get h).1.files.answers = s.files.answers ∧ (s.get h).1.holds = s.holds := by
  unfold get
  cases ram : s.ram h with
  | some bytes => exact ⟨bytes, rfl, rfl, rfl⟩
  | none =>
    rw [holds, ram, Option.isSome_none, Bool.false_or, Bool.and_eq_true] at held
    obtain ⟨indexed, file⟩ := held
    obtain ⟨bytes, file⟩ := Option.isSome_iff_exists.mp file
    have read : s.readFile h = (s.attempt.2, some bytes) := by
      unfold readFile attempt Oracle.ask
      simp only [reads, if_true]
      exact congrArg _ file
    simp only [indexed, if_true, read]
    exact ⟨bytes, rfl, rfl, rfl⟩

/-- What is not held is not handed back. -/
theorem get_missing (missing : ¬s.holds h = true) : (s.get h).2 = none := by
  rw [Option.eq_none_iff_forall_ne_some]
  intro bytes got
  exact missing (holds_iff.mpr ⟨bytes, get_holds.2 bytes got⟩)

end SpillStore

end Vapi.Cache

namespace Vapi.Engine

open Vapi.Cache
open Transition (Run)

variable {H : Type} [DecidableEq H] {B : Blake3 H} {KV : Type}

namespace Tiered

/-- A hash whose block is resident, or whose bytes are in the spill store. -/
def held (w : Tiered B KV) (hash : H) : Bool := w.pool.contains hash || w.spill.any (·.holds hash)

/-- How many hashes of the held prefix have to be put back. -/
def missing (w : Tiered B KV) (hashes : List H) : Nat :=
  (hashes.takeWhile w.held).countP fun hash => !w.pool.contains hash

/-- As many blocks can be put back with nothing in the way: reads and imports
work, nothing waits to be exported, and the blocks taken carry nothing. -/
structure Calm (w : Tiered B KV) (n : Nat) : Prop where
  reads : ∀ store, w.spill = some store → ∀ i, store.files.answers i = true
  imports : ∀ i, w.imports.answers i = none
  settled : w.pool.evictedContent = []
  blank : w.pool.Blank n
  spare : 0 < n → 1 < w.pool.numFree

omit [DecidableEq H] in
theorem Calm.mono {w : Tiered B KV} {m n : Nat} (calm : w.Calm n) (le : m ≤ n) : w.Calm m where
  reads := calm.reads
  imports := calm.imports
  settled := calm.settled
  blank := ⟨Nat.le_trans le calm.blank.1, fun b mem => calm.blank.2 b (List.mem_of_mem_take (by
    rwa [List.take_take, Nat.min_eq_left le]))⟩
  spare pos := calm.spare (Nat.lt_of_lt_of_le pos le)

end Tiered

section Restoring

variable {w : Tiered B KV} {hash : H} {bytes : Page KV} {id : BlockId} {rest : List BlockId}

/-- With nothing to export only the list of evictions is emptied. -/
theorem spillEvicted_settled (on : w.spill.isSome) (settled : w.pool.evictedContent = []) :
    w.spillEvicted = w.setPool w.pool.takeEvicted.1 := by
  unfold Tiered.spillEvicted
  rw [if_neg (by simp [Option.isSome_iff_ne_none.mp on])]
  simp only [BlockPool.takeEvicted, settled, List.foldl_nil]

/-- A block put back where a blank one was: it gets the name, and is handed out last from now on. -/
structure Restored (w : Tiered B KV) (hash : H) (id : BlockId) (rest : List BlockId) (v : Tiered B KV) : Prop where
  sane : Sane v
  spill : v.spill = w.spill
  imports : v.imports.answers = w.imports.answers
  settled : v.pool.evictedContent = []
  freeList : v.pool.freeList = rest ++ [id]
  byHash : v.pool.byHash = Function.update w.pool.byHash hash (some id)
  numFree : v.pool.numFree = w.pool.numFree

theorem restore_blank (bytes : Page KV) (sane : Sane w) (settled : w.pool.evictedContent = []) (imports : ∀ i, w.imports.answers i = none)
    (absent : w.pool.byHash hash = none) (spare : 1 < w.pool.numFree) (free : w.pool.freeList = id :: rest)
    (blank : w.pool.hashOf id = none) :
    ∃ v, w.restore hash bytes = (v, true) ∧ Restored w hash id rest v := by
  obtain ⟨q, took, spec, left, byHash, hashOf, evicted⟩ := allocate_blank sane.wf free blank
  have settled' : q.evictedContent = [] := evicted.trans settled
  -- the block keeps one reference until it has its name
  let p := q.takeEvicted.1
  have exported : (w.setPool q).spillEvicted = (w.setPool q).setPool p :=
    spillEvicted_settled (w := w.setPool q) sane.on settled'
  have absent' : p.byHash hash = none := (congrFun byHash hash).trans absent
  have published : p.publish id hash = (p.setHash id hash, id) := by
    unfold BlockPool.publish
    rw [absent']
  have restored : w.restore hash bytes = ((((w.setPool q).setPool p).importBlock id bytes).1.setPool
      ((p.setHash id hash).free id), true) := by
    unfold Tiered.restore
    rw [if_neg (Nat.not_le.mpr spare), took]
    simp only [exported]
    have works : (((w.setPool q).setPool p).importBlock id bytes).2 = true := by
      change (w.imports.answers w.imports.asked).isNone = true
      rw [imports]
      rfl
    have same : (((w.setPool q).setPool p).importBlock id bytes).1.pool = p := rfl
    change (if ¬(((w.setPool q).setPool p).importBlock id bytes).2 = true then _ else _) = _
    rw [if_neg (not_not.mpr works)]
    rw [same, published]
    simp only [ne_eq, not_true_eq_false, if_false]
  obtain ⟨kept, moved⟩ := sane.restore (show (fun _ => True) (hash, bytes) from trivial) absent
  rw [restored] at kept moved
  have named : (p.setHash id hash).byHash = Function.update w.pool.byHash hash (some id) := by
    have carries : p.hashOf id = none := (congrFun hashOf id).trans blank
    unfold BlockPool.setHash
    rw [carries]
    exact congrArg (Function.update · hash (some id)) byHash
  have wf : Wf (p.setHash id hash) := by
    have published' := publish_spec (takeEvicted_wf spec.wf) hash (b := id) (spec.shape.numBlocks ▸ spec.isBlock)
    change Cache.Publishes p (p.publish id hash).1 id hash (p.publish id hash).2 at published'
    rw [published] at published'
    exact published'.wf
  have once : (p.setHash id hash).refcount id = 1 := by
    change q.refcount id = 1
    rw [spec.refcount, Function.update_self]
  refine ⟨_, restored, kept, rfl, rfl, ?_, ?_, ?_, ?_⟩
  · change ((p.setHash id hash).free id).evictedContent = []
    rw [free_evicted]
    rfl
  · change ((p.setHash id hash).free id).freeList = _
    rw [free_named wf once (h := hash) (by rw [named, Function.update_self])]
    exact congrArg (· ++ [id]) left
  · change ((p.setHash id hash).free id).byHash = _
    rw [(free_spec wf (once ▸ Nat.one_pos)).byHash, named]
  · rw [kept.wf.numFree, sane.wf.numFree, moved.shape.numBlocks, moved.refcount]

end Restoring

section Loop

variable {w v : Tiered B KV} {hash k : H} {hashes : List H} {id : BlockId} {rest : List BlockId} {n : Nat}

/-- A hash that only the store holds is handed back, and held there still. -/
theorem fetch_held (calm : w.Calm n) (absent : ¬w.pool.contains hash = true) (held : w.held hash = true) :
    ∃ v bytes, w.fetch hash = (v, some bytes) ∧ v.pool = w.pool ∧ v.Calm n ∧ v.held = w.held := by
  have inStore : w.spill.any (·.holds hash) = true := by
    rw [Tiered.held, Bool.or_eq_true] at held
    exact held.resolve_left absent
  obtain ⟨store, on, stored⟩ := (Option.any_eq_true ..).mp inStore
  obtain ⟨bytes, got, answers, same⟩ := SpillStore.get_held stored (calm.reads store on)
  refine ⟨{ w with spill := some (store.get hash).1 }, bytes, ?_, rfl, ?_, ?_⟩
  · unfold Tiered.fetch
    rw [on]
    exact congrArg _ got
  · refine ⟨fun other known => ?_, calm.imports, calm.settled, calm.blank, calm.spare⟩
    obtain rfl := Option.some.inj known
    rw [answers]
    exact calm.reads store on
  · funext k
    change (w.pool.contains k || (store.get hash).1.holds k) = (w.pool.contains k || w.spill.any (·.holds k))
    rw [same, on]
    rfl

/-- What neither tier holds ends the loop. -/
theorem fetch_missing (missing : ¬w.held hash = true) : (w.fetch hash).2 = none := by
  unfold Tiered.fetch
  cases on : w.spill with
  | none => rfl
  | some store =>
    refine SpillStore.get_missing fun holds => missing ?_
    rw [Tiered.held, on, Bool.or_eq_true]
    exact .inr holds

theorem Restored.contains (restored : Restored w hash id rest v) :
    v.pool.contains k = true ↔ k = hash ∨ w.pool.contains k = true := by
  unfold BlockPool.contains
  rw [restored.byHash, Function.update_apply]
  split
  · rename_i same
    simp [same]
  · rename_i other
    simp [other]

/-- A hash that was held is resident now, and no other came to be held. -/
theorem Restored.held (restored : Restored w hash id rest v) (held : w.held hash = true) : v.held = w.held := by
  funext k
  rw [Bool.eq_iff_iff, Tiered.held, Tiered.held, Bool.or_eq_true, Bool.or_eq_true, restored.contains, restored.spill]
  constructor
  · rintro ((rfl | resident) | stored)
    · rwa [Tiered.held, Bool.or_eq_true] at held
    · exact .inl resident
    · exact .inr stored
  · rintro (resident | stored)
    · exact .inl (.inr resident)
    · exact .inr stored

/-- One blank block fewer comes first. -/
theorem Restored.calm (restored : Restored w hash id rest v) (sane : Sane w) (free : w.pool.freeList = id :: rest)
    (calm : w.Calm (n + 1)) : v.Calm n where
  reads store on := calm.reads store (restored.spill ▸ on)
  imports i := by rw [restored.imports, calm.imports]
  settled := restored.settled
  blank := by
    obtain ⟨enough, blank⟩ := calm.blank
    rw [free] at enough blank
    have enough' : n ≤ rest.length := Nat.le_of_succ_le_succ enough
    have nodup : (id :: rest).Nodup := by
      obtain ⟨L, r⟩ := sane.wf
      rw [← free, r.freeList]
      exact L.free_nodup
    refine ⟨?_, fun b mem => ?_⟩
    · rw [restored.freeList, List.length_append]
      exact Nat.le_add_right_of_le enough'
    · rw [restored.freeList, List.take_append_of_le_length enough'] at mem
      have other : id ≠ b := fun same => (List.nodup_cons.mp nodup).1 (same ▸ List.mem_of_mem_take mem)
      rw [restored.sane.wf.hashOf_none]
      intro k named
      rw [restored.byHash, Function.update_apply] at named
      split at named
      · exact other (Option.some.inj named)
      · exact (sane.wf.hashOf_none b).mp (blank b (List.mem_cons_of_mem _ mem)) k named
  spare _ := by
    rw [restored.numFree]
    exact calm.spare (Nat.succ_pos n)

/-- With blank blocks enough, what is resident after a promotion is what was
before, and the held prefix. -/
theorem promote_contains (sane : Sane w) (calm : w.Calm (w.missing hashes)) :
    (Tiered.promote hashes w).pool.contains k = true ↔ w.pool.contains k = true ∨ k ∈ hashes.takeWhile w.held := by
  induction hashes generalizing w with
  | nil => simp [Tiered.promote]
  | cons hash hashes ih =>
    unfold Tiered.promote
    split
    · rename_i resident
      have held : w.held hash = true := by rw [Tiered.held, resident, Bool.true_or]
      have same : w.missing (hash :: hashes) = w.missing hashes := by
        unfold Tiered.missing
        rw [List.takeWhile_cons_of_pos held, List.countP_cons_of_neg (by simp [resident])]
      rw [same] at calm
      rw [ih sane calm, List.takeWhile_cons_of_pos held, List.mem_cons]
      constructor
      · exact Or.imp_right .inr
      · rintro (before | rfl | later)
        · exact .inl before
        · exact .inl resident
        · exact .inr later
    · rename_i absent
      by_cases held : w.held hash = true
      · have one : w.missing (hash :: hashes) = w.missing hashes + 1 := by
          unfold Tiered.missing
          rw [List.takeWhile_cons_of_pos held, List.countP_cons_of_pos (by simp [absent])]
        rw [one] at calm
        obtain ⟨u, bytes, fetched, pool, calm', held'⟩ := fetch_held calm absent held
        have sane' : Sane u := by
          have := (fetch_sane sane hash).1
          rwa [fetched] at this
        obtain ⟨id, rest, free⟩ : ∃ id rest, u.pool.freeList = id :: rest := List.exists_cons_of_ne_nil fun none_ => by
          have := calm'.blank.1
          rw [none_] at this
          exact Nat.not_succ_le_zero _ this
        have blank : u.pool.hashOf id = none := calm'.blank.2 id (by rw [free, List.take_succ_cons]; exact List.mem_cons_self)
        obtain ⟨v, put, restored⟩ := restore_blank bytes sane' calm'.settled calm'.imports
          (absent_of_not_contains (pool ▸ absent)) (calm'.spare (Nat.succ_pos _)) free blank
        have heldAll : v.held = w.held := (restored.held (held' ▸ held)).trans held'
        have fewer : v.missing hashes ≤ w.missing hashes := by
          unfold Tiered.missing
          rw [heldAll]
          refine List.countP_mono_left fun k _ gone => ?_
          rw [Bool.not_eq_true', Bool.eq_false_iff] at gone ⊢
          exact fun before => gone (restored.contains.mpr (.inr (pool ▸ before)))
        rw [fetched]
        simp only [put]
        rw [ih restored.sane ((restored.calm sane' free calm').mono fewer), restored.contains, heldAll, pool,
          List.takeWhile_cons_of_pos held, List.mem_cons, or_assoc, or_left_comm]
      · have nothing := fetch_missing held
        have pool := (fetch_sane sane hash).2
        rw [List.takeWhile_cons_of_neg held]
        generalize w.fetch hash = r at nothing pool
        obtain ⟨u, got⟩ := r
        obtain rfl : got = none := nothing
        rw [← show u.pool = w.pool from pool]
        simp

/-- The held prefix is what is resident then. -/
theorem promote_finds (sane : Sane w) (calm : w.Calm (w.missing hashes)) :
    (Tiered.promote hashes w).resident hashes = hashes.takeWhile w.held := by
  have contains : ∀ k, (Tiered.promote hashes w).pool.contains k = true ↔
      w.pool.contains k = true ∨ k ∈ hashes.takeWhile w.held := fun k => promote_contains sane calm
  generalize Tiered.promote hashes w = u at contains
  have resident : ∀ k ∈ hashes.takeWhile w.held, u.pool.contains k = true := fun k mem => (contains k).mpr (.inr mem)
  have split := (List.takeWhile_append_dropWhile (p := w.held) (l := hashes)).symm
  have first : ∀ k, (hashes.dropWhile w.held).head? = some k → ¬u.pool.contains k = true := by
    intro k head now
    have apart : w.held k = false := by
      have := List.head?_dropWhile_not w.held hashes
      rw [head] at this
      exact this
    rcases (contains k).mp now with before | taken
    · rw [Tiered.held, before, Bool.true_or] at apart
      cases apart
    · exact absurd (List.mem_takeWhile_imp taken) (by simp [apart])
  unfold Tiered.resident
  rw [split, List.takeWhile_append_of_pos resident, List.takeWhile_append_dropWhile]
  refine List.append_right_eq_self.mpr ?_
  cases rest : hashes.dropWhile w.held with
  | nil => rfl
  | cons k rest' =>
    rw [rest] at first
    exact List.takeWhile_cons_of_neg (first k rfl)

end Loop

section Counting

variable {p q : BlockPool H} {s : Scheduler B} {ns : CacheNamespace B} {seq : Sequence}

omit [DecidableEq H] in
theorem matchBlocks_length (p : BlockPool H) (hs : List H) :
    (p.matchBlocks hs).2.length = (hs.takeWhile p.contains).length := by
  induction hs generalizing p with
  | nil => rfl
  | cons h hs ih =>
    unfold BlockPool.matchBlocks BlockPool.lookup
    cases named : p.byHash h with
    | none =>
      have absent : ¬p.contains h = true := by simp [BlockPool.contains, named]
      rw [List.takeWhile_cons_of_neg absent]
      rfl
    | some id =>
      have resident : p.contains h = true := by simp [BlockPool.contains, named]
      have same : (p.reference id).contains = p.contains := by
        unfold BlockPool.reference
        simp only
        split
        · rfl
        · rfl
      rw [List.takeWhile_cons_of_pos resident]
      change (((p.reference id).matchBlocks hs).2).length + 1 = _
      rw [ih, same, List.length_cons]

omit [DecidableEq H] in
/-- What is given back is what does not leave a token to compute, and no more. -/
theorem giveBack_length {target bs : Nat} (size : 0 < bs) (some_ : 0 < target) (l : List BlockId) (p : BlockPool H) :
    (Scheduler.giveBack target bs l (l.length * bs) p).2.1.length = min l.length ((target - 1) / bs) := by
  induction l generalizing p with
  | nil => simp [Scheduler.giveBack]
  | cons last rest ih =>
    unfold Scheduler.giveBack
    rw [List.length_cons]
    split
    · rename_i covered
      have fewer : (target - 1) / bs ≤ rest.length :=
        Nat.lt_succ_iff.mp ((Nat.div_lt_iff_lt_mul size).mpr (show target - 1 < (rest.length + 1) * bs by omega))
      rw [Nat.succ_mul, Nat.add_sub_cancel, ih, Nat.min_eq_right fewer, Nat.min_eq_right (Nat.le_succ_of_le fewer)]
    · rename_i short
      have enough : rest.length + 1 ≤ (target - 1) / bs := (Nat.le_div_iff_mul_le size).mpr (by omega)
      rw [List.length_reverse, List.length_cons, Nat.min_eq_left enough]

/-- The hashes a sequence is matched by. -/
def Scheduler.matchedHashes (s : Scheduler B) (seq : Sequence) : List H :=
  if s.cfg.prefixCache then
    hashBlockChain (s.nsFor seq.tenant) (seq.tokens.take seq.prefillTarget) s.cfg.blockSize
  else []

omit [DecidableEq H] in
/-- As many blocks are matched as are resident, but for a last token. -/
theorem matchCached_length (seq : Sequence) (wf : Wf s.pool) (size : 0 < s.cfg.blockSize) (same : s.pool.blockSize = s.cfg.blockSize)
    (some_ : 0 < seq.prefillTarget) :
    (s.matchCached (s.nsFor seq.tenant) seq).2.1.length =
      min ((s.matchedHashes seq).takeWhile s.pool.contains).length ((seq.prefillTarget - 1) / s.cfg.blockSize) := by
  unfold Scheduler.matchCached Scheduler.matchedHashes
  by_cases on : s.cfg.prefixCache = true
  · rw [if_pos on, if_pos on]
    generalize hashBlockChain (s.nsFor seq.tenant) (seq.tokens.take seq.prefillTarget) s.cfg.blockSize = hashes
    obtain ⟨-, tokens⟩ := matchPrefix_spec wf hashes
    have blocks : (s.pool.matchPrefix hashes).2.blocks.length = (hashes.takeWhile s.pool.contains).length :=
      matchBlocks_length _ hashes
    change (Scheduler.giveBack seq.prefillTarget s.cfg.blockSize (s.pool.matchPrefix hashes).2.blocks.reverse
      (s.pool.matchPrefix hashes).2.tokens (s.pool.matchPrefix hashes).1).2.1.length = _
    have given := giveBack_length size some_ (s.pool.matchPrefix hashes).2.blocks.reverse (s.pool.matchPrefix hashes).1
    rw [List.length_reverse] at given
    rw [tokens, same, given, blocks]
  · rw [if_neg on, if_neg on]
    simp

omit [DecidableEq H] in
/-- A reference taken uses up one free block at most. -/
theorem numFree_le_of_counts {l : List BlockId} (wf : Wf p) (counts : Recounts p q fun b => p.refcount b + l.count b) :
    p.numFree ≤ q.numFree + l.length := by
  rw [wf.numFree, counts.wf.numFree, counts.shape.numBlocks, counts.refcount]
  have split : ∀ b ∈ (List.range p.numBlocks).filter fun b => p.refcount b = 0,
      b ∈ ((List.range p.numBlocks).filter fun b => p.refcount b + l.count b = 0) ++ l := by
    intro b mem
    rw [List.mem_filter, decide_eq_true_iff] at mem
    rw [List.mem_append, List.mem_filter, decide_eq_true_iff, mem.2, Nat.zero_add, List.count_eq_zero]
    exact (Classical.em (b ∈ l)).symm.imp_left fun out => ⟨mem.1, out⟩
  rw [← List.length_append]
  exact (List.subperm_of_subset (List.nodup_range.filter _) split).length_le

end Counting

namespace Tiered

/-- The hashes a promotion asks for. -/
def lookedUp (w : Tiered B KV) (prompt : List Token) : List H :=
  if w.spill.isNone ∨ prompt.length / blockSize = 0 then [] else w.promptHashes prompt

theorem promoteFromSpill_eq (w : Tiered B KV) (prompt : List Token) :
    w.promoteFromSpill prompt = promote (w.lookedUp prompt) w := by
  unfold promoteFromSpill lookedUp
  split
  · rename_i off
    rw [if_pos (.inl off)]
    rfl
  · rename_i on
    split
    · rename_i short
      rw [if_pos (.inr short)]
      rfl
    · rename_i long
      rw [if_neg (not_or.mpr ⟨on, long⟩)]

/-- The chain of the job that would be admitted. -/
def jobChain (w : Tiered B KV) (prompt : List Token) (tenant : String) : List H :=
  hashBlockChain (w.cacheNamespace.forTenant tenant) prompt blockSize

/-- The blocks at the front of the chain that are held, but for a last token. -/
def countable (w : Tiered B KV) (prompt : List Token) (tenant : String) : Nat :=
  min ((w.jobChain prompt tenant).takeWhile w.held).length ((prompt.length - 1) / blockSize)

/-- There are free blocks enough: blank ones for what is put back, and for the
whole prompt and a token after it. -/
structure Ample (w : Tiered B KV) (prompt : List Token) (tenant : String) : Prop where
  calm : w.Calm (w.missing (w.jobChain prompt tenant))
  enough : w.pool.blocksFor (prompt.length + 1) + w.pool.watermark ≤ w.pool.numFree

/-- What a promotion asks for is what the job is matched by, and with free
blocks enough the job starts on all that was held. -/
structure Found (w : Tiered B KV) (requestId : RequestId) (prompt : List Token) (params : SamplingParams)
    (tenant : String) : Prop where
  hashes : w.lookedUp prompt ≠ [] → ∀ seq,
    (w.admitRequest requestId prompt params tenant).world.scheduler.seqs w.world.scheduler.nextId = some seq →
      w.lookedUp prompt = (w.admitRequest requestId prompt params tenant).world.scheduler.matchedHashes seq
  counted : w.Ample prompt tenant → ∃ t seq,
    (w.admitRequest requestId prompt params tenant).world.scheduler.tryStart w.world.scheduler.nextId =
        some (t, true) ∧
      t.seqs w.world.scheduler.nextId = some seq ∧ seq.numCachedBlocks = w.countable prompt tenant ∧
      seq.cachedPrefixTokens = w.countable prompt tenant * blockSize

/-- The engine counts in its own blocks and derives namespaces from its own. -/
structure Attuned (w : Tiered B KV) : Prop where
  wf : Wf w.pool
  regular : Regular w.world.scheduler
  poolSize : w.pool.blockSize = blockSize
  size : w.world.scheduler.cfg.blockSize = blockSize
  cacheNamespace : w.world.scheduler.cacheNamespace = w.cacheNamespace

end Tiered

section Attuned

variable {w w' : Tiered B KV} {kernel : Kernel KV} {cfg : SchedulerConfig} {numBlocks watermark : Nat}
  {ns : CacheNamespace B} {eos : List Token} {spill : Option (SpillStore H (Page KV))} {exports : Oracle Bool}
  {imports : Oracle (Option (Page KV))} {es : List Event} {base : Scheduler B} {P : H → Prop}

theorem Accounted.step_cacheNamespace (h : Accounted base P w) {e : Event} (step : w.Step kernel e w') :
    w'.cacheNamespace = w.cacheNamespace := by
  obtain ⟨⟨extra, bal⟩, -, sourced⟩ := h
  have proper : (w.world.exec kernel e).map w.setWorld = some w' → w'.cacheNamespace = w.cacheNamespace := by
    intro made
    obtain ⟨world, -, rfl⟩ := Option.map_eq_some_iff.mp made
    rfl
  unfold Tiered.Step Tiered.exec at step
  cases e with
  | admitRequest requestId prompt params tenant =>
    obtain rfl := Option.some.inj step
    exact (sourced.promoteFromSpill bal.wf prompt).2.1.cacheNamespace
  | schedule =>
    obtain ⟨⟨t, plan⟩, scheduled, made⟩ := bind_some (show w.schedule kernel = some w' from step)
    obtain ⟨p, steps, rfl, -⟩ := schedule_steps scheduled bal.queued
    obtain rfl := Option.some.inj made
    have faded : Sourced P (w.setWorld { w.world with scheduler := p.scheduler }) :=
      sourced.fades (fun k => id) (passSteps_fades steps bal)
    exact (faded.spillEvicted (passSteps_balanced steps bal).wf).2.1.cacheNamespace
  | commit sampled => exact proper step
  | fork parent tokens => exact proper step
  | cancel requestId => exact proper step
  | finishWith id reason => exact proper step
  | drainFinished => exact proper step

/-- So it is after every run. -/
theorem run_attuned (run : Run (Tiered.Step kernel) (Tiered.new cfg numBlocks watermark ns eos spill exports imports) es w) :
    w.Attuned := by
  have started : Accounted (Tiered.new cfg numBlocks watermark ns eos spill exports imports).world.scheduler (AtStart spill)
      (Tiered.new cfg numBlocks watermark ns eos spill exports imports) := Tiered.new_accounted
  obtain ⟨⟨⟨extra, bal⟩, regular, -⟩, own⟩ := run.invariant
    (fun w => Accounted (Tiered.new cfg numBlocks watermark ns eos spill exports imports).world.scheduler
      (fun _ => True) w ∧ w.cacheNamespace = ns)
    ⟨⟨started.balanced, started.regular, started.sourced.mono fun _ _ => trivial⟩, rfl⟩
    fun a e b h step => by
      have next := h.1.step (Nat.succ_pos 31) step
      exact ⟨⟨next.balanced, next.regular, next.sourced.mono fun _ _ => trivial⟩,
        (h.1.step_cacheNamespace step).trans h.2⟩
  refine ⟨bal.wf, regular, ?_, ?_, ?_⟩
  · exact bal.setup.shape.blockSize.trans Tiered.new_blockSize.2
  · rw [bal.setup.cfg]
    rfl
  · rw [bal.setup.cacheNamespace, own]
    rfl

end Attuned

section Job

variable {w : Tiered B KV} {requestId : RequestId} {prompt : List Token} {params : SamplingParams} {tenant : String}

omit [DecidableEq H] in
/-- Tokens after the last full block are not hashed. -/
theorem chain_full (ns : CacheNamespace B) (tokens : List Token) {size : Nat} (pos : 0 < size) :
    hashBlockChain ns (tokens.take (tokens.length / size * size)) size = hashBlockChain ns tokens size := by
  have full : tokens.length / size * size ≤ tokens.length := Nat.div_mul_le_self _ _
  unfold hashBlockChain
  rw [List.length_take_of_le full, Nat.mul_div_cancel _ pos, chunksExact_prefix tokens (Nat.le_refl _)]

theorem Tiered.Attuned.promoted (attuned : w.Attuned) (prompt : List Token) :
    Rearranged w (w.promoteFromSpill prompt) ∧ Wf (w.promoteFromSpill prompt).pool := by
  have everything : Sourced (fun _ : H => True) w := ⟨fun _ _ _ => trivial, fun _ _ => trivial, fun _ _ _ _ _ => trivial⟩
  exact (everything.promoteFromSpill attuned.wf prompt).2

/-- What the scheduler is once the job is admitted. -/
structure Entered (w u : Tiered B KV) (requestId : RequestId) (prompt : List Token) (params : SamplingParams)
    (tenant : String) (s : Scheduler B) : Prop where
  pool : s.pool = u.pool
  cfg : s.cfg = w.world.scheduler.cfg
  nsFor : s.nsFor tenant = w.cacheNamespace.forTenant tenant
  live : s.seqs w.world.scheduler.nextId = some (Sequence.new requestId prompt params tenant)

theorem Tiered.Attuned.entered (attuned : w.Attuned) (requestId : RequestId) (params : SamplingParams) (tenant : String)
    (nonempty : prompt ≠ [])
    (fits : prompt.length < w.world.scheduler.cfg.maxContext) :
    Entered w (w.promoteFromSpill prompt) requestId prompt params tenant
      (w.admitRequest requestId prompt params tenant).world.scheduler := by
  obtain ⟨moved, -⟩ := attuned.promoted prompt
  have world := moved.world
  have pool : (w.promoteFromSpill prompt).pool = (w.promoteFromSpill prompt).world.scheduler.pool := rfl
  unfold Tiered.admitRequest
  generalize w.promoteFromSpill prompt = u at world pool
  have admitted : (u.world.scheduler.admitRequest requestId prompt params tenant).1 =
      (u.world.scheduler.register (Sequence.new requestId prompt params tenant)).setWaiting
        (u.world.scheduler.waiting ++ [u.world.scheduler.nextId]) := by
    have cfg : u.world.scheduler.cfg = w.world.scheduler.cfg := by rw [world]; rfl
    unfold Scheduler.admitRequest
    rw [if_neg nonempty, cfg, if_neg (Nat.not_le.mpr fits)]
    rfl
  simp only [admitted]
  refine ⟨pool.symm, by rw [world]; rfl, ?_, ?_⟩
  · have own : (w.world.scheduler).nsFor tenant = w.cacheNamespace.forTenant tenant := by
      rw [attuned.regular.nsFor, attuned.cacheNamespace]
    rw [← own, world]
    rfl
  · change Function.update u.world.scheduler.seqs u.world.scheduler.nextId _ w.world.scheduler.nextId = _
    rw [world]
    exact Function.update_self ..

omit [DecidableEq H] in
theorem Entered.matched {u : Tiered B KV} {s : Scheduler B} (entered : Entered w u requestId prompt params tenant s)
    (attuned : w.Attuned) : s.matchedHashes (Sequence.new requestId prompt params tenant) =
      if w.world.scheduler.cfg.prefixCache then w.jobChain prompt tenant else [] := by
  unfold Scheduler.matchedHashes
  rw [entered.cfg, attuned.size]
  change (if _ then hashBlockChain (Scheduler.nsFor _ tenant) (prompt.take prompt.length) blockSize else []) = _
  rw [entered.nsFor, List.take_length]
  rfl

/-- With free blocks enough the job starts, on the resident part of what it is
matched by. -/
theorem Tiered.Attuned.starts (attuned : w.Attuned) (requestId : RequestId) (params : SamplingParams) (tenant : String)
    (nonempty : prompt ≠ [])
    (fits : prompt.length < w.world.scheduler.cfg.maxContext)
    (enough : w.pool.blocksFor (prompt.length + 1) + w.pool.watermark ≤ w.pool.numFree) :
    ∃ t seq, (w.admitRequest requestId prompt params tenant).world.scheduler.tryStart w.world.scheduler.nextId =
        some (t, true) ∧ t.seqs w.world.scheduler.nextId = some seq ∧
      seq.numCachedBlocks = min (((w.admitRequest requestId prompt params tenant).world.scheduler.matchedHashes
        (Sequence.new requestId prompt params tenant)).takeWhile (w.promoteFromSpill prompt).pool.contains).length
          ((prompt.length - 1) / blockSize) ∧
      seq.cachedPrefixTokens = seq.numCachedBlocks * blockSize := by
  obtain ⟨moved, wf⟩ := attuned.promoted prompt
  obtain ⟨pool, cfg, nsFor, live⟩ := attuned.entered requestId params tenant nonempty fits
  have numFree : (w.promoteFromSpill prompt).pool.numFree = w.pool.numFree := by
    rw [wf.numFree, attuned.wf.numFree, moved.shape.numBlocks, moved.refcount]
  generalize w.promoteFromSpill prompt = u at moved wf pool numFree
  generalize (w.admitRequest requestId prompt params tenant).world.scheduler = s at pool cfg nsFor live
  have wf' : Wf s.pool := pool ▸ wf
  have size : s.cfg.blockSize = blockSize := cfg ▸ attuned.size
  have shape : SameShape w.pool s.pool := pool ▸ moved.shape
  have poolSize : s.pool.blockSize = blockSize := shape.blockSize.trans attuned.poolSize
  have counted := matchCached_length (Sequence.new requestId prompt params tenant) wf'
    (by rw [size]; exact Nat.succ_pos 31) (poolSize.trans size.symm) (List.length_pos_iff.mpr nonempty)
  rcases hit : s.matchCached (s.nsFor tenant) (Sequence.new requestId prompt params tenant) with ⟨found, matched, cached⟩
  obtain ⟨cachedPrefix, tokens⟩ := matchCached_spec wf' hit
  have tokens := (tokens (poolSize.trans size.symm)).1
  rw [show (Sequence.new requestId prompt params tenant).tenant = tenant from rfl, hit, size, pool] at counted
  change matched.length = min _ ((prompt.length - 1) / blockSize) at counted
  -- what is matched is part of what is needed
  have needed : found.blocksFor (prompt.length + 1) = w.pool.blocksFor (prompt.length + 1) :=
    (shape.trans cachedPrefix.counts.shape).blocksFor _
  have reserve : found.watermark = w.pool.watermark := (shape.trans cachedPrefix.counts.shape).watermark
  have few : matched.length ≤ w.pool.blocksFor (prompt.length + 1) := by
    have le : (prompt.length - 1) / blockSize ≤ w.pool.blocksFor (prompt.length + 1) := by
      rw [← attuned.poolSize]
      refine Nat.le_trans (div_le_blocksFor (by rw [attuned.poolSize]; exact Nat.succ_pos 31) _) ?_
      exact blocksFor_mono (Nat.le_trans (Nat.sub_le ..) (Nat.le_succ _))
    exact Nat.le_trans (counted ▸ Nat.min_le_right _ _) le
  have left : s.pool.numFree ≤ found.numFree + matched.length := numFree_le_of_counts wf' cachedPrefix.counts
  rw [pool, numFree] at left
  have room : found.canAllocate (found.blocksFor (prompt.length + 1) - matched.length) = true := by
    rw [BlockPool.canAllocate, decide_eq_true_iff, needed, reserve]
    omega
  obtain ⟨q, taken, took⟩ := takeBlocks_enough (n := found.blocksFor (prompt.length + 1) - matched.length)
    cachedPrefix.counts.wf (by
      rw [BlockPool.canAllocate, decide_eq_true_iff] at room
      omega)
  have started := (tryStart_eq live hit).2 q taken room took
  refine ⟨_, _, started, Function.update_self .., ?_, ?_⟩
  · exact counted
  · change cached = matched.length * blockSize
    rw [tokens, size]

omit [DecidableEq H] in
theorem Tiered.promptHashes_eq (w : Tiered B KV) (prompt : List Token) :
    w.promptHashes prompt = w.jobChain prompt w.cacheNamespace.tenant := by
  unfold Tiered.promptHashes Tiered.jobChain
  have pos : 0 < blockSize := Nat.succ_pos 31
  rw [chain_full _ _ pos, CacheNamespace.forTenant_tenant]

omit [DecidableEq H] in
theorem Tiered.jobChain_short (short : prompt.length < blockSize) : w.jobChain prompt tenant = [] := by
  rw [← List.length_eq_zero_iff, Tiered.jobChain, hashBlockChain_length]
  exact Nat.div_eq_of_lt short

omit [DecidableEq H] in
theorem Tiered.lookedUp_of_long (on : w.spill ≠ none) (long : ¬prompt.length < blockSize) :
    w.lookedUp prompt = w.jobChain prompt w.cacheNamespace.tenant := by
  have blocks : 0 < prompt.length / blockSize := Nat.div_pos (Nat.le_of_not_lt long) (Nat.succ_pos 31)
  unfold Tiered.lookedUp
  rw [if_neg (not_or.mpr ⟨by simpa using on, Nat.ne_of_gt blocks⟩), Tiered.promptHashes_eq]

/-- With nothing asked of the tier, or what is asked being the job's chain, the
held part of the chain is resident when the job is matched. -/
theorem Tiered.Attuned.resident (attuned : w.Attuned) (ample : w.Ample prompt tenant)
    (agree : w.spill = none ∨ prompt.length < blockSize ∨ tenant = w.cacheNamespace.tenant) :
    (w.jobChain prompt tenant).takeWhile (w.promoteFromSpill prompt).pool.contains =
      (w.jobChain prompt tenant).takeWhile w.held := by
  by_cases off : w.spill = none
  · have held : w.held = w.pool.contains := by
      funext k
      rw [Tiered.held, off]
      exact Bool.or_false _
    rw [held, Tiered.promoteFromSpill, if_pos (by rw [off]; rfl)]
  · by_cases short : prompt.length < blockSize
    · rw [Tiered.jobChain_short short]
      rfl
    · obtain rfl := (agree.resolve_left off).resolve_left short
      rw [Tiered.promoteFromSpill_eq, Tiered.lookedUp_of_long off short]
      have on : w.spill.isSome := Option.isSome_iff_ne_none.mpr off
      exact promote_finds (.of_wf on attuned.wf) ample.calm

/-- A promotion asks for what the job is matched by, and with free blocks
enough the job starts on the longest prefix of its chain that was held, but for
a last token, exactly when: the spill tier is off, or the prompt fills no
block, or the job is of the engine's own tenant and prefixes are matched at
all; and where they are not, there is nothing to count. -/
theorem spilled_found (attuned : w.Attuned) (nonempty : prompt ≠ [])
    (fits : prompt.length < w.world.scheduler.cfg.maxContext)
    (free : Set.InjOn B.digest {x | x ∈ hashedBytes w.cacheNamespace prompt blockSize ∨
      x ∈ hashedBytes (w.cacheNamespace.forTenant tenant) prompt blockSize})
    (distinct : Function.Injective B.asBytes) :
    w.Found requestId prompt params tenant ↔
      (w.spill = none ∨ prompt.length < blockSize ∨
        tenant = w.cacheNamespace.tenant ∧ w.world.scheduler.cfg.prefixCache = true) ∧
      (w.world.scheduler.cfg.prefixCache = false → w.Ample prompt tenant → w.countable prompt tenant = 0) := by
  have entered := attuned.entered requestId params tenant nonempty fits
  have matched := entered.matched attuned
  have starts := attuned.starts requestId params tenant nonempty fits
  rw [matched] at starts
  constructor
  · intro found
    constructor
    · by_contra apart
      obtain ⟨on, long, foreign⟩ : w.spill ≠ none ∧ ¬prompt.length < blockSize ∧
          ¬(tenant = w.cacheNamespace.tenant ∧ w.world.scheduler.cfg.prefixCache = true) := by
        simpa only [not_or] using apart
      have looked := Tiered.lookedUp_of_long on long
      obtain ⟨h, entry⟩ : ∃ h, (w.jobChain prompt w.cacheNamespace.tenant)[0]? = some h := by
        refine ⟨_, List.getElem?_eq_getElem ?_⟩
        rw [Tiered.jobChain, hashBlockChain_length]
        exact Nat.div_pos (Nat.le_of_not_lt long) (Nat.succ_pos 31)
      have same := found.hashes (fun empty => by
        rw [← looked, empty] at entry
        cases entry) _ entered.live
      rw [looked, matched] at same
      split at same
      · rename_i caches
        apply foreign
        refine ⟨?_, caches⟩
        -- the first hashes of the two chains are one, and so are their roots
        have entry' : (w.jobChain prompt tenant)[0]? = some h := same ▸ entry
        rw [Tiered.jobChain, CacheNamespace.forTenant_tenant] at entry
        obtain ⟨-, -, roots⟩ := chain_inj free distinct (fun _ => .inl) (fun _ => .inr) entry entry'
        exact (namespaceBytes_tenant roots).symm
      · rw [same] at entry
        cases entry
    · intro off ample
      obtain ⟨t, seq, started, live, counted, -⟩ := found.counted ample
      obtain ⟨t', seq', started', live', counted', -⟩ := starts ample.enough
      obtain ⟨rfl, -⟩ := Prod.mk.inj (Option.some.inj (started.symm.trans started'))
      obtain rfl := Option.some.inj (live.symm.trans live')
      rw [← counted, counted', off]
      simp
  · rintro ⟨agree, nothing⟩
    constructor
    · intro asked seq live
      obtain rfl := Option.some.inj (entered.live.symm.trans live)
      rw [matched]
      have on : w.spill ≠ none := fun off => asked (by
        unfold Tiered.lookedUp
        rw [if_pos (.inl (by rw [off]; rfl))])
      have long : ¬prompt.length < blockSize := fun short => asked (by
        unfold Tiered.lookedUp
        rw [if_pos (.inr (Nat.div_eq_of_lt short))])
      obtain ⟨rfl, caches⟩ := (agree.resolve_left on).resolve_left long
      rw [if_pos caches, Tiered.lookedUp_of_long on long]
    · intro ample
      obtain ⟨t, seq, started, live, counted, tokens⟩ := starts ample.enough
      have same : seq.numCachedBlocks = w.countable prompt tenant := by
        rw [counted]
        cases caches : w.world.scheduler.cfg.prefixCache with
        | false =>
          rw [nothing caches ample]
          simp
        | true =>
          rw [if_pos rfl, attuned.resident ample (agree.imp_right (Or.imp_right And.left))]
          rfl
      exact ⟨t, seq, started, live, same, same ▸ tokens⟩

end Job

section Example

/-- A block of prompt and a token. -/
def blockAndOne : List Token := List.replicate 33 1

/-- The engine of one tenant, over the file that an earlier run wrote for another. -/
def elsewhere (tenant : String) : Tiered Blake3.identity Token :=
  .new {} 4 0 (.new "model" "weights" .f32 none "global") []
    (some (SpillStore.opened
      ((hashBlockChain (B := Blake3.identity) (.new "model" "weights" .f32 none tenant) blockAndOne blockSize).map
        fun hash => (hash, fun _ => some 1))
      true 4 4 (fun _ => 1) ⟨fun _ => true, 0⟩))
    ⟨fun _ => true, 0⟩ ⟨fun _ => none, 0⟩

theorem elsewhere_attuned (tenant : String) : (elsewhere tenant).Attuned :=
  @run_attuned _ _ _ _ _ spoken _ _ _ _ _ _ _ _ _ .nil

theorem elsewhere_ample (tenant : String)
    (one : (elsewhere tenant).missing ((elsewhere tenant).jobChain blockAndOne tenant) ≤ 1) :
    (elsewhere tenant).Ample blockAndOne tenant := by
  have pool : (elsewhere tenant).pool = (BlockPool.new 4 blockSize 0).setTrackEvictions true := rfl
  have calm : (elsewhere tenant).Calm 1 := by
    refine ⟨fun store known i => ?_, fun _ => rfl, rfl, ?_, fun _ => ?_⟩
    · obtain rfl := Option.some.inj known
      rfl
    · rw [pool]
      unfold BlockPool.Blank
      decide +kernel
    · rw [pool]
      decide +kernel
  refine ⟨calm.mono one, ?_⟩
  rw [pool]
  decide +kernel

/-- The prompt's block is held for its tenant, and there is room, but the job starts on nothing. -/
theorem foreign_tenant_misses :
    (elsewhere "acme").Ample blockAndOne "acme" ∧ (elsewhere "acme").countable blockAndOne "acme" = 1 ∧
      ¬(elsewhere "acme").Found ⟨"a"⟩ blockAndOne {} "acme" := by
  have one : (elsewhere "acme").missing ((elsewhere "acme").jobChain blockAndOne "acme") ≤ 1 := by decide +kernel
  have counts : (elsewhere "acme").countable blockAndOne "acme" = 1 := by decide +kernel
  have ample := elsewhere_ample "acme" one
  refine ⟨ample, counts, fun found => ?_⟩
  obtain ⟨t, seq, started, live, counted, -⟩ := found.counted ample
  have nothing : ((((elsewhere "acme").admitRequest ⟨"a"⟩ blockAndOne {} "acme").world.scheduler.tryStart
      (elsewhere "acme").world.scheduler.nextId).all fun r =>
        (r.1.seqs (elsewhere "acme").world.scheduler.nextId).all fun seq => seq.numCachedBlocks = 0) = true := by
    decide +kernel
  rw [started, Option.all_some, live, Option.all_some, decide_eq_true_iff, counted, counts] at nothing
  cases nothing

/-- The engine's own tenant finds its own. -/
theorem spilled_found_own : (elsewhere "global").Found ⟨"a"⟩ blockAndOne {} "global" :=
  (spilled_found (elsewhere_attuned "global") (by decide) (by decide) Function.injective_id.injOn
    Function.injective_id).mpr ⟨.inr (.inr ⟨rfl, rfl⟩), fun off => by cases off⟩

end Example

end Vapi.Engine
