import Vapi.Cache.PoolRun

/-!
# What the pool's callers rely on

One specification for each operation, on the reference counts, the index and
the number of free blocks. `Wf` hides the ledger behind the pool.
-/

namespace Vapi.Cache

variable {H : Type} [DecidableEq H]

def Wf (p : BlockPool H) : Prop := ∃ L, Refines p L

/-- The parts of a pool no operation changes. -/
structure SameShape (p q : BlockPool H) : Prop where
  numBlocks : q.numBlocks = p.numBlocks
  blockSize : q.blockSize = p.blockSize
  watermark : q.watermark = p.watermark

namespace SameShape

omit [DecidableEq H]
variable {p q r : BlockPool H}

theorem refl (p : BlockPool H) : SameShape p p := ⟨rfl, rfl, rfl⟩

theorem trans (h : SameShape p q) (k : SameShape q r) : SameShape p r :=
  ⟨k.numBlocks.trans h.numBlocks, k.blockSize.trans h.blockSize, k.watermark.trans h.watermark⟩

theorem blocksFor (h : SameShape p q) (n : Nat) : q.blocksFor n = p.blocksFor n := by
  simp [BlockPool.blocksFor, h.blockSize]

end SameShape

section Reading

omit [DecidableEq H]
variable {p : BlockPool H}

theorem wf_new (n blockSize watermark : Nat) : Wf (BlockPool.new n blockSize watermark : BlockPool H) :=
  ⟨_, new_refines n blockSize watermark⟩

theorem new_fields (n blockSize watermark : Nat) :
    (BlockPool.new n blockSize watermark : BlockPool H).numBlocks = n ∧
    (BlockPool.new n blockSize watermark : BlockPool H).blockSize = blockSize ∧
    (∀ b, (BlockPool.new n blockSize watermark : BlockPool H).refcount b = 0) ∧
    (∀ h, (BlockPool.new n blockSize watermark : BlockPool H).byHash h = none) := by
  have r := new_refines (H := H) n blockSize watermark
  exact ⟨r.numBlocks, r.blockSize, fun b => congrFun r.refcount b, fun h => congrFun r.byHash h⟩

theorem new_watermark (n blockSize watermark : Nat) :
    (BlockPool.new n blockSize watermark : BlockPool H).watermark = min watermark n :=
  (new_refines (H := H) n blockSize watermark).watermark

theorem Wf.inverse (w : Wf p) (b : BlockId) (h : H) : p.hashOf b = some h ↔ p.byHash h = some b :=
  w.elim fun _ r => r.hashOf b h

theorem Wf.lt_of_pos (w : Wf p) {b : BlockId} (hb : 0 < p.refcount b) : b < p.numBlocks :=
  w.elim fun L r => by rw [r.numBlocks]; exact L.counted b (r.refcount ▸ hb)

theorem Wf.indexed (w : Wf p) {h : H} {b : BlockId} (hb : p.byHash h = some b) : b < p.numBlocks :=
  w.elim fun L r => by rw [r.numBlocks]; exact L.indexed h b (r.byHash ▸ hb)

theorem Wf.index_inj (w : Wf p) {h h' : H} {b : BlockId} (hb : p.byHash h = some b)
    (hb' : p.byHash h' = some b) : h = h' :=
  w.elim fun L r => L.index_inj h h' b (r.byHash ▸ hb) (r.byHash ▸ hb')

theorem Wf.hashOf_none (w : Wf p) (b : BlockId) : p.hashOf b = none ↔ ∀ h, p.byHash h ≠ some b := by
  rw [Option.eq_none_iff_forall_ne_some]
  exact forall_congr' fun h => not_congr (w.inverse b h)

/-- `numFree` counts the blocks without a reference. -/
theorem Wf.numFree (w : Wf p) :
    p.numFree = ((List.range p.numBlocks).filter fun b => p.refcount b = 0).length := by
  obtain ⟨L, r⟩ := w
  obtain ⟨-, nodup, length, free, -⟩ := refines_reads r
  rw [length]
  refine ((List.perm_ext_iff_of_nodup nodup (List.nodup_range.filter _)).mpr fun b => ?_).length_eq
  simp [free b]

theorem Wf.numFree_of_unused (w : Wf p) (unused : ∀ b, p.refcount b = 0) :
    p.numFree = p.numBlocks := by
  rw [w.numFree]
  simp [unused]

end Reading

/-- What a successful allocation does. -/
structure Allocates (p q : BlockPool H) (b : BlockId) : Prop where
  shape : SameShape p q
  wf : Wf q
  isBlock : b < p.numBlocks
  unused : p.refcount b = 0
  refcount : q.refcount = Function.update p.refcount b 1
  byHash : ∀ h x, q.byHash h = some x ↔ p.byHash h = some x ∧ x ≠ b
  numFree : q.numFree + 1 = p.numFree

theorem allocate_spec {p : BlockPool H} (w : Wf p) :
    (p.numFree = 0 ∧ p.allocate = .error .exhausted) ∨
    ∃ q b, p.allocate = .ok (q, b) ∧ Allocates p q b := by
  obtain ⟨L, r⟩ := w
  rcases allocate_refines r with ⟨hp, hL⟩ | ⟨q, L', b, hp, hL, r'⟩
  · refine .inl ⟨?_, hp⟩
    cases hf : L.free with
    | nil => rw [r.numFree, hf]; rfl
    | cons b rest => obtain ⟨M, hM, -⟩ := Ledger.allocate_cons hf; simp [hL] at hM
  · refine .inr ⟨q, b, hp, ?_⟩
    cases hf : L.free with
    | nil => simp [Ledger.allocate_nil hf] at hL
    | cons c rest =>
      obtain ⟨M, hM, blocks, size, reserve, count, free, index⟩ := Ledger.allocate_cons hf
      obtain ⟨rfl, rfl⟩ : M = L' ∧ c = b := by simpa [hM] using hL
      obtain ⟨isBlock, unused⟩ := (L.mem_free c).mp (by simp [hf])
      exact {
        shape := ⟨r'.numBlocks.trans (blocks.trans r.numBlocks.symm),
          r'.blockSize.trans (size.trans r.blockSize.symm),
          r'.watermark.trans (reserve.trans r.watermark.symm)⟩
        wf := ⟨_, r'⟩
        isBlock := r.numBlocks ▸ isBlock
        unused := by rw [r.refcount]; exact unused
        refcount := by rw [r'.refcount, count, r.refcount]
        byHash := fun h x => by rw [r'.byHash, index, Ledger.forget_eq_some, r.byHash]
        numFree := by rw [r'.numFree, r.numFree, free, hf]; rfl }

/-- The guarded allocation is the plain one where the reserve allows it. -/
theorem allocateGuarded_spec {p : BlockPool H} (w : Wf p) :
    (p.numFree < 1 + p.watermark ∧ p.allocateGuarded = .error (.watermark 1 p.watermark)) ∨
    ∃ q b, p.allocateGuarded = .ok (q, b) ∧ 1 + p.watermark ≤ p.numFree ∧ Allocates p q b := by
  unfold BlockPool.allocateGuarded
  by_cases room : p.canAllocate 1
  · have room' : 1 + p.watermark ≤ p.numFree := by simpa [BlockPool.canAllocate] using room
    rw [if_pos room]
    rcases allocate_spec w with ⟨none, -⟩ | ⟨q, b, hq, spec⟩
    · omega
    · exact .inr ⟨q, b, hq, room', spec⟩
  · have tight : p.numFree < 1 + p.watermark := by simpa [BlockPool.canAllocate] using room
    rw [if_neg room]
    exact .inl ⟨tight, rfl⟩

/-- An operation that leaves the index alone. -/
structure Recounts (p q : BlockPool H) (refcount : BlockId → Nat) : Prop where
  shape : SameShape p q
  wf : Wf q
  refcount : q.refcount = refcount
  byHash : q.byHash = p.byHash

section Counting

omit [DecidableEq H]
variable {p : BlockPool H}

theorem free_spec (w : Wf p) {b : BlockId} (hb : 0 < p.refcount b) :
    Recounts p (p.free b) (Function.update p.refcount b (p.refcount b - 1)) := by
  obtain ⟨L, r⟩ := w
  have r' := free_refines r (b := b) (r.refcount ▸ hb)
  have counts := congrArg (fun f => Function.update f b (f b - 1)) r.refcount.symm
  exact ⟨⟨r'.numBlocks.trans r.numBlocks.symm, r'.blockSize.trans r.blockSize.symm,
    r'.watermark.trans r.watermark.symm⟩, ⟨_, r'⟩, r'.refcount.trans counts,
    r'.byHash.trans r.byHash.symm⟩

theorem free_refcount_of_ne (p : BlockPool H) {b c : BlockId} (ne : b ≠ c) :
    (p.free c).refcount b = p.refcount b := by
  have set : (p.setRefcount c (p.refcount c - 1)).refcount b = p.refcount b :=
    Function.update_of_ne ne ..
  unfold BlockPool.free
  simp only
  split
  · exact set
  · exact set

theorem reference_spec (w : Wf p) {b : BlockId} (hb : b < p.numBlocks) :
    Recounts p (p.reference b) (Function.update p.refcount b (p.refcount b + 1)) := by
  obtain ⟨L, r⟩ := w
  have r' := reference_refines r (b := b) (r.numBlocks ▸ hb)
  have counts := congrArg (fun f => Function.update f b (f b + 1)) r.refcount.symm
  exact ⟨⟨r'.numBlocks.trans r.numBlocks.symm, r'.blockSize.trans r.blockSize.symm,
    r'.watermark.trans r.watermark.symm⟩, ⟨_, r'⟩, r'.refcount.trans counts,
    r'.byHash.trans r.byHash.symm⟩

theorem incref_spec (w : Wf p) {b : BlockId} (hb : 0 < p.refcount b) :
    Recounts p (p.incref b) (Function.update p.refcount b (p.refcount b + 1)) :=
  incref_eq_reference hb ▸ reference_spec w (w.lt_of_pos hb)

/-- Releasing a list of references, when that many are held. -/
theorem freeAll_spec (w : Wf p) {l : List BlockId}
    (held : ∀ b, l.count b ≤ p.refcount b) :
    Recounts p (p.freeAll l) (fun b => p.refcount b - l.count b) := by
  induction l generalizing p with
  | nil => exact ⟨.refl p, w, by simp [BlockPool.freeAll], rfl⟩
  | cons c l ih =>
    have hc := held c
    rw [List.count_cons_self] at hc
    have first := free_spec w (b := c) (by omega)
    have held' : ∀ b, l.count b ≤ (p.free c).refcount b := by
      intro b
      have hb := held b
      rw [List.count_cons] at hb
      rw [first.refcount, Function.update_apply]
      by_cases e : b = c
      · simp only [e, if_true] at hb ⊢; simp only [beq_self_eq_true, if_true] at hb; omega
      · simp only [e, if_false]; omega
    have rest := ih first.wf held'
    refine ⟨first.shape.trans rest.shape, rest.wf, ?_, rest.byHash.trans first.byHash⟩
    refine rest.refcount.trans (funext fun b => ?_)
    rw [first.refcount, Function.update_apply, List.count_cons]
    by_cases e : b = c
    · simp [e]; omega
    · simp [e, Ne.symm e]

/-- The references a caller takes by `incref` on a list of held blocks. -/
theorem increfAll_spec (w : Wf p) {bs : List BlockId}
    (held : ∀ b ∈ bs, 0 < p.refcount b) :
    Recounts p (bs.foldl BlockPool.incref p) (fun b => p.refcount b + bs.count b) := by
  induction bs generalizing p with
  | nil => exact ⟨.refl p, w, by simp, rfl⟩
  | cons c bs ih =>
    have first := incref_spec w (held c (by simp))
    have held' : ∀ b ∈ bs, 0 < (p.incref c).refcount b := by
      intro b hb
      have := held b (by simp [hb])
      rw [first.refcount, Function.update_apply]
      split <;> omega
    have rest := ih first.wf held'
    refine ⟨first.shape.trans rest.shape, rest.wf, ?_, rest.byHash.trans first.byHash⟩
    refine rest.refcount.trans (funext fun b => ?_)
    rw [first.refcount, Function.update_apply, List.count_cons]
    by_cases e : b = c
    · simp [e]; omega
    · simp [e, Ne.symm e]

/-- What matching hashes against the index finds: the named blocks of the
longest prefix that is indexed, each with a reference more. -/
structure Matches (p q : BlockPool H) (hs : List H) (blocks : List BlockId) : Prop where
  counts : Recounts p q (fun b => p.refcount b + blocks.count b)
  length : blocks.length ≤ hs.length
  named : ∀ (i : Nat) (b : BlockId), blocks[i]? = some b → ∃ h : H, hs[i]? = some h ∧ p.byHash h = some b

theorem matchBlocks_spec (w : Wf p) (hs : List H) :
    Matches p (p.matchBlocks hs).1 hs (p.matchBlocks hs).2 := by
  induction hs generalizing p with
  | nil => exact ⟨⟨.refl p, w, by simp [BlockPool.matchBlocks], rfl⟩, by simp [BlockPool.matchBlocks],
      by simp [BlockPool.matchBlocks]⟩
  | cons h hs ih =>
    unfold BlockPool.matchBlocks BlockPool.lookup
    cases e : p.byHash h with
    | none => exact ⟨⟨.refl p, w, by simp, rfl⟩, by simp, by simp⟩
    | some b =>
      have first := reference_spec w (w.indexed e)
      have rest := ih first.wf
      refine ⟨⟨first.shape.trans rest.counts.shape, rest.counts.wf, ?_,
        rest.counts.byHash.trans first.byHash⟩, ?_, ?_⟩
      · refine rest.counts.refcount.trans (funext fun x => ?_)
        rw [first.refcount, Function.update_apply, List.count_cons]
        by_cases ex : x = b
        · simp [ex]; omega
        · simp [ex, Ne.symm ex]
      · simpa using rest.length
      · intro i x hx
        cases i with
        | zero =>
          obtain rfl : b = x := by simpa using hx
          exact ⟨h, by simp, e⟩
        | succ i =>
          obtain ⟨k, hk, named⟩ := rest.named i x (by simpa using hx)
          exact ⟨k, by simpa using hk, first.byHash ▸ named⟩

theorem matchPrefix_spec (w : Wf p) (hs : List H) :
    Matches p (p.matchPrefix hs).1 hs (p.matchPrefix hs).2.blocks ∧
    (p.matchPrefix hs).2.tokens = (p.matchPrefix hs).2.blocks.length * p.blockSize := by
  let q : BlockPool H := { p with queriedTokens := p.queriedTokens + hs.length * p.blockSize }
  have wq : Wf q := w.elim fun L r => ⟨L, r.congr rfl rfl rfl rfl rfl rfl rfl rfl⟩
  have spec := matchBlocks_spec wq hs
  have wf : Wf (p.matchPrefix hs).1 :=
    spec.counts.wf.elim fun L r => ⟨L, r.congr rfl rfl rfl rfl rfl rfl rfl rfl⟩
  refine ⟨⟨⟨⟨spec.counts.shape.numBlocks, spec.counts.shape.blockSize, spec.counts.shape.watermark⟩,
    wf, spec.counts.refcount, spec.counts.byHash⟩, spec.length, spec.named⟩, ?_⟩
  change (q.matchBlocks hs).2.length * (q.matchBlocks hs).1.blockSize = _
  rw [spec.counts.shape.blockSize]
  rfl

end Counting

/-- What publishing does: the index names the result under the hash, and
every other entry is as before, but for one the block carried itself. -/
structure Publishes (p q : BlockPool H) (b : BlockId) (h : H) (canonical : BlockId) : Prop where
  shape : SameShape p q
  wf : Wf q
  refcount : q.refcount =
    if canonical = b then p.refcount else Function.update p.refcount canonical (p.refcount canonical + 1)
  named : q.byHash h = some canonical
  other : ∀ k x, k ≠ h → (q.byHash k = some x ↔ p.byHash k = some x ∧ (canonical = b → x ≠ b))
  adopted : canonical ≠ b → p.byHash h = some canonical

theorem publish_spec {p : BlockPool H} (w : Wf p) {b : BlockId} (h : H) (hb : b < p.numBlocks) :
    Publishes p (p.publish b h).1 b h (p.publish b h).2 := by
  obtain ⟨L, r⟩ := w
  have hb' : b < L.numBlocks := r.numBlocks ▸ hb
  obtain ⟨r', same⟩ := publish_refines r h hb'
  have own : (∀ x, L.index h = some x → x = b) →
      Publishes p (p.publish b h).1 b h (p.publish b h).2 := by
    intro own
    rw [Ledger.publish_own hb' own] at r' same
    rw [same]
    refine ⟨⟨r'.numBlocks.trans r.numBlocks.symm, r'.blockSize.trans r.blockSize.symm,
      r'.watermark.trans r.watermark.symm⟩, ⟨_, r'⟩, ?_, ?_, ?_, by simp⟩
    · rw [if_pos rfl, r'.refcount, r.refcount]; rfl
    · rw [r'.byHash]; simp [Ledger.assign]
    · intro k x hk
      rw [r'.byHash, r.byHash]
      simp [Ledger.assign, Function.update_of_ne hk, Ledger.forget_eq_some]
  cases e : L.index h with
  | none => exact own (by simp [e])
  | some x =>
    by_cases ne : x = b
    · exact own fun y hy => (Option.some.inj (e.symm.trans hy)) ▸ ne
    · rw [Ledger.publish_other hb' e ne] at r' same
      rw [same]
      refine ⟨⟨r'.numBlocks.trans r.numBlocks.symm, r'.blockSize.trans r.blockSize.symm,
        r'.watermark.trans r.watermark.symm⟩, ⟨_, r'⟩, ?_, ?_, ?_, fun _ => by rw [r.byHash]; exact e⟩
      · rw [if_neg ne, r'.refcount, r.refcount]; rfl
      · rw [r'.byHash]; exact e
      · intro k y _
        rw [r'.byHash, r.byHash]
        exact ⟨fun hy => ⟨hy, fun eq => absurd eq ne⟩, fun hy => hy.1⟩

end Vapi.Cache
