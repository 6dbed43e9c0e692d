import Vapi.Cache.Ledger
import Vapi.Lib.Run

/-!
# The pool refines its ledger

`Refines p L` reads a ledger off the pool's vectors, its intrusive list and
its two hash maps. Every operation of the pool is the ledger's operation, so a
whole run of the pool is a run of the ledger with the same replies.
-/

namespace Vapi.Cache

open IntrusiveList (Represents walk)

variable {H : Type} [DecidableEq H]

structure Refines (p : BlockPool H) (L : Ledger H) : Prop where
  numBlocks : p.numBlocks = L.numBlocks
  blockSize : p.blockSize = L.blockSize
  watermark : p.watermark = L.reserve
  refcount : p.refcount = L.count
  byHash : p.byHash = L.index
  list : Represents p.lru L.free
  numFree : p.numFree = L.free.length
  hashOf : ∀ b h, p.hashOf b = some h ↔ p.byHash h = some b

/-- Evicting a block leaves exactly the ledger's `forget`. -/
theorem evict_maps {p : BlockPool H} (inverse : ∀ b h, p.hashOf b = some h ↔ p.byHash h = some b)
    (b : BlockId) :
    (p.evict b).byHash = Ledger.forget p.byHash b ∧
    (p.evict b).hashOf = Function.update p.hashOf b none := by
  unfold BlockPool.evict
  cases e : p.hashOf b with
  | none =>
    refine ⟨?_, by simp only; rw [← e, Function.update_eq_self]⟩
    funext h
    have : p.byHash h ≠ some b := fun hb => by simp [(inverse b h).mpr hb] at e
    simp [Ledger.forget, this]
  | some k =>
    refine ⟨?_, rfl⟩
    funext h
    by_cases hk : h = k
    · subst hk; simp [Ledger.forget, (inverse b h).mp e]
    · have : p.byHash h ≠ some b := by
        intro hb
        have := (inverse b h).mpr hb
        rw [e] at this
        exact hk (Option.some.inj this).symm
      simp [Ledger.forget, this, hk]

omit [DecidableEq H] in
/-- Forgetting a block on both sides keeps the two maps inverse. -/
theorem forget_inverse {hashOf : BlockId → Option H} {byHash : H → Option BlockId}
    (inverse : ∀ b h, hashOf b = some h ↔ byHash h = some b) (b x : BlockId) (h : H) :
    Function.update hashOf b none x = some h ↔ Ledger.forget byHash b h = some x := by
  rw [Ledger.forget_eq_some]
  by_cases e : x = b
  · subst e; simp
  · simp [e, inverse]

theorem evict_frame (p : BlockPool H) (b : BlockId) :
    (p.evict b).numBlocks = p.numBlocks ∧ (p.evict b).watermark = p.watermark ∧
    (p.evict b).blockSize = p.blockSize ∧ (p.evict b).refcount = p.refcount ∧
    (p.evict b).lru = p.lru ∧ (p.evict b).numFree = p.numFree := by
  unfold BlockPool.evict
  split <;> exact ⟨rfl, rfl, rfl, rfl, rfl, rfl⟩

omit [DecidableEq H] in
theorem new_refines (n blockSize watermark : Nat) :
    Refines (BlockPool.new n blockSize watermark : BlockPool H) (Ledger.initial n blockSize watermark) := by
  have seed : ∀ (xs : List BlockId) (base : BlockPool H), xs.Nodup → Represents base.lru [] →
      base.numFree = 0 →
      ∃ lru, (xs.reverse.foldl (fun (pool : BlockPool H) i =>
          { pool.pushFront i with numFree := pool.numFree + 1 }) base) =
        { base with lru := lru, numFree := xs.length } ∧ Represents lru xs := by
    intro xs base nodup empty none
    rw [List.foldl_reverse]
    induction xs with
    | nil => exact ⟨base.lru, by simp [← none], empty⟩
    | cons b xs ih =>
      obtain ⟨lru, eq, rep⟩ := ih (List.nodup_cons.mp nodup).2
      refine ⟨lru.pushFront b, ?_, IntrusiveList.pushFront_represents rep (List.nodup_cons.mp nodup).1⟩
      rw [List.foldr_cons, eq]
      rfl
  obtain ⟨lru, eq, rep⟩ := seed (List.range n)
    { blockSize, watermark := min watermark n, numBlocks := n
      refcount := fun _ => 0, hashOf := fun _ => none, byHash := fun _ => none
      lru := IntrusiveList.Links.empty, numFree := 0
      hitTokens := 0, queriedTokens := 0, evictions := 0
      evictedContent := [], trackEvictions := false }
    List.nodup_range IntrusiveList.empty_represents rfl
  rw [BlockPool.new, eq]
  exact ⟨rfl, rfl, rfl, rfl, rfl, rep, rfl, by simp⟩

theorem allocate_eq {p : BlockPool H} {b : BlockId} (hn : p.numFree ≠ 0)
    (hh : p.lru.head = some b) :
    p.allocate = .ok (((p.detach b).evict b).setRefcount b 1, b) := by
  unfold BlockPool.allocate
  split
  · contradiction
  · simp_all
  · rename_i c _ hc
    rw [hh] at hc
    rw [Option.some.inj hc]

theorem allocate_refines {p : BlockPool H} {L : Ledger H} (r : Refines p L) :
    (p.allocate = .error .exhausted ∧ L.allocate = none) ∨
    ∃ p' L' b, p.allocate = .ok (p', b) ∧ L.allocate = some (L', b) ∧ Refines p' L' := by
  have hn := r.numFree
  have hh := r.list.head
  cases hf : L.free with
  | nil =>
    refine .inl ⟨?_, Ledger.allocate_nil hf⟩
    simp [BlockPool.allocate, hn, hf]
  | cons b rest =>
    obtain ⟨L', hL, hblocks, hsize, hreserve, hcount, hfree, hindex⟩ := Ledger.allocate_cons hf
    rw [hf] at hn hh
    have unlinked : Represents (p.lru.unlink b) rest :=
      IntrusiveList.unlink_represents (x := []) (by simpa [hf] using r.list)
    obtain ⟨eBlocks, eWatermark, eSize, eRefcount, eLru, eFree⟩ := evict_frame (p.detach b) b
    obtain ⟨eByHash, eHashOf⟩ := evict_maps (p := p.detach b) r.hashOf b
    refine .inr ⟨_, L', b, allocate_eq (by simp [hn]) hh, hL, ?_⟩
    refine ⟨eBlocks.trans (r.numBlocks.trans hblocks.symm),
      eSize.trans (r.blockSize.trans hsize.symm), eWatermark.trans (r.watermark.trans hreserve.symm), ?_, ?_, ?_, ?_, ?_⟩
    · rw [hcount, ← r.refcount]
      exact congrArg (fun f => Function.update f b 1) eRefcount
    · exact eByHash.trans (by rw [hindex, ← r.byHash]; rfl)
    · change Represents ((p.detach b).evict b).lru L'.free
      rw [hfree, eLru]
      exact unlinked
    · refine eFree.trans ?_
      rw [hfree]
      simp [BlockPool.detach, hn]
    · intro x h
      change ((p.detach b).evict b).hashOf x = some h ↔ ((p.detach b).evict b).byHash h = some x
      rw [eHashOf, eByHash]
      exact forget_inverse r.hashOf b x h

omit [DecidableEq H] in
theorem reference_refines {p : BlockPool H} {L : Ledger H} (r : Refines p L) {b : BlockId}
    (hb : b < L.numBlocks) : Refines (p.reference b) (L.reference b hb) := by
  have hmem := L.mem_free b
  rw [← r.refcount] at hmem
  unfold BlockPool.reference
  by_cases e : p.refcount b = 0
  · obtain ⟨x, y, _, eq, erased⟩ := List.exists_erase_eq (hmem.mpr ⟨hb, e⟩)
    rw [if_pos e]
    refine ⟨r.numBlocks, r.blockSize, r.watermark, ?_, r.byHash, ?_, ?_, r.hashOf⟩
    · exact congrArg (fun f => Function.update f b (f b + 1)) r.refcount
    · change Represents (p.lru.unlink b) (L.free.erase b)
      rw [erased]
      exact IntrusiveList.unlink_represents (eq ▸ r.list)
    · change p.numFree - 1 = (L.free.erase b).length
      rw [r.numFree, List.length_erase_of_mem (hmem.mpr ⟨hb, e⟩)]
  · rw [if_neg e]
    have same : L.free.erase b = L.free := List.erase_of_not_mem (fun h => e (hmem.mp h).2)
    refine ⟨r.numBlocks, r.blockSize, r.watermark, ?_, r.byHash, ?_, ?_, r.hashOf⟩
    · exact congrArg (fun f => Function.update f b (f b + 1)) r.refcount
    · simpa [BlockPool.setRefcount, Ledger.reference, same] using r.list
    · simpa [BlockPool.setRefcount, Ledger.reference, same] using r.numFree

omit [DecidableEq H] in
/-- Once a block is referenced, one reference more is the same with and
without looking for it in the free list. -/
theorem incref_eq_reference {p : BlockPool H} {b : BlockId} (hb : 0 < p.refcount b) :
    p.incref b = p.reference b := by
  unfold BlockPool.incref BlockPool.reference
  rw [if_neg (Nat.ne_of_gt hb)]

omit [DecidableEq H] in
theorem free_refines {p : BlockPool H} {L : Ledger H} (r : Refines p L) {b : BlockId}
    (hb : 0 < L.count b) : Refines (p.free b) (L.release b hb) := by
  have notFree : b ∉ L.free := fun h => by have := (L.mem_free b).mp h; omega
  have hc : p.refcount b = L.count b := congrFun r.refcount b
  have cached : (p.hashOf b).isSome ↔ ∃ h, L.index h = some b := by
    simp only [Option.isSome_iff_exists, r.hashOf, r.byHash]
  unfold BlockPool.free
  by_cases one : L.count b = 1
  · rw [if_pos (by simp [BlockPool.setRefcount, hc, one])]
    refine ⟨r.numBlocks, r.blockSize, r.watermark, ?_, r.byHash, ?_, ?_, r.hashOf⟩
    · simp [BlockPool.attach, BlockPool.setRefcount, Ledger.release, ← r.refcount]
    · simp only [BlockPool.attach, Ledger.release, one, if_true]
      by_cases hc : (p.hashOf b).isSome
      · rw [if_pos (cached.mp hc), if_pos (by exact hc)]
        exact IntrusiveList.pushBack_represents r.list notFree
      · rw [if_neg (fun h => hc (cached.mpr h)), if_neg (by exact hc)]
        exact IntrusiveList.pushFront_represents r.list notFree
    · simp only [BlockPool.attach, BlockPool.setRefcount, Ledger.release, one, if_true]
      split <;> simp [r.numFree]
  · rw [if_neg (by simp [BlockPool.setRefcount, hc]; omega)]
    refine ⟨r.numBlocks, r.blockSize, r.watermark, ?_, r.byHash, ?_, ?_, r.hashOf⟩
    · simp [BlockPool.setRefcount, Ledger.release, ← r.refcount]
    · simpa [BlockPool.setRefcount, Ledger.release, one] using r.list
    · simpa [BlockPool.setRefcount, Ledger.release, one] using r.numFree

/-- A hash that nothing else carries moves to the block, and the block's old
hash goes. -/
theorem setHash_refines {p : BlockPool H} {L : Ledger H} (r : Refines p L) {b : BlockId} {h : H}
    (hb : b < L.numBlocks) (own : ∀ x, L.index h = some x → x = b) :
    Refines (p.setHash b h) (L.assign b h hb) := by
  have index : (p.setHash b h).byHash = Function.update (Ledger.forget L.index b) h (some b) := by
    funext k
    by_cases e : k = h
    · subst e; simp [BlockPool.setHash]
    · rw [Function.update_of_ne e, ← r.byHash]
      simp only [BlockPool.setHash, Function.update_of_ne e, Ledger.forget, ← r.hashOf]
      cases eb : p.hashOf b with
      | none => simp
      | some stale =>
        by_cases es : stale = h
        · simp [es, Ne.symm e]
        · by_cases ek : k = stale
          · simp [ek, es]
          · simp [es, Function.update_of_ne ek, Ne.symm ek]
  refine ⟨r.numBlocks, r.blockSize, r.watermark, r.refcount, index, r.list, r.numFree, ?_⟩
  intro x k
  rw [index]
  simp only [BlockPool.setHash]
  by_cases ex : x = b <;> by_cases ek : k = h
  · simp [ex, ek]
  · simp [ex, ek, Ledger.forget_eq_some, Ne.symm ek]
  · subst ek
    rw [Function.update_of_ne ex, Function.update_self, r.hashOf, r.byHash]
    exact ⟨fun hx => absurd (own x hx) ex, fun hx => absurd (Option.some.inj hx).symm ex⟩
  · rw [Function.update_of_ne ex, Function.update_of_ne ek, Ledger.forget_eq_some, r.hashOf,
      r.byHash]
    exact ⟨fun hx => ⟨hx, ex⟩, fun hx => hx.1⟩

theorem publish_refines {p : BlockPool H} {L : Ledger H} (r : Refines p L) {b : BlockId} (h : H)
    (hb : b < L.numBlocks) :
    Refines (p.publish b h).1 (L.publish b h hb).1 ∧
    (p.publish b h).2 = (L.publish b h hb).2 := by
  unfold BlockPool.publish
  rw [r.byHash]
  split
  · rename_i x e
    split
    · rename_i ne
      rw [Ledger.publish_other hb e ne]
      exact ⟨reference_refines r (L.indexed h x e), rfl⟩
    · rename_i own
      have own' : ∀ y, L.index h = some y → y = b := fun y hy =>
        (Option.some.inj (e.symm.trans hy)) ▸ not_not.mp own
      rw [Ledger.publish_own hb own']
      exact ⟨setHash_refines r hb own', rfl⟩
  · rename_i e
    have own : ∀ y, L.index h = some y → y = b := by simp [e]
    rw [Ledger.publish_own hb own]
    exact ⟨setHash_refines r hb own, rfl⟩

end Vapi.Cache
