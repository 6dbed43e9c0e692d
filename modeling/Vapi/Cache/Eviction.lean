import Vapi.Cache.PoolSpec

/-!
# Evictions

An allocation takes the first free block, and with it goes the name the block
still had, which is put down as evicted. Between two reports names only fade:
none comes to be, and what is put down was a name.
-/

namespace Vapi.Cache

open IntrusiveList (walk)

variable {H : Type} [DecidableEq H]

/-- The free blocks, in the order they are handed out. -/
def BlockPool.freeList (p : BlockPool H) : List BlockId := walk p.lru.next p.lru.head p.numFree

/-- Names are lost, and only names are put down as evicted. -/
structure Fades (p q : BlockPool H) : Prop where
  named : ∀ h b, q.byHash h = some b → p.byHash h = some b
  evicted : ∀ x ∈ q.evictedContent, x ∈ p.evictedContent ∨ p.byHash x.1 = some x.2

namespace Fades

omit [DecidableEq H]
variable {p q r : BlockPool H}

theorem of_same (byHash : q.byHash = p.byHash) (evictedContent : q.evictedContent = p.evictedContent) : Fades p q where
  named _ _ named := byHash ▸ named
  evicted _ hx := .inl (evictedContent ▸ hx)

theorem refl (p : BlockPool H) : Fades p p := .of_same rfl rfl

theorem trans (h : Fades p q) (k : Fades q r) : Fades p r where
  named x b named := h.named x b (k.named x b named)
  evicted x hx := (k.evicted x hx).elim (h.evicted x) fun named => .inr (h.named x.1 x.2 named)

end Fades

section Operations

variable {p q : BlockPool H} {b : BlockId}

omit [DecidableEq H] in
theorem Refines.freeList {L : Ledger H} (r : Refines p L) : p.freeList = L.free :=
  ((refines_reads r).1 p.numFree (Nat.le_refl _)).1

omit [DecidableEq H] in
theorem new_evicted (numBlocks blockSize watermark : Nat) :
    (BlockPool.new numBlocks blockSize watermark : BlockPool H).evictedContent = [] := by
  have seeded : ∀ (l : List BlockId) (p : BlockPool H),
      (l.foldl (fun pool i => { pool.pushFront i with numFree := pool.numFree + 1 }) p).evictedContent =
        p.evictedContent := by
    intro l
    induction l with
    | nil => exact fun p => rfl
    | cons i l ih => exact fun p => ih _
  exact seeded _ _

/-- The name a block carries is the one that goes. -/
theorem evict_fades (inverse : ∀ h, p.hashOf b = some h → p.byHash h = some b) : Fades p (p.evict b) := by
  unfold BlockPool.evict
  cases carries : p.hashOf b with
  | none => exact .refl p
  | some h =>
    refine ⟨fun k x hk => ?_, fun x hx => ?_⟩
    · change Function.update p.byHash h none k = some x at hk
      rw [Function.update_apply] at hk
      split at hk
      · cases hk
      · exact hk
    · change x ∈ (if p.trackEvictions then p.evictedContent ++ [(h, b)] else p.evictedContent) at hx
      split at hx
      · rcases List.mem_append.mp hx with old | new
        · exact .inl old
        · rw [List.mem_singleton.mp new]
          exact .inr (inverse h carries)
      · exact .inl hx

/-- The first free block is handed out. -/
theorem allocate_first (w : Wf p) (e : p.allocate = .ok (q, b)) : Fades p q ∧ p.freeList = b :: q.freeList := by
  obtain ⟨L, r⟩ := w
  rcases allocate_refines r with ⟨refused, -⟩ | ⟨q', L', c, took, ledger, r'⟩
  · rw [refused] at e
    cases e
  · obtain ⟨rfl, rfl⟩ : q' = q ∧ c = b := by simpa [took] using e
    cases free : L.free with
    | nil => simp [Ledger.allocate_nil free] at ledger
    | cons x rest =>
      obtain ⟨M, same, -, -, -, -, left, -⟩ := Ledger.allocate_cons free
      obtain ⟨rfl, rfl⟩ : M = L' ∧ x = c := by simpa [same] using ledger
      refine ⟨?_, by rw [r.freeList, r'.freeList, free, left]⟩
      rw [allocate_eq (by rw [r.numFree, free]; simp) (by rw [r.list.head, free]; rfl)] at took
      obtain ⟨rfl, -⟩ := Prod.mk.inj (Except.ok.inj took)
      have detached : Fades p (p.detach x) := .of_same rfl rfl
      have evicted : Fades (p.detach x) ((p.detach x).evict x) := evict_fades fun h => (r.hashOf x h).mp
      exact (detached.trans evicted).trans (.of_same rfl rfl)

theorem allocateGuarded_first (w : Wf p) (e : p.allocateGuarded = .ok (q, b)) :
    Fades p q ∧ p.freeList = b :: q.freeList := by
  unfold BlockPool.allocateGuarded at e
  split at e
  · exact allocate_first w e
  · cases e

omit [DecidableEq H] in
theorem free_fades (p : BlockPool H) (b : BlockId) : Fades p (p.free b) := by
  unfold BlockPool.free
  simp only
  split <;> exact .of_same rfl rfl

omit [DecidableEq H] in
theorem freeAll_fades (p : BlockPool H) (bs : List BlockId) : Fades p (p.freeAll bs) := by
  unfold BlockPool.freeAll
  induction bs generalizing p with
  | nil => exact .refl p
  | cons b bs ih => exact (free_fades p b).trans (ih _)

omit [DecidableEq H] in
theorem reference_fades (p : BlockPool H) (b : BlockId) : Fades p (p.reference b) := by
  unfold BlockPool.reference
  simp only
  split <;> exact .of_same rfl rfl

omit [DecidableEq H] in
theorem matchBlocks_fades (p : BlockPool H) (hs : List H) : Fades p (p.matchBlocks hs).1 := by
  induction hs generalizing p with
  | nil => exact .refl p
  | cons h hs ih =>
    unfold BlockPool.matchBlocks BlockPool.lookup
    cases p.byHash h with
    | none => exact .refl p
    | some b => exact (reference_fades p b).trans (ih _)

omit [DecidableEq H] in
theorem matchPrefix_fades (p : BlockPool H) (hs : List H) : Fades p (p.matchPrefix hs).1 := by
  have counted : Fades p { p with queriedTokens := p.queriedTokens + hs.length * p.blockSize } := .of_same rfl rfl
  exact (counted.trans (matchBlocks_fades _ hs)).trans (.of_same rfl rfl)

omit [DecidableEq H] in
/-- References taken leave the free list alone. -/
theorem increfAll_freeList (p : BlockPool H) (bs : List BlockId) :
    (bs.foldl BlockPool.incref p).freeList = p.freeList ∧ Fades p (bs.foldl BlockPool.incref p) := by
  induction bs generalizing p with
  | nil => exact ⟨rfl, .refl p⟩
  | cons b bs ih =>
    have first : Fades p (p.incref b) := .of_same rfl rfl
    obtain ⟨free, fades⟩ := ih (p.incref b)
    exact ⟨free, first.trans fades⟩

end Operations

end Vapi.Cache
