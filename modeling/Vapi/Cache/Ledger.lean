import Vapi.Cache.Pool

/-!
# What the pool is for

The abstract pool: how often each block is referenced, the free blocks in the
order they will be handed out, and an injective index from hashes to blocks.
Its invariant is part of the type, so an operation can only be defined
together with the proof that it keeps it.
-/

namespace Vapi.Cache

variable {H : Type} [DecidableEq H]

structure Ledger (H : Type) where
  numBlocks : Nat
  blockSize : Nat
  reserve : Nat
  count : BlockId → Nat
  free : List BlockId
  index : H → Option BlockId
  free_nodup : free.Nodup
  mem_free : ∀ b, b ∈ free ↔ b < numBlocks ∧ count b = 0
  counted : ∀ b, 0 < count b → b < numBlocks
  indexed : ∀ h b, index h = some b → b < numBlocks
  index_inj : ∀ h h' b, index h = some b → index h' = some b → h = h'

namespace Ledger

def initial (numBlocks blockSize reserve : Nat) : Ledger H where
  numBlocks := numBlocks
  blockSize := blockSize
  reserve := min reserve numBlocks
  count := fun _ => 0
  free := List.range numBlocks
  index := fun _ => none
  free_nodup := List.nodup_range
  mem_free := by simp
  counted := by simp
  indexed := by simp
  index_inj := by simp

/-- The index without the entry for `b`. -/
def forget (index : H → Option BlockId) (b : BlockId) : H → Option BlockId :=
  fun h => if index h = some b then none else index h

omit [DecidableEq H] in
theorem forget_eq_some {index : H → Option BlockId} {b x : BlockId} {h : H} :
    forget index b h = some x ↔ index h = some x ∧ x ≠ b := by
  unfold forget
  split
  · rename_i e; simp only [e]; simp [eq_comm]
  · rename_i e
    constructor
    · intro hx; exact ⟨hx, fun e' => e (e' ▸ hx)⟩
    · exact fun hx => hx.1

/-- Hand out the first free block, with one reference and no content. -/
def allocate (L : Ledger H) : Option (Ledger H × BlockId) :=
  match hf : L.free with
  | [] => none
  | b :: rest =>
    have nodup : b ∉ rest ∧ rest.Nodup := List.nodup_cons.mp (hf ▸ L.free_nodup)
    have isFree : b < L.numBlocks ∧ L.count b = 0 := (L.mem_free b).mp (by simp [hf])
    some ({ L with
      count := Function.update L.count b 1
      free := rest
      index := forget L.index b
      free_nodup := nodup.2
      mem_free := by
        intro x
        by_cases hx : x = b
        · subst hx; simp [nodup.1]
        · have := L.mem_free x
          rw [hf, List.mem_cons] at this
          simpa [Function.update_apply, hx] using this
      counted := by
        intro x hx
        by_cases e : x = b
        · exact e ▸ isFree.1
        · exact L.counted x (by simpa [Function.update_apply, e] using hx)
      indexed := fun h x hx => L.indexed h x (forget_eq_some.mp hx).1
      index_inj := fun h h' x hx hx' =>
        L.index_inj h h' x (forget_eq_some.mp hx).1 (forget_eq_some.mp hx').1 }, b)

/-- Take a reference to a block, free or not. -/
def reference (L : Ledger H) (b : BlockId) (hb : b < L.numBlocks) : Ledger H :=
  { L with
    count := Function.update L.count b (L.count b + 1)
    free := L.free.erase b
    free_nodup := L.free_nodup.erase b
    mem_free := by
      intro x
      rw [L.free_nodup.mem_erase_iff, L.mem_free]
      by_cases e : x = b <;> simp [e]
    counted := by
      intro x hx
      by_cases e : x = b
      · exact e ▸ hb
      · exact L.counted x (by simpa [Function.update_apply, e] using hx) }

open Classical in
/-- Drop a reference. The last one makes the block free: reusable last when
the index still names it, first otherwise. -/
noncomputable def release (L : Ledger H) (b : BlockId) (hb : 0 < L.count b) : Ledger H :=
  { L with
    count := Function.update L.count b (L.count b - 1)
    free := if L.count b = 1 then
        if ∃ h, L.index h = some b then L.free ++ [b] else b :: L.free
      else L.free
    free_nodup := by
      have hn : b ∉ L.free := fun h => by have := (L.mem_free b).mp h; omega
      split
      · split
        · exact List.nodup_append.mpr ⟨L.free_nodup, by simp, by
            intro x hx y hy e; simp at hy; exact hn (hy ▸ e ▸ hx)⟩
        · exact List.nodup_cons.mpr ⟨hn, L.free_nodup⟩
      · exact L.free_nodup
    mem_free := by
      intro x
      have lt := L.counted b hb
      by_cases e : x = b
      · subst e
        have hn : x ∉ L.free := fun h => by have := (L.mem_free x).mp h; omega
        by_cases one : L.count x = 1
        · rw [if_pos one]
          split <;> simp [one, lt]
        · simp only [one, if_false, hn, Function.update_self, false_iff]; omega
      · have := L.mem_free x
        split
        · split <;> simpa [Function.update_apply, e] using this
        · simpa [Function.update_apply, e] using this
    counted := by
      intro x hx
      by_cases e : x = b
      · exact e ▸ L.counted b hb
      · exact L.counted x (by simpa [Function.update_apply, e] using hx) }

/-- Let `h` name block `b`, which gives up the name it had. -/
def assign (L : Ledger H) (b : BlockId) (h : H) (hb : b < L.numBlocks) : Ledger H :=
  { L with
    index := Function.update (forget L.index b) h (some b)
    indexed := by
      intro k x hx
      by_cases e : k = h
      · subst e; simp at hx; exact hx ▸ hb
      · rw [Function.update_of_ne e, forget_eq_some] at hx
        exact L.indexed k x hx.1
    index_inj := by
      intro k k' x hx hx'
      by_cases e : k = h <;> by_cases e' : k' = h
      · rw [e, e']
      · subst e
        rw [Function.update_of_ne e', forget_eq_some] at hx'
        simp at hx; exact absurd hx.symm hx'.2
      · subst e'
        rw [Function.update_of_ne e, forget_eq_some] at hx
        simp at hx'; exact absurd hx'.symm hx.2
      · rw [Function.update_of_ne e, forget_eq_some] at hx
        rw [Function.update_of_ne e', forget_eq_some] at hx'
        exact L.index_inj k k' x hx.1 hx'.1 }

/-- The canonical block for a content: the one the index names already, which
is referenced for the caller, or else the caller's own. -/
def publish (L : Ledger H) (b : BlockId) (h : H) (hb : b < L.numBlocks) : Ledger H × BlockId :=
  match e : L.index h with
  | some b' => if b' ≠ b then (L.reference b' (L.indexed h b' e), b') else (L.assign b h hb, b)
  | none => (L.assign b h hb, b)

def lookup (L : Ledger H) (h : H) : Option (Ledger H × BlockId) :=
  match e : L.index h with
  | some b => some (L.reference b (L.indexed h b e), b)
  | none => none

omit [DecidableEq H] in
theorem allocate_nil {L : Ledger H} (hf : L.free = []) : L.allocate = none := by
  unfold allocate
  split
  · rfl
  · rename_i h; simp [hf] at h

omit [DecidableEq H] in
theorem allocate_cons {L : Ledger H} {b : BlockId} {rest : List BlockId} (hf : L.free = b :: rest) :
    ∃ L', L.allocate = some (L', b) ∧ L'.numBlocks = L.numBlocks ∧
      L'.blockSize = L.blockSize ∧ L'.reserve = L.reserve ∧
      L'.count = Function.update L.count b 1 ∧ L'.free = rest ∧ L'.index = forget L.index b := by
  unfold allocate
  split
  · rename_i h; simp [hf] at h
  · rename_i c cs h
    obtain ⟨rfl, rfl⟩ : b = c ∧ rest = cs := by simpa [hf] using h
    exact ⟨_, rfl, rfl, rfl, rfl, rfl, rfl, rfl⟩

omit [DecidableEq H] in
theorem lookup_none {L : Ledger H} {h : H} (e : L.index h = none) : L.lookup h = none := by
  unfold lookup
  split
  · rename_i e'; simp [e] at e'
  · rfl

omit [DecidableEq H] in
theorem lookup_some {L : Ledger H} {h : H} {b : BlockId} (e : L.index h = some b) :
    L.lookup h = some (L.reference b (L.indexed h b e), b) := by
  unfold lookup
  split
  · rename_i b' e'
    obtain rfl : b = b' := Option.some.inj (e.symm.trans e')
    rfl
  · rename_i e'; simp [e] at e'

theorem publish_other {L : Ledger H} {b x : BlockId} {h : H} (hb : b < L.numBlocks)
    (e : L.index h = some x) (ne : x ≠ b) :
    L.publish b h hb = (L.reference x (L.indexed h x e), x) := by
  unfold publish
  split
  · rename_i x' e'
    obtain rfl : x = x' := Option.some.inj (e.symm.trans e')
    rw [if_pos ne]
  · rename_i e'; simp [e] at e'

theorem publish_own {L : Ledger H} {b : BlockId} {h : H} (hb : b < L.numBlocks)
    (own : ∀ x, L.index h = some x → x = b) : L.publish b h hb = (L.assign b h hb, b) := by
  unfold publish
  split
  · rename_i x e
    rw [if_neg (not_not.mpr (own x e))]
  · rfl

def matchBlocks (L : Ledger H) : List H → Ledger H × List BlockId
  | [] => (L, [])
  | h :: hs =>
    match L.lookup h with
    | some (L, b) => ((L.matchBlocks hs).1, b :: (L.matchBlocks hs).2)
    | none => (L, [])

end Ledger

end Vapi.Cache
