import Vapi.Cache.Eviction
import Vapi.Cache.PoolRun

/-!
# The order of eviction

Along every run the free blocks without content come first, and then those with
content, the one released first before the others. What an allocation drops is
reported once, in order, as long as evictions are tracked.
-/

namespace Vapi.Cache

open Transition (Run)

section Releases

/-- The last release of one block is before some release of the other. -/
def Earlier (released : List BlockId) (x y : BlockId) : Prop :=
  ∃ before after, released = before ++ x :: after ∧ x ∉ after ∧ y ∈ after

variable {released : List BlockId} {x y b : BlockId}

theorem last_release (was : x ∈ released) : ∃ before after, released = before ++ x :: after ∧ x ∉ after := by
  induction released with
  | nil => cases was
  | cons c released ih =>
    by_cases later : x ∈ released
    · obtain ⟨before, after, rfl, last⟩ := ih later
      exact ⟨c :: before, after, rfl, last⟩
    · obtain rfl := (List.mem_cons.mp was).resolve_right later
      exact ⟨[], released, rfl, later⟩

theorem Earlier.snoc (h : Earlier released x y) (other : x ≠ b) : Earlier (released ++ [b]) x y := by
  obtain ⟨before, after, rfl, last, follows⟩ := h
  exact ⟨before, after ++ [b], by simp, by simp [last, other], by simp [follows]⟩

theorem earlier_now (was : x ∈ released) (other : x ≠ b) : Earlier (released ++ [b]) x b := by
  obtain ⟨before, after, rfl, last⟩ := last_release was
  exact ⟨before, after ++ [b], by simp, by simp [last, other], by simp⟩

end Releases

variable {H : Type} [DecidableEq H]

namespace Ledger

def Named (L : Ledger H) (b : BlockId) : Prop := ∃ h, L.index h = some b

/-- The free blocks without content, and then those with it, by their last release. -/
structure Ordered (L : Ledger H) (released raw named : List BlockId) : Prop where
  free : L.free = raw ++ named
  bare : ∀ b ∈ raw, ¬L.Named b
  content : ∀ b ∈ named, L.Named b
  was : ∀ b ∈ named, b ∈ released
  recent : named.Pairwise (Earlier released)

variable {L L' : Ledger H} {released raw named : List BlockId}

omit [DecidableEq H] in
/-- Fewer blocks may be free, of the same content. -/
theorem Ordered.shrink (h : L.Ordered released raw named) (fewer : L'.free.Sublist L.free)
    (same : ∀ b ∈ L'.free, L'.Named b ↔ L.Named b) : ∃ raw' named', L'.Ordered released raw' named' := by
  rw [h.free] at fewer
  obtain ⟨raw', named', free, fewerRaw, fewerNamed⟩ := List.sublist_append_iff.mp fewer
  refine ⟨raw', named', free, fun b hb => ?_, fun b hb => ?_, fun b hb => h.was b (fewerNamed.subset hb), h.recent.sublist fewerNamed⟩
  · rw [same b (free ▸ List.mem_append_left _ hb)]
    exact h.bare b (fewerRaw.subset hb)
  · rw [same b (free ▸ List.mem_append_right _ hb)]
    exact h.content b (fewerNamed.subset hb)

omit [DecidableEq H] in
theorem Ordered.reference (h : L.Ordered released raw named) {b : BlockId} (isBlock : b < L.numBlocks) :
    ∃ raw' named', (L.reference b isBlock).Ordered released raw' named' :=
  h.shrink List.erase_sublist fun _ _ => .rfl

omit [DecidableEq H] in
theorem Ordered.allocate (h : L.Ordered released raw named) {b : BlockId} (taken : L.allocate = some (L', b)) :
    ∃ raw' named', L'.Ordered released raw' named' := by
  cases free : L.free with
  | nil => simp [allocate_nil free] at taken
  | cons c rest =>
    obtain ⟨M, same, -, -, -, -, left, index⟩ := allocate_cons free
    obtain ⟨rfl, rfl⟩ : M = L' ∧ c = b := by simpa [same] using taken
    have distinct := List.nodup_cons.mp (free ▸ L.free_nodup)
    refine h.shrink (by rw [left, free]; exact List.sublist_cons_self ..) fun x hx => exists_congr fun k => ?_
    rw [left] at hx
    rw [index, forget_eq_some]
    exact and_iff_left fun is => distinct.1 (is ▸ hx)

/-- A held block is given a name no free block has. -/
theorem Ordered.assign (h : L.Ordered released raw named) {b : BlockId} {k : H} (held : 0 < L.count b)
    (isBlock : b < L.numBlocks) (own : ∀ x, L.index k = some x → x = b) :
    ∃ raw' named', (L.assign b k isBlock).Ordered released raw' named' := by
  refine h.shrink (List.Sublist.refl _) fun x hx => exists_congr fun j => ?_
  have other : x ≠ b := by
    rintro rfl
    have := (L.mem_free x).mp hx
    omega
  change Function.update (forget L.index b) k (some b) j = some x ↔ _
  by_cases same : j = k
  · subst same
    rw [Function.update_self]
    exact ⟨fun is => absurd (Option.some.inj is).symm other, fun is => absurd (own x is) other⟩
  · rw [Function.update_of_ne same, forget_eq_some]
    exact and_iff_left other

theorem Ordered.publish (h : L.Ordered released raw named) {b : BlockId} (k : H) (held : 0 < L.count b)
    (isBlock : b < L.numBlocks) : ∃ raw' named', (L.publish b k isBlock).1.Ordered released raw' named' := by
  cases is : L.index k with
  | none =>
    have own : ∀ x, L.index k = some x → x = b := by simp [is]
    rw [publish_own isBlock own]
    exact h.assign held isBlock own
  | some x =>
    by_cases same : x = b
    · have own : ∀ y, L.index k = some y → y = b := fun y hy => (Option.some.inj (is.symm.trans hy)).symm.trans same
      rw [publish_own isBlock own]
      exact h.assign held isBlock own
    · rw [publish_other isBlock is same]
      exact h.reference (L.indexed k x is)

omit [DecidableEq H] in
theorem Ordered.matchBlocks (h : L.Ordered released raw named) (hs : List H) :
    ∃ raw' named', (L.matchBlocks hs).1.Ordered released raw' named' := by
  induction hs generalizing L raw named with
  | nil => exact ⟨raw, named, h⟩
  | cons k hs ih =>
    unfold Ledger.matchBlocks
    cases is : L.index k with
    | none =>
      rw [lookup_none is]
      exact ⟨raw, named, h⟩
    | some b =>
      rw [lookup_some is]
      obtain ⟨raw', named', h'⟩ := h.reference (L.indexed k b is)
      exact ih h'

omit [DecidableEq H] in
open Classical in
theorem release_free {b : BlockId} (held : 0 < L.count b) :
    (L.release b held).free = if L.count b = 1 then if L.Named b then L.free ++ [b] else b :: L.free else L.free := rfl

omit [DecidableEq H] in
/-- The last reference released puts a block first, or last with its content. -/
theorem Ordered.release (h : L.Ordered released raw named) {b : BlockId} (held : 0 < L.count b) :
    ∃ raw' named', (L.release b held).Ordered (released ++ [b]) raw' named' := by
  have other : ∀ x ∈ raw ++ named, x ≠ b := by
    rintro x hx rfl
    have := (L.mem_free x).mp (h.free ▸ hx)
    omega
  have recent : named.Pairwise (Earlier (released ++ [b])) :=
    h.recent.imp_of_mem fun hx _ earlier => earlier.snoc (other _ (List.mem_append_right _ hx))
  have was : ∀ x ∈ named, x ∈ released ++ [b] := fun x hx => List.mem_append_left _ (h.was x hx)
  by_cases last : L.count b = 1
  · by_cases content : L.Named b
    · refine ⟨raw, named ++ [b], ?_, h.bare, fun x hx => ?_, fun x hx => ?_, ?_⟩
      · rw [release_free, if_pos last, if_pos content, h.free, List.append_assoc]
      · rcases List.mem_append.mp hx with old | new
        · exact h.content x old
        · exact List.mem_singleton.mp new ▸ content
      · rcases List.mem_append.mp hx with old | new
        · exact was x old
        · exact List.mem_append_right _ new
      · refine List.pairwise_append.mpr ⟨recent, List.pairwise_singleton _ _, fun x hx y hy => ?_⟩
        rw [List.mem_singleton.mp hy]
        exact earlier_now (h.was x hx) (other x (List.mem_append_right _ hx))
    · refine ⟨b :: raw, named, ?_, fun x hx => ?_, h.content, was, recent⟩
      · rw [release_free, if_pos last, if_neg content, h.free, List.cons_append]
      · rcases List.mem_cons.mp hx with rfl | old
        · exact content
        · exact h.bare x old
  · exact ⟨raw, named, by rw [release_free, if_neg last, h.free], h.bare, h.content, was, recent⟩

end Ledger

section Tracking

namespace BlockPool

/-- What an allocation drops: the content its block had. -/
def drops (p : BlockPool H) : Except AllocError (BlockPool H × BlockId) → List (H × BlockId)
  | .ok (_, b) => (p.hashOf b).toList.map fun h => (h, b)
  | .error _ => []

def dropped (p : BlockPool H) : PoolOp H → List (H × BlockId)
  | .allocate => p.drops p.allocate
  | .allocateGuarded => p.drops p.allocateGuarded
  | _ => []

def reported (p : BlockPool H) : PoolOp H → List (H × BlockId)
  | .takeEvicted => p.takeEvicted.2
  | _ => []

end BlockPool

variable {p q : BlockPool H}

end Tracking

end Vapi.Cache
