import Vapi.Engine.Survivors
import Mathlib.Algebra.BigOperators.Ring.List

/-!
# Log-probabilities of a row

What a client is told of a token: its probability under the model's own
distribution. A row holds a logit for each token; none stands for negative
infinity.
-/

namespace Vapi.Engine

variable {S : Type} [Field S] [LinearOrder S]

/-- The logarithm of a row's sum of exponentials, and its largest entries as log-probabilities. -/
structure RowLogprobs (S : Type) where
  lse : S
  top : List (Nat × Option S)

namespace RowLogprobs

def below : Option S → Option S → Bool
  | _, none => false
  | none, some _ => true
  | some a, some b => a < b

/-- One more token for the `k` largest, largest first. -/
def keep (k : Nat) (top : List (Nat × Option S)) (token : Nat) (l : Option S) : List (Nat × Option S) :=
  if top.length < k then
    (top ++ [(token, l)]).mergeSort fun a b => below b.2 a.2 || (!below a.2 b.2 && a.1 ≤ b.1)
  else
    match top.getLast? with
    | some last =>
      if below last.2 l then
        let larger := top.dropLast.takeWhile fun x => !below x.2 l
        larger ++ (token, l) :: top.dropLast.drop larger.length
      else top
    | none => top

/-- A row of nothing but negative infinities has no sum. -/
def of (exp ln : S → S) (row : List (Option S)) (k : Nat) : RowLogprobs S :=
  let logits := row.filterMap id
  let max := logits.max?.getD 0
  let lse := max + ln (logits.map fun l => exp (l - max)).sum
  let top := row.zipIdx.foldl (fun top x => keep k top (x.2 % 2 ^ 32) x.1) []
  ⟨lse, top.map fun t => (t.1, t.2.map (· - lse))⟩

def logprob (lp : RowLogprobs S) (rawLogit : Option S) : Option S := rawLogit.map (· - lp.lse)

end RowLogprobs

/-- Some logits of a row set to negative infinity. -/
def Masks : List (Option S) → List (Option S) → Prop := List.Forall₂ fun l' l => l' = none ∨ l' = l

variable {row row' : List (Option S)}

omit [Field S] [LinearOrder S] in
theorem masks_mapIdx (f : Nat → Option S → Option S) (keeps : ∀ i l, f i l = none ∨ f i l = l)
    (row : List (Option S)) : Masks (row.mapIdx f) row := by
  refine List.forall₂_iff_get.mpr ⟨List.length_mapIdx, fun i _ _ => ?_⟩
  simpa using keeps i _

/-- The sum of a row's exponentials. -/
def weight (exp : S → S) (row : List (Option S)) : S := ((row.filterMap id).map exp).sum

omit [LinearOrder S] in
theorem weight_cons (exp : S → S) (l : Option S) (row : List (Option S)) :
    weight exp (l :: row) = l.elim 0 exp + weight exp row := by
  cases l <;> simp [weight]

variable [IsStrictOrderedRing S] {exp ln : S → S}

namespace Exponential

variable (e : Exponential exp)

include e

theorem weight_nonneg (row : List (Option S)) : 0 ≤ weight exp row :=
  List.sum_nonneg fun _ mem => by
    obtain ⟨l, -, rfl⟩ := List.mem_map.mp mem
    exact (e.pos l).le

theorem weight_pos {l : S} (mem : some l ∈ row) : 0 < weight exp row := by
  induction row with
  | nil => cases mem
  | cons head row ih =>
    rw [weight_cons]
    rcases List.mem_cons.mp mem with rfl | mem
    · exact add_pos_of_pos_of_nonneg (e.pos l) (e.weight_nonneg row)
    · refine add_pos_of_nonneg_of_pos ?_ (ih mem)
      cases head with
      | none => exact le_rfl
      | some l => exact (e.pos l).le

/-- A logit taken away makes the sum less. -/
theorem weight_masks (masks : Masks row' row) :
    weight exp row' ≤ weight exp row ∧ (weight exp row' = weight exp row → row' = row) := by
  induction masks with
  | nil => exact ⟨le_rfl, fun _ => rfl⟩
  | @cons l' l row' row same masks ih =>
    rw [weight_cons, weight_cons]
    rcases same with rfl | rfl
    · cases l with
      | none => exact ⟨add_le_add le_rfl ih.1, fun eq => by rw [ih.2 (add_left_cancel eq)]⟩
      | some l =>
        have less : Option.elim none 0 exp + weight exp row' < Option.elim (some l) 0 exp + weight exp row :=
          add_lt_add_of_lt_of_le (e.pos l) ih.1
        exact ⟨less.le, fun eq => absurd eq less.ne⟩
    · exact ⟨add_le_add le_rfl ih.1, fun eq => by rw [ih.2 (add_left_cancel eq)]⟩

/-- Whatever the row is shifted by, its sum is that of the exponentials. -/
theorem exp_lse (inverse : ∀ y, 0 < y → exp (ln y) = y) {l : S} (mem : some l ∈ row) (k : Nat) :
    exp (RowLogprobs.of exp ln row k).lse = weight exp row := by
  have shifted : ∀ max : S, weight exp row = exp max * ((row.filterMap id).map fun l => exp (l - max)).sum := by
    intro max
    rw [weight, ← List.sum_map_mul_left]
    congr 1
    exact List.map_congr_left fun l _ => by rw [← e.add, add_sub_cancel]
  have pos := e.weight_pos mem
  generalize is : (row.filterMap id).max?.getD 0 = max
  rw [shifted max] at pos
  change exp (((row.filterMap id).max?.getD 0) +
    ln ((row.filterMap id).map fun l => exp (l - (row.filterMap id).max?.getD 0)).sum) = _
  rw [is, e.add, inverse _ (pos_of_mul_pos_right pos (e.pos max).le), ← shifted max]

/-- A token left in a masked row has the log-probability of the whole row just when the mask took nothing away. -/
theorem logprob_masks (inverse : ∀ y, 0 < y → exp (ln y) = y) (masks : Masks row' row) {i : Nat} {l : S}
    (left : row'[i]? = some (some l)) (k : Nat)
    (same : (RowLogprobs.of exp ln row' k).logprob row'[i]?.join = (RowLogprobs.of exp ln row k).logprob row[i]?.join) :
    row' = row := by
  have whole : row[i]? = some (some l) := by
    obtain ⟨inRow', at_⟩ := List.getElem?_eq_some_iff.mp left
    have inRow : i < row.length := masks.length_eq ▸ inRow'
    rcases (List.forall₂_iff_get.mp masks).2 i inRow' inRow with gone | kept
    · rw [List.get_eq_getElem, at_] at gone
      cases gone
    · rw [List.get_eq_getElem, List.get_eq_getElem, at_] at kept
      rw [List.getElem?_eq_getElem inRow, kept]
  rw [left, whole] at same
  have lse : (RowLogprobs.of exp ln row' k).lse = (RowLogprobs.of exp ln row k).lse :=
    sub_right_injective (Option.some.inj same)
  have weights := e.exp_lse inverse (List.mem_of_getElem? left) k
  rw [lse, e.exp_lse inverse (List.mem_of_getElem? whole) k] at weights
  exact (e.weight_masks masks).2 weights.symm

end Exponential

end Vapi.Engine
