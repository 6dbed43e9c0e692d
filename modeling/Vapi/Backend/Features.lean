import Vapi.Backend.Laya
import Mathlib.Algebra.Order.Field.Basic
import Mathlib.Algebra.Order.BigOperators.Group.List
import Mathlib.Data.List.Sort

/-!
# The features of an answer

The act head's features are made over as many slots as the widest row of the
batch has markers; the slots a row does not fill leave them alone.
-/

namespace Vapi.Backend

variable {S : Type} [Field S] [LinearOrder S] [IsStrictOrderedRing S] (m : Scalars S)

/-- The weights of the markers there are. -/
def weigh (logits : List S) : List S :=
  let p := logits.map fun x => m.exp (x - logits.max?.getD 0)
  p.map (· / p.sum)

/-- Absent markers weigh nothing, and change no other weight. -/
theorem calibrated_absent {logits : List S} (some_ : logits ≠ []) (absent : Nat) :
    calibratedProbabilities m (logits.map some ++ List.replicate absent none) 1 =
      weigh m logits ++ List.replicate absent 0 := by
  have one : (1 : S) ≠ 0 := one_ne_zero
  have scaled : (logits.map some ++ List.replicate absent none).map (Option.map (· / (1 : S))) =
      logits.map some ++ List.replicate absent none := by simp
  have present : (logits.map some ++ List.replicate absent none).filterMap id = logits := by
    simp [List.filterMap_append, List.filterMap_map]
  unfold calibratedProbabilities
  simp only [zero_lt_one, ↓reduceIte, scaled, present]
  have weights : (logits.map some ++ List.replicate absent none).map
        (fun x : Option S => x.elim 0 fun x => m.exp (x - logits.max?.getD 0)) =
      (logits.map fun x => m.exp (x - logits.max?.getD 0)) ++ List.replicate absent 0 := by
    simp [Function.comp_def]
  have positive : 0 < (logits.map fun x => m.exp (x - logits.max?.getD 0)).sum := by
    refine List.sum_pos _ (fun w mem => ?_) (by simpa using some_)
    obtain ⟨x, -, rfl⟩ := List.mem_map.mp mem
    exact m.exp_pos _
  rw [weights, if_neg (by simp [some_]), List.sum_append, List.sum_replicate, nsmul_zero, add_zero, if_pos positive,
    List.map_append, List.map_replicate, zero_div, weigh]

theorem weigh_nonneg {logits : List S} {w : S} (mem : w ∈ weigh m logits) : 0 ≤ w := by
  obtain ⟨v, hv, rfl⟩ := List.mem_map.mp mem
  obtain ⟨x, -, rfl⟩ := List.mem_map.mp hv
  refine div_nonneg (m.exp_pos _).le (List.sum_nonneg fun v hv => ?_)
  obtain ⟨y, -, rfl⟩ := List.mem_map.mp hv
  exact (m.exp_pos _).le

omit [IsStrictOrderedRing S] in
/-- Weights that are nothing sort last. -/
theorem sort_absent {p : List S} (nonneg : ∀ w ∈ p, 0 ≤ w) (absent : Nat) :
    (p ++ List.replicate absent 0).mergeSort (fun a b => b ≤ a) =
      p.mergeSort (fun a b => b ≤ a) ++ List.replicate absent 0 := by
  have sorted : ∀ l : List S, (l.mergeSort fun a b => b ≤ a).Pairwise fun a b => decide (b ≤ a) = true :=
    List.pairwise_mergeSort (fun a b c ab bc => by simp only [decide_eq_true_eq] at *; exact bc.trans ab)
      (fun a b => by simpa using le_total b a)
  refine @List.Perm.eq_of_pairwise S (fun a b => decide (b ≤ a) = true) _ _ ?_ (sorted _) ?_ ?_
  · intro a b _ _ ab ba
    simp only [decide_eq_true_eq] at ab ba
    exact ba.antisymm ab
  · refine List.pairwise_append.mpr ⟨sorted p, List.pairwise_replicate.mpr (.inr (by simp)), fun a ha b hb => ?_⟩
    rw [List.eq_of_mem_replicate hb, decide_eq_true_eq]
    exact nonneg a ((List.mergeSort_perm p _).mem_iff.mp ha)
  · exact (List.mergeSort_perm _ _).trans ((List.mergeSort_perm p _).symm.append_right _)

/-- The features of a row are those of the markers it has. -/
theorem features_absent {row : List S} {positions : List Nat} {width : Nat} (two : 2 ≤ positions.length)
    (wide : positions.length ≤ width) (scored : row.length = width) :
    Laya.features m row positions width = Laya.features m (row.take positions.length) positions positions.length := by
  have masked : ∀ {row : List S} {width : Nat}, positions.length ≤ width → row.length = width →
      ((List.range width).map fun i => if i < positions.length then row[i]? else none) =
        (row.take positions.length).map some ++ List.replicate (width - positions.length) none := by
    intro row width wide scored
    refine List.ext_getElem? fun i => ?_
    by_cases here : i < positions.length
    · have inside : i < width := by omega
      have filled : i < row.length := by omega
      simp [here, inside, filled, List.getElem?_append_left]
    · have taken : ((row.take positions.length).map some).length = positions.length := by
        rw [List.length_map, List.length_take]
        omega
      rw [List.getElem?_append_right (by omega), List.getElem?_map, List.getElem?_replicate, taken]
      by_cases inside : i < width
      · simp [inside, here, show i - positions.length < width - positions.length by omega]
      · simp [inside, show ¬i - positions.length < width - positions.length by omega]
  have some_ : row.take positions.length ≠ [] := by
    refine List.ne_nil_of_length_pos ?_
    rw [List.length_take]
    omega
  have fewer : (row.take positions.length).length = positions.length := by
    rw [List.length_take]
    omega
  have long : 2 ≤ ((weigh m (row.take positions.length)).mergeSort fun a b => b ≤ a).length := by
    rw [List.length_mergeSort, weigh, List.length_map, List.length_map, fewer]
    exact two
  unfold Laya.features
  rw [masked wide scored, masked le_rfl fewer, List.take_take, Nat.min_self]
  have silent : ∀ k : Nat, ((weigh m (row.take positions.length) ++ List.replicate k 0).map fun x =>
      x * m.ln (max x (1 / 10 ^ 9))).sum = ((weigh m (row.take positions.length)).map fun x =>
        x * m.ln (max x (1 / 10 ^ 9))).sum := by
    intro k
    rw [List.map_append, List.sum_append, List.map_replicate, zero_mul, List.sum_replicate, nsmul_zero, add_zero]
  have filled : (weigh m (row.take positions.length)).mergeSort (fun a b => b ≤ a) ≠ [] :=
    List.ne_nil_of_length_pos (by omega)
  have sorted := fun k => sort_absent (fun w => @weigh_nonneg _ _ _ _ m (row.take positions.length) w) k
  have second : ∀ k, ((weigh m (row.take positions.length)).mergeSort (fun a b => b ≤ a) ++
      List.replicate k (0 : S))[1]? = ((weigh m (row.take positions.length)).mergeSort fun a b => b ≤ a)[1]? :=
    fun k => List.getElem?_append_left (by omega)
  simp only [calibrated_absent m some_, silent, sorted, List.head?_append_of_ne_nil _ filled, second]

end Vapi.Backend
