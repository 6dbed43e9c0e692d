import Vapi.Engine.RowLogprobs
import Mathlib.Order.WithBot
import Mathlib.Data.List.Induction

/-!
# The largest entries of a row

One pass over a row with a buffer of `k` entries leaves the first `k` of the
row's tokens in descending order.
-/

namespace Vapi.Engine

open Ranking

variable {S : Type} [Field S] [LinearOrder S]

namespace RowLogprobs

omit [Field S] in
theorem below_eq (a b : WithBot S) : below a b = decide (a < b) := by
  cases a <;> cases b <;> simp [below]

omit [Field S] in
/-- The sort's comparison is that of the ranking. -/
theorem order_eq (a b : Nat × WithBot S) : (below b.2 a.2 || (!below a.2 b.2 && decide (a.1 ≤ b.1))) = before a b := by
  rw [below_eq, below_eq, before]
  rcases lt_trichotomy a.2 b.2 with lt | same | lt
  · simp [lt, lt.asymm, lt.ne']
  · simp [same]
  · simp [lt]

omit [Field S] in
/-- Negative infinity is the bottom of the order. -/
theorem keep_eq (k : Nat) (top : List (Nat × WithBot S)) (token : Nat) (l : WithBot S) :
    keep k top token l = Ranking.keep k top (token, l) := by
  change (if top.length < k then
      (top ++ [(token, l)]).mergeSort fun a b => below b.2 a.2 || (!below a.2 b.2 && decide (a.1 ≤ b.1))
    else
      match top.getLast? with
      | some last =>
        if below last.2 l then
          let larger := top.dropLast.takeWhile fun x => !below x.2 l
          larger ++ (token, l) :: top.dropLast.drop larger.length
        else top
      | none => top) = _
  have no_less : (fun y : Nat × WithBot S => !below y.2 l) = fun y => decide (l ≤ y.2) := by
    funext y
    rw [below_eq, ← decide_not]
    simp only [not_lt]
  rw [funext₂ order_eq, no_less]
  simp only [below_eq, decide_eq_true_eq, Ranking.keep, rank]
  split
  · rfl
  · cases top.getLast? with
    | none => rfl
    | some last =>
      dsimp only

omit [Field S] [LinearOrder S] in
theorem numbered_snoc {α : Type} (row : List α) (l : α) :
    numbered (row ++ [l]) = numbered row ++ [(row.length, l)] := by
  simp [numbered, List.zipIdx_append]

omit [Field S] in
/-- The buffer after a row. -/
theorem kept (k : Nat) (row : List (WithBot S)) (short : row.length ≤ 2 ^ 32) :
    row.zipIdx.foldl (fun top x => Ranking.keep k top (x.2 % 2 ^ 32, x.1)) [] = (rank (numbered row)).take k := by
  induction row using List.reverseRecOn with
  | nil => rw [(rank_perm (numbered [])).eq_nil, List.take_nil, List.zipIdx_nil, List.foldl_nil]
  | append_singleton row l ih =>
    rw [List.length_append, List.length_singleton] at short
    have late : ∀ y ∈ numbered row, y.1 < row.length := by
      intro y mem
      have id := List.mem_map_of_mem (f := Prod.fst) mem
      rwa [numbered_fst, List.mem_range] at id
    rw [List.zipIdx_append, List.foldl_append, ih (by omega), numbered_snoc, ← keep_rank late, Nat.zero_add,
      List.zipIdx_singleton, List.foldl_cons, List.foldl_nil, Nat.mod_eq_of_lt (by omega)]

/-- Sort a row's tokens by descending logit, those of equal logits by ascending number: a report is the first `k`
of them. -/
theorem top_exact (exp ln : S → S) (row : List (Option S)) (short : row.length ≤ 2 ^ 32) (k : Nat) :
    ∃ sorted : List (Nat × WithBot S), sorted.Perm (numbered row) ∧ sorted.Pairwise Ahead ∧
      (of exp ln row k).top.map Prod.fst = (sorted.take k).map Prod.fst ∧
      (of exp ln row k).top.length = min k row.length := by
  have buffer : row.zipIdx.foldl (fun top x => keep k top (x.2 % 2 ^ 32) x.1) [] =
      (rank (numbered row : List (Nat × WithBot S))).take k :=
    (congrArg (fun step => row.zipIdx.foldl step [])
      (funext₂ fun top (x : Option S × Nat) => keep_eq k top (x.2 % 2 ^ 32) x.1)).trans (kept k row short)
  have ids : (of exp ln row k).top.map Prod.fst =
      ((rank (numbered row : List (Nat × WithBot S))).take k).map Prod.fst := by
    rw [← buffer, of, List.map_map]
    rfl
  refine ⟨rank (numbered row), rank_perm _, rank_ahead (numbered_nodup row), ids, ?_⟩
  have length := congrArg List.length ids
  rw [List.length_map, List.length_map, List.length_take, (rank_perm _).length_eq] at length
  rw [length, ← List.length_range (n := row.length), ← numbered_fst row, List.length_map]
  rfl

theorem top_exact_three :
    ∃ sorted : List (Nat × WithBot ℚ), sorted.Perm [(0, ↑(2 : ℚ)), (1, ⊥), (2, ↑(2 : ℚ))] ∧ sorted.Pairwise Ahead ∧
      (of id id [some (2 : ℚ), none, some 2] 2).top.map Prod.fst = (sorted.take 2).map Prod.fst ∧
      (of id id [some (2 : ℚ), none, some 2] 2).top.length = 2 :=
  top_exact id id [some (2 : ℚ), none, some 2] (by decide) 2

omit [Field S] in
/-- Nothing larger comes after the first. -/
theorem unchanged (first : Nat × Option S) (row : List (Option S × Nat)) (same : ∀ x ∈ row, x.1 = first.2) :
    row.foldl (fun top x => keep 1 top (x.2 % 2 ^ 32) x.1) [first] = [first] := by
  induction row with
  | nil => rfl
  | cons x row ih =>
    have equal : below first.2 x.1 = false := by
      rw [same x List.mem_cons_self]
      cases first.2 <;> simp [below]
    have step : keep 1 [first] (x.2 % 2 ^ 32) x.1 = [first] := by simp [keep, equal]
    rw [List.foldl_cons, step]
    exact ih fun y mem => same y (List.mem_cons_of_mem x mem)

/-- Zeros, and a one at the end. -/
def zeros (n : Nat) : List (Option ℚ) := some 0 :: List.replicate n (some 0) ++ [some 1]

theorem zeros_top (exp ln : ℚ → ℚ) (n : Nat) : (of exp ln (zeros n) 1).top.map Prod.fst = [(n + 1) % 2 ^ 32] := by
  have start : keep 1 [] (0 % 2 ^ 32) (some (0 : ℚ)) = [(0, some 0)] := by decide +kernel
  have ended : ∀ id, keep 1 [(0, some (0 : ℚ))] id (some 1) = [(id, some 1)] := by
    intro id
    simp [keep, below]
  have zero : ∀ x ∈ (List.replicate n (some (0 : ℚ))).zipIdx 1, x.1 = some 0 := by
    intro x mem
    exact List.eq_of_mem_replicate (List.fst_mem_of_mem_zipIdx mem)
  have fold : (zeros n).zipIdx.foldl (fun top x => keep 1 top (x.2 % 2 ^ 32) x.1) [] =
      [((n + 1) % 2 ^ 32, some 1)] := by
    rw [zeros, List.zipIdx_append, List.zipIdx_cons, List.foldl_append, List.foldl_cons, start, unchanged _ _ zero]
    simp [ended]
  rw [of, List.map_map, fold]
  rfl

theorem zeros_last (n : Nat) : (zeros n)[n + 1]? = some (some 1) := by simp [zeros]

/-- Past 2^32 tokens a number starts again from zero. -/
theorem top_wraps : ¬∀ (exp ln : ℚ → ℚ) (row : List (Option ℚ)) (k : Nat),
    ∃ sorted : List (Nat × WithBot ℚ), sorted.Perm (numbered row) ∧ sorted.Pairwise Ahead ∧
      (of exp ln row k).top.map Prod.fst = (sorted.take k).map Prod.fst ∧
      (of exp ln row k).top.length = min k row.length := by
  intro exact_
  obtain ⟨sorted, perm, ordered, ids, -⟩ := exact_ id id (zeros (2 ^ 32 - 1)) 1
  have last : (2 ^ 32, ((1 : ℚ) : WithBot ℚ)) ∈ sorted := perm.mem_iff.mpr (mem_numbered.mpr (zeros_last (2 ^ 32 - 1)))
  rw [zeros_top] at ids
  cases sorted with
  | nil => cases last
  | cons first rest =>
    have id : 0 = first.1 := List.head_eq_of_cons_eq ids
    have at_ := mem_numbered.mp (perm.mem_iff.mp List.mem_cons_self)
    rw [← id] at at_
    have zero : first.2 = ((0 : ℚ) : WithBot ℚ) := (Option.some.inj at_).symm
    rcases List.mem_cons.mp last with same | behind
    · exact absurd (id.trans (congrArg Prod.fst same).symm) (by decide)
    · rcases (List.pairwise_cons.mp ordered).1 _ behind with less | ⟨same, -⟩
      · rw [zero, WithBot.coe_lt_coe] at less
        exact absurd less (by decide)
      · rw [zero, WithBot.coe_inj] at same
        exact absurd same (by decide)

end RowLogprobs

end Vapi.Engine
