import Mathlib.Data.List.Sort
import Mathlib.Data.List.Nodup
import Mathlib.Data.List.TakeWhile
import Mathlib.Order.Defs.LinearOrder

/-!
# Ranked lists

Numbered values, the largest first and equal ones by number: what a ranked
list is, and what is left of one cut short.
-/

namespace Ranking

section Cut

variable {ι : Type} {ahead : ι → ι → Prop} {k : Option Nat} {p q e : ι → Bool} {xs : List ι}

/-- The first `k`, as far as they pass. -/
def cut (k : Option Nat) (q : ι → Bool) (xs : List ι) : List ι := (k.elim xs xs.take).takeWhile q

theorem cut_sublist (k : Option Nat) (q : ι → Bool) (xs : List ι) : (cut k q xs).Sublist xs := by
  cases k with
  | none => exact List.takeWhile_sublist q
  | some k => exact (List.takeWhile_sublist q).trans (List.take_sublist k xs)

theorem head_cut {x : ι} (passes : q x) (some_ : ∀ n ∈ k, 0 < n) : x ∈ cut k q (x :: xs) := by
  have first : ∃ ys, k.elim (x :: xs) (x :: xs).take = x :: ys := by
    cases k with
    | none => exact ⟨xs, rfl⟩
    | some k =>
      obtain ⟨n, rfl⟩ := Nat.exists_eq_succ_of_ne_zero (some_ k rfl).ne'
      exact ⟨xs.take n, rfl⟩
  obtain ⟨ys, is⟩ := first
  rw [cut, is, List.takeWhile_cons_of_pos passes]
  exact List.mem_cons_self

theorem cut_none_eq (q : ι → Bool) {n : Nat} (long : xs.length ≤ n) : cut none q xs = cut (some n) q xs := by
  rw [cut, cut, Option.elim_some, List.take_of_length_le long, Option.elim_none]

/-- Where what comes earlier passes sooner, a filter only cuts. -/
theorem filter_eq_takeWhile (ranked : xs.Pairwise ahead) (sooner : ∀ x y, ahead x y → q y → q x) :
    xs.filter q = xs.takeWhile q := by
  induction xs with
  | nil => rfl
  | cons x xs ih =>
    obtain ⟨first, rest⟩ := List.pairwise_cons.mp ranked
    by_cases passes : q x
    · rw [List.filter_cons_of_pos passes, List.takeWhile_cons_of_pos passes, ih rest]
    · rw [List.takeWhile_cons_of_neg passes, List.filter_eq_nil_iff]
      intro y hy
      rcases List.mem_cons.mp hy with rfl | hy
      · exact passes
      · exact fun ok => passes (sooner x y (first y hy) ok)

theorem cut_filter_sooner (ranked : xs.Pairwise ahead) (sooner : ∀ x y, ahead x y → q y → q x) :
    (cut k p xs).filter q = cut k (fun x => q x && p x) xs := by
  rw [filter_eq_takeWhile (ranked.sublist (cut_sublist k p xs)) sooner, cut, cut, List.takeWhile_takeWhile]
  simp only [Bool.decide_and, Bool.decide_coe]

/-- Cutting first and filtering the ranked list first are the same. -/
theorem cut_sooner (ranked : xs.Pairwise ahead) (sooner : ∀ x y, ahead x y → q y → q x) :
    cut k p (xs.filter q) = cut k (fun x => q x && p x) xs := by
  rw [filter_eq_takeWhile ranked sooner]
  have within : ∀ n, (xs.takeWhile q).take n = (xs.take n).takeWhile q := by
    intro n
    induction xs generalizing n with
    | nil => simp
    | cons x xs ih =>
      cases n with
      | zero => simp
      | succ n =>
        by_cases passes : q x
        · simp [passes, ih (List.pairwise_cons.mp ranked).2]
        · simp [passes]
  cases k with
  | none =>
    simp only [cut, Option.elim_none, List.takeWhile_takeWhile, Bool.decide_and, Bool.decide_coe, Bool.and_comm]
  | some k =>
    simp only [cut, Option.elim_some, within, List.takeWhile_takeWhile, Bool.decide_and, Bool.decide_coe, Bool.and_comm]

/-- The cut of some of a ranked list is the cut of all of it exactly when that is among them. -/
theorem cut_filter_iff (ranked : xs.Pairwise ahead) (sooner : ∀ x y, ahead x y → q y → q x) :
    cut k q (xs.filter e) = cut k q xs ↔ ∀ x ∈ cut k q xs, e x := by
  constructor
  · intro same x hx
    exact List.of_mem_filter ((cut_sublist k q _).subset (same ▸ hx))
  intro among
  have step : ∀ n, (∀ x ∈ cut (some n) q xs, e x) → cut (some n) q (xs.filter e) = cut (some n) q xs := by
    intro n
    clear among
    induction xs generalizing n with
    | nil => exact fun _ => rfl
    | cons x xs ih =>
      obtain ⟨first, rest⟩ := List.pairwise_cons.mp ranked
      intro among
      cases n with
      | zero => simp [cut]
      | succ n =>
        by_cases passes : q x
        · have kept : e x := among x (by simp [cut, passes])
          have more := ih rest n fun y hy => among y (by
            simp only [cut, Option.elim_some] at hy ⊢
            simp [passes, hy])
          simp only [cut, Option.elim_some] at more ⊢
          simp [kept, passes, more]
        · -- nothing behind `x` passes either
          have ended : cut (some (n + 1)) q ((x :: xs).filter e) = [] := by
            cases behind : cut (some (n + 1)) q ((x :: xs).filter e) with
            | nil => rfl
            | cons y ys =>
              have mem : y ∈ cut (some (n + 1)) q ((x :: xs).filter e) := behind ▸ List.mem_cons_self
              have ok : q y := List.mem_takeWhile_imp mem
              rcases List.mem_cons.mp (List.mem_of_mem_filter ((cut_sublist _ q _).subset mem)) with rfl | later
              · exact absurd ok passes
              · exact absurd (sooner x y (first y later) ok) passes
          rw [ended]
          simp [cut, passes]
  cases k with
  | some k => exact step k among
  | none =>
    have short := List.length_filter_le e xs
    rw [cut_none_eq q le_rfl] at among
    rw [cut_none_eq q short, cut_none_eq q (le_refl xs.length)]
    exact step _ among

variable [DecidableRel ahead]

/-- What is left is what passes and has fewer than `k` ahead of it. -/
theorem mem_cut (ranked : xs.Pairwise ahead) (sooner : ∀ x y, ahead x y → q y → q x) (unlike : ∀ x, ¬ahead x x)
    (one_way : ∀ x y, ahead x y → ¬ahead y x) {x : ι} : x ∈ cut k q xs ↔
      x ∈ xs ∧ q x ∧ ∀ n, k = some n → (xs.filter fun y => ahead y x).length < n := by
  have step : ∀ n, x ∈ cut (some n) q xs ↔ x ∈ xs ∧ q x ∧ (xs.filter fun y => ahead y x).length < n := by
    intro n
    induction xs generalizing n with
    | nil => simp [cut]
    | cons y ys ih =>
      obtain ⟨first, rest⟩ := List.pairwise_cons.mp ranked
      cases n with
      | zero => simp [cut]
      | succ n =>
        have more : x ∈ cut (some (n + 1)) q (y :: ys) ↔ q y ∧ (x = y ∨ x ∈ cut (some n) q ys) := by
          by_cases passes : q y <;> simp [cut, passes]
        rw [more, ih rest n]
        by_cases same : x = y
        · subst same
          have none_ : (ys.filter fun z => ahead z x) = [] :=
            List.filter_eq_nil_iff.mpr fun z hz => by simpa using one_way x z (first z hz)
          simp [unlike x, none_]
        · by_cases mem : x ∈ ys
          · have front : ahead y x := first x mem
            simp only [same, false_or, mem, true_and, List.mem_cons, or_true, front, decide_true,
              List.filter_cons_of_pos, List.length_cons, Nat.add_lt_add_iff_right]
            exact ⟨fun ok => ok.2, fun ok => ⟨sooner y x front ok.1, ok⟩⟩
          · simp [same, mem]
  cases k with
  | some k => simp [step]
  | none =>
    rw [cut_none_eq q le_rfl, step]
    constructor
    · exact fun ok => ⟨ok.1, ok.2.1, nofun⟩
    · rintro ⟨mem, ok, -⟩
      refine ⟨mem, ok, List.length_filter_lt_length_iff_exists.mpr ⟨x, mem, ?_⟩⟩
      simpa using unlike x

end Cut

variable {α β : Type} [LinearOrder α] [LinearOrder β] {xs ys : List (Nat × α)}

/-- The larger first, and of equal ones the lower number. -/
def Ahead (x y : Nat × α) : Prop := y.2 < x.2 ∨ y.2 = x.2 ∧ x.1 < y.1

instance : DecidableRel (Ahead : Nat × α → Nat × α → Prop) := fun _ _ => inferInstanceAs (Decidable (_ ∨ _))

theorem Ahead.irrefl (x : Nat × α) : ¬Ahead x x := by simp [Ahead]

theorem Ahead.trans {x y z : Nat × α} (xy : Ahead x y) (yz : Ahead y z) : Ahead x z := by
  rcases xy with lt | ⟨same, lt⟩ <;> rcases yz with lt' | ⟨same', lt'⟩
  · exact .inl (lt'.trans lt)
  · exact .inl (same' ▸ lt)
  · exact .inl (same ▸ lt')
  · exact .inr ⟨same'.trans same, lt.trans lt'⟩

theorem Ahead.asymm {x y : Nat × α} (xy : Ahead x y) : ¬Ahead y x := fun yx => Ahead.irrefl x (xy.trans yx)

theorem Ahead.le {x y : Nat × α} (xy : Ahead x y) : y.2 ≤ x.2 := by
  rcases xy with lt | ⟨same, -⟩
  · exact lt.le
  · exact same.le

theorem Ahead.total {x y : Nat × α} (other : x.1 ≠ y.1) : Ahead x y ∨ Ahead y x := by
  rcases lt_trichotomy x.2 y.2 with lt | same | lt
  · exact .inr (.inl lt)
  · rcases Nat.lt_or_gt_of_ne other with lt | lt
    · exact .inl (.inr ⟨same.symm, lt⟩)
    · exact .inr (.inr ⟨same, lt⟩)
  · exact .inl (.inl lt)

/-- The order of a sort. -/
def before (x y : Nat × α) : Bool := y.2 < x.2 || (y.2 = x.2 && x.1 ≤ y.1)

def rank (xs : List (Nat × α)) : List (Nat × α) := xs.mergeSort before

theorem before_iff {x y : Nat × α} : before x y ↔ Ahead x y ∨ x = y := by
  simp only [before, Bool.or_eq_true, Bool.and_eq_true, decide_eq_true_eq, Ahead, Prod.ext_iff]
  constructor
  · rintro (lt | ⟨same, le⟩)
    · exact .inl (.inl lt)
    · rcases Nat.lt_or_eq_of_le le with lt | eq
      · exact .inl (.inr ⟨same, lt⟩)
      · exact .inr ⟨eq, same.symm⟩
  · rintro ((lt | ⟨same, lt⟩) | ⟨eq, same⟩)
    · exact .inl lt
    · exact .inr ⟨same, lt.le⟩
    · exact .inr ⟨same.symm, eq.le⟩

theorem rank_perm (xs : List (Nat × α)) : (rank xs).Perm xs := List.mergeSort_perm xs before

theorem rank_pairwise (xs : List (Nat × α)) : (rank xs).Pairwise fun x y => before x y := by
  refine List.pairwise_mergeSort (fun x y z xy yz => ?_) (fun x y => ?_) xs
  · rw [before_iff] at *
    rcases xy with xy | rfl
    · rcases yz with yz | rfl
      · exact .inl (xy.trans yz)
      · exact .inl xy
    · exact yz
  · rw [Bool.or_eq_true, before_iff, before_iff]
    by_cases other : x.1 = y.1
    · rcases lt_trichotomy x.2 y.2 with lt | same | lt
      · exact .inr (.inl (.inl lt))
      · exact .inl (.inr (Prod.ext other same))
      · exact .inl (.inl (.inl lt))
    · rcases Ahead.total other with ahead | ahead
      · exact .inl (.inl ahead)
      · exact .inr (.inl ahead)

/-- There is one way to rank. -/
theorem rank_unique (perm : ys.Perm xs) (ranked : ys.Pairwise fun x y => before x y) : rank xs = ys := by
  refine @List.Perm.eq_of_pairwise _ (fun x y => before x y = true) _ _ ?_ (rank_pairwise xs) ranked
    ((rank_perm xs).trans perm.symm)
  intro x y _ _ xy yx
  rw [before_iff] at xy yx
  rcases xy with xy | rfl
  · rcases yx with yx | rfl
    · exact absurd yx xy.asymm
    · rfl
  · rfl

theorem rank_congr (perm : xs.Perm ys) : rank xs = rank ys :=
  rank_unique ((rank_perm ys).trans perm.symm) (rank_pairwise ys)

theorem rank_filter (q : Nat × α → Bool) (xs : List (Nat × α)) : rank (xs.filter q) = (rank xs).filter q :=
  rank_unique ((rank_perm xs).filter q) ((rank_pairwise xs).sublist List.filter_sublist)

/-- A number past all the others goes behind what is no smaller. -/
theorem rank_snoc {x : Nat × α} (late : ∀ y ∈ xs, y.1 < x.1) :
    rank (xs ++ [x]) = (rank xs).takeWhile (x.2 ≤ ·.2) ++ x :: (rank xs).dropWhile (x.2 ≤ ·.2) := by
  have ranked := rank_pairwise xs
  have whole := List.takeWhile_append_dropWhile (p := fun y : Nat × α => x.2 ≤ y.2) (l := rank xs)
  refine rank_unique ?_ ?_
  · refine List.perm_middle.trans (.trans (.cons x ?_) (List.perm_append_singleton x xs).symm)
    rw [whole]
    exact rank_perm xs
  · rw [← whole, List.pairwise_append] at ranked
    obtain ⟨larger, smaller, apart⟩ := ranked
    have least : ∀ z ∈ (rank xs).dropWhile (x.2 ≤ ·.2), z.2 < x.2 := by
      intro z mem
      cases is : (rank xs).dropWhile (x.2 ≤ ·.2) with
      | nil =>
        rw [is] at mem
        cases mem
      | cons y rest =>
        have fails := List.head?_dropWhile_not (fun y : Nat × α => decide (x.2 ≤ y.2)) (rank xs)
        simp only [is, List.head?_cons, decide_eq_false_iff_not, not_le] at fails
        rw [is] at mem smaller
        rcases List.mem_cons.mp mem with rfl | mem
        · exact fails
        · rcases before_iff.mp ((List.pairwise_cons.mp smaller).1 z mem) with ahead | rfl
          · exact ahead.le.trans_lt fails
          · exact fails
    refine List.pairwise_append.mpr ⟨larger, List.pairwise_cons.mpr ⟨fun z mem => ?_, smaller⟩, fun y hy z hz => ?_⟩
    · exact before_iff.mpr (.inl (.inl (least z mem)))
    · rcases List.mem_cons.mp hz with rfl | hz
      · have no_less : z.2 ≤ y.2 := by simpa using List.mem_takeWhile_imp hy
        have earlier := late y ((rank_perm xs).mem_iff.mp (List.takeWhile_subset _ hy))
        rcases no_less.lt_or_eq with lt | same
        · exact before_iff.mpr (.inl (.inl lt))
        · exact before_iff.mpr (.inl (.inr ⟨same, earlier⟩))
      · exact apart y hy z hz

/-- A larger number for a larger one changes no rank. -/
theorem rank_map {f : α → β} (mono : StrictMono f) (xs : List (Nat × α)) :
    rank (xs.map fun x => (x.1, f x.2)) = (rank xs).map fun x => (x.1, f x.2) := by
  refine rank_unique ((rank_perm xs).map _) (List.pairwise_map.mpr ?_)
  refine (rank_pairwise xs).imp fun {x y} xy => ?_
  simpa [before, mono.lt_iff_lt, mono.injective.eq_iff] using xy

theorem rank_ahead (numbered : (xs.map Prod.fst).Nodup) : (rank xs).Pairwise Ahead := by
  have other : (rank xs).Pairwise fun x y => x.1 ≠ y.1 :=
    List.pairwise_map.mp (((rank_perm xs).map Prod.fst).nodup_iff.mpr numbered)
  refine ((rank_pairwise xs).and other).imp fun {x y} both => ?_
  rcases before_iff.mp both.1 with ahead | same
  · exact ahead
  · exact absurd (congrArg Prod.fst same) both.2

/-- A stable sort of the numbers by what each stands for ranks them. -/
theorem sort_range {f : Nat → α} (n : Nat) : ((List.range n).mergeSort fun i j => f j ≤ f i).map (fun i => (i, f i)) =
    rank ((List.range n).map fun i => (i, f i)) := by
  have numbered : (List.range n).zipIdx = (List.range n).map fun i => (i, i) := by
    refine List.ext_getElem (by simp) fun i _ _ => ?_
    simp
  have ordered : ∀ i j, before (i, f i) (j, f j) = List.zipIdxLE (fun i j => decide (f j ≤ f i)) (i, i) (j, j) := by
    intro i j
    simp only [before, List.zipIdxLE, decide_eq_true_eq]
    rcases lt_trichotomy (f j) (f i) with lt | same | lt
    · simp [lt, lt.le, lt.not_ge]
    · simp [same]
    · simp [lt.not_ge, lt.not_gt, lt.ne']
  rw [← List.mergeSort_zipIdx, numbered, ← List.map_mergeSort (fun i _ j _ => ordered i j), List.map_map,
    List.map_map, rank, ← List.map_mergeSort (f := fun i => (i, f i)) fun i _ j _ => rfl]
  rfl

/-- So that each has those ahead of it before it. -/
theorem sort_range_ahead {f : Nat → α} (n : Nat) :
    ((List.range n).mergeSort fun i j => f j ≤ f i).Pairwise fun i j => Ahead (i, f i) (j, f j) := by
  have numbered : (((List.range n).map fun i => (i, f i)).map Prod.fst).Nodup := by
    rw [List.map_map]
    exact (List.map_id _).symm ▸ List.nodup_range
  have ranked := rank_ahead numbered
  rw [← sort_range, List.pairwise_map] at ranked
  exact ranked

/-- The `k` first, kept in one pass: room is filled in order, and then only what is larger than the last is let in. -/
def keep (k : Nat) (top : List (Nat × α)) (x : Nat × α) : List (Nat × α) :=
  if top.length < k then rank (top ++ [x])
  else
    match top.getLast? with
    | some last =>
      if last.2 < x.2 then
        let larger := top.dropLast.takeWhile fun y => x.2 ≤ y.2
        larger ++ x :: top.dropLast.drop larger.length
      else top
    | none => top

theorem keep_rank {k : Nat} {x : Nat × α} (late : ∀ y ∈ xs, y.1 < x.1) :
    keep k ((rank xs).take k) x = (rank (xs ++ [x])).take k := by
  have length := (rank_perm xs).length_eq
  unfold keep
  split
  · rename_i short
    rw [List.length_take] at short
    have fits : (rank (xs ++ [x])).length ≤ k := by
      rw [(rank_perm _).length_eq, List.length_append, List.length_singleton]
      omega
    rw [List.take_of_length_le (by omega : (rank xs).length ≤ k), List.take_of_length_le fits]
    exact rank_congr ((rank_perm xs).append_right _)
  · rename_i full
    rw [List.length_take, not_lt] at full
    have sorted := rank_pairwise xs
    rw [rank_snoc late]
    have whole := List.takeWhile_append_dropWhile (p := fun y : Nat × α => x.2 ≤ y.2) (l := rank xs)
    generalize rank xs = ranked at *
    cases k with
    | zero => rfl
    | succ k =>
      have long : k < ranked.length := by omega
      rw [List.take_add_one, List.getElem?_eq_getElem long, Option.toList_some, List.getLast?_concat,
        List.dropLast_concat]
      dsimp only
      split
      · rename_i larger
        have front : (ranked.takeWhile fun y => x.2 ≤ y.2).length ≤ k := by
          by_contra past
          rw [not_le] at past
          have passes := List.getElem_mem past
          rw [List.getElem_append_left' past (ranked.dropWhile fun y => x.2 ≤ y.2), List.getElem_of_eq whole] at passes
          exact absurd larger (not_lt.mpr (by simpa using List.mem_takeWhile_imp passes))
        have back : ranked.drop (ranked.takeWhile fun y => x.2 ≤ y.2).length = ranked.dropWhile fun y => x.2 ≤ y.2 :=
          (congrArg (List.drop _) whole.symm).trans List.drop_left
        rw [← List.take_takeWhile, List.take_of_length_le front, List.drop_take, back, List.take_append,
          List.take_of_length_le (Nat.le_succ_of_le front), Nat.succ_sub front, List.take_succ_cons]
      · rename_i smaller
        have pass : ∀ y ∈ ranked.take (k + 1), decide (x.2 ≤ y.2) = true := by
          intro y mem
          have last : x.2 ≤ ranked[k].2 := not_lt.mp smaller
          obtain ⟨i, inside, rfl⟩ := List.mem_take_iff_getElem.mp mem
          have near : i ≤ k := by omega
          rcases near.lt_or_eq with lt | rfl
          · have ordered := List.pairwise_iff_getElem.mp sorted i k (by omega) long lt
            rcases before_iff.mp ordered with ahead | same
            · simpa using last.trans ahead.le
            · simpa [same] using last
          · simpa using last
        have front : ranked.take (k + 1) <+: ranked.takeWhile fun y => x.2 ≤ y.2 := by
          conv_rhs => rw [← List.take_append_drop (k + 1) ranked, List.takeWhile_append_of_pos pass]
          exact List.prefix_append _ _
        have enough : k + 1 ≤ (ranked.takeWhile fun y => x.2 ≤ y.2).length := by
          have := front.length_le
          rwa [List.length_take, Nat.min_eq_left (by omega)] at this
        rw [List.take_append_of_le_length enough, ← List.take_append_of_le_length enough, whole, List.take_add_one,
          List.getElem?_eq_getElem long, Option.toList_some]

/-- The one ahead of all the others, found in one pass. -/
def first (xs : List (Nat × α)) : Option (Nat × α) :=
  xs.foldl (fun best x => some (best.elim x fun b => if Ahead b x then b else x)) none

theorem first_spec (numbered : (xs.map Prod.fst).Nodup) : first xs = (rank xs).head? := by
  have run : ∀ (xs : List (Nat × α)) (b : Nat × α), ((b :: xs).map Prod.fst).Nodup → ∃ m ∈ b :: xs,
      xs.foldl (fun best x => some (best.elim x fun b => if Ahead b x then b else x)) (some b) = some m ∧
        ∀ y ∈ b :: xs, y = m ∨ Ahead m y := by
    intro xs
    induction xs with
    | nil => exact fun b _ => ⟨b, by simp, rfl, by simp⟩
    | cons x xs ih =>
      intro b numbered
      have other : b.1 ≠ x.1 := by
        intro same
        simp [same] at numbered
      by_cases ahead : Ahead b x
      · have fewer : ((b :: xs).map Prod.fst).Nodup :=
          numbered.sublist ((List.sublist_cons_self x xs).cons_cons b |>.map Prod.fst)
        obtain ⟨m, mem, is, best⟩ := ih b fewer
        refine ⟨m, ?_, by simpa [ahead] using is, fun y hy => ?_⟩
        · rcases List.mem_cons.mp mem with rfl | mem <;> simp [*]
        · rcases List.mem_cons.mp hy with rfl | hy
          · exact best _ (by simp)
          · rcases List.mem_cons.mp hy with rfl | hy
            · rcases best b (by simp) with rfl | past
              · exact .inr ahead
              · exact .inr (past.trans ahead)
            · exact best y (by simp [hy])
      · have behind := (Ahead.total other).resolve_left ahead
        obtain ⟨m, mem, is, best⟩ := ih x (List.nodup_cons.mp numbered).2
        refine ⟨m, List.mem_cons_of_mem _ mem, by simpa [ahead] using is, fun y hy => ?_⟩
        rcases List.mem_cons.mp hy with rfl | hy
        · rcases best x (by simp) with rfl | past
          · exact .inr behind
          · exact .inr (past.trans behind)
        · exact best y hy
  cases xs with
  | nil => simp [first, rank]
  | cons b xs =>
    obtain ⟨m, mem, is, best⟩ := run xs b numbered
    have found : first (b :: xs) = some m := is
    rw [found]
    have perm := rank_perm (b :: xs)
    have ranked := rank_ahead numbered
    cases listed : rank (b :: xs) with
    | nil => simp [listed] at perm
    | cons h tl =>
      rw [listed] at perm ranked
      rw [List.head?_cons]
      rcases List.mem_cons.mp (perm.mem_iff.mpr mem) with same | behind
      · rw [same]
      · have ahead := (List.pairwise_cons.mp ranked).1 m behind
        rcases best h (perm.mem_iff.mp (by simp)) with rfl | past
        · rfl
        · exact absurd ahead past.asymm

end Ranking
