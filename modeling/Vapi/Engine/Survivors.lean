import Vapi.Engine.Sampler
import Mathlib.Algebra.Order.Field.Basic
import Mathlib.Algebra.Order.BigOperators.Group.List
import Mathlib.Data.Rat.Cast.Order
import Mathlib.Tactic.FieldSimp
import Mathlib.Tactic.Ring
import Mathlib.Tactic.Linarith

/-!
# What survives

The tokens a row is drawn from, and those its candidates are drawn from, as
cuts of one ranked list: the tokens by their logits after the penalties.
-/

namespace Vapi.Engine

open Ranking

variable {S : Type} [Field S] [LinearOrder S] {exp : S → S} {row : List S} {p : SamplingParams} {s : SamplerState}

/-- The tokens of a row with their logits. -/
def numbered (row : List S) : List (Nat × S) := row.zipIdx.map Prod.swap

omit [Field S] [LinearOrder S] in
theorem numbered_fst (row : List S) : (numbered row).map Prod.fst = List.range row.length := by
  rw [numbered, List.map_map, List.range_eq_range']
  exact List.zipIdx_map_snd 0 row

omit [Field S] [LinearOrder S] in
theorem numbered_nodup (row : List S) : ((numbered row).map Prod.fst).Nodup := numbered_fst row ▸ List.nodup_range

omit [Field S] [LinearOrder S] in
theorem mem_numbered {x : Nat × S} : x ∈ numbered row ↔ row[x.1]? = some x.2 := by
  simp only [numbered, List.mem_map, Prod.exists, Prod.swap_prod_mk, List.mem_zipIdx_iff_getElem?]
  constructor
  · rintro ⟨l, i, at_, rfl⟩
    exact at_
  · exact fun at_ => ⟨x.2, x.1, at_, rfl⟩

omit [Field S] [LinearOrder S] in
theorem numbered_unique {x y : Nat × S} (hx : x ∈ numbered row) (hy : y ∈ numbered row) (same : x.1 = y.1) : x = y := by
  rw [mem_numbered] at hx hy
  rw [same, hy] at hx
  exact Prod.ext same (Option.some.inj hx).symm

/-- A token after the penalties. -/
def moved (p : SamplingParams) (s : SamplerState) (x : Nat × S) : Nat × S :=
  (x.1, (s.counts.lookup x.1).elim x.2 (penalise p x.2))

theorem moved_neutral (neutral : penalised p = false) : moved p s = (id : Nat × S → Nat × S) := by
  simp only [penalised, Bool.or_eq_false_iff, decide_eq_false_iff_not, not_not] at neutral
  obtain ⟨⟨rep, freq⟩, pres⟩ := neutral
  have same : ∀ (l : S) count, penalise p l count = l := by simp [penalise, rep, freq, pres]
  funext x
  rw [moved]
  cases s.counts.lookup x.1 <;> simp [same]

theorem foldl_modify {counts : List (Nat × Nat)} (distinct : (counts.map Prod.fst).Nodup) (row : List S) (i : Nat) :
    (counts.foldl (fun row c => row.modify c.1 fun l => penalise p l c.2) row)[i]? =
      row[i]?.map fun l => (counts.lookup i).elim l (penalise p l) := by
  induction counts generalizing row with
  | nil => simp
  | cons c counts ih =>
    obtain ⟨fresh, distinct⟩ := List.nodup_cons.mp distinct
    rw [List.foldl_cons, ih distinct, List.getElem?_modify, List.lookup_cons]
    by_cases here : c.1 = i
    · subst here
      have none_ : counts.lookup c.1 = none := by
        rw [List.lookup_eq_none_iff]
        intro x hx
        have other : c.1 ≠ x.1 := fun same => fresh (same ▸ List.mem_map_of_mem hx)
        simpa using other
      simp [none_, Function.comp_def]
    · have other : (i == c.1) = false := by simpa using Ne.symm here
      simp [here, other]

/-- The penalties move each token of a row by itself. -/
theorem numbered_applyPenalties (row : List S) (p : SamplingParams) (s : SamplerState) :
    numbered (applyPenalties row p s) = (numbered row).map (moved p s) := by
  rw [applyPenalties]
  cases touched : penalised p with
  | false => simp [moved_neutral touched]
  | true =>
    rw [if_pos rfl]
    refine List.ext_getElem? fun i => ?_
    simp only [numbered, List.getElem?_map, List.getElem?_zipIdx, foldl_modify s.distinct, Option.map_map]
    cases row[i]? <;> simp [moved]

theorem RowCandidates.penalties_entries (c : RowCandidates S) :
    (c.penalties exp p s).1 = c.entries.map (moved p s) := by
  rw [penalties]
  cases touched : penalised p with
  | false => simp [moved_neutral touched]
  | true => rfl

omit [Field S] in
/-- The largest logit, the first of equal ones. -/
theorem argmax_eq (row : List S) : argmax row = ((rank (numbered row)).head?.map Prod.fst).getD 0 := by
  have run : ∀ (row : List S) (n : Nat) (best : Option (S × Nat)), (∀ b ∈ best, b.2 < n) →
      (row.zipIdx n).foldl (fun best x => best.elim (some x) fun b : S × Nat => if b.1 < x.1 then some x else some b)
        best = (((row.zipIdx n).map Prod.swap).foldl
          (fun best x => some (best.elim x fun b => if Ahead b x then b else x)) (best.map Prod.swap)).map
            Prod.swap := by
    intro row
    induction row with
    | nil => intro n best _; cases best <;> simp
    | cons l row ih =>
      intro n best earlier
      simp only [List.zipIdx_cons, List.foldl_cons, List.map_cons]
      cases best with
      | none => exact ih (n + 1) (some (l, n)) (by simp)
      | some b =>
        have lt := earlier b rfl
        by_cases larger : b.1 < l
        · have behind : ¬Ahead b.swap (n, l) := by
            rintro (less | ⟨same, -⟩)
            · exact less.not_gt larger
            · exact larger.ne' same
          simpa [larger, behind] using ih (n + 1) (some (l, n)) (by simp)
        · have ahead : Ahead b.swap (n, l) := by
            rcases (not_lt.mp larger).lt_or_eq with less | same
            · exact .inl less
            · exact .inr ⟨same, lt⟩
          simpa [larger, ahead] using ih (n + 1) (some b) (by simpa using lt.trans (Nat.lt_succ_self n))
  rw [argmax, run row 0 none nofun, Option.map_none, ← first_spec (numbered_nodup row), first, numbered]
  cases List.foldl (fun best x => some (best.elim x fun b => if Ahead b x then b else x)) none
    (row.zipIdx.map Prod.swap) <;> rfl

/-- What makes a function an exponential, as far as the sampler minds. -/
structure Exponential (exp : S → S) : Prop where
  pos : ∀ x, 0 < exp x
  add : ∀ x y, exp (x + y) = exp x * exp y
  mono : StrictMono exp

/-- A token with the weight its logit has, up to a factor. -/
def weigh (exp : S → S) (factor invT : S) (x : Nat × S) : Nat × S := (x.1, factor * exp (x.2 * invT))

/-- Within the cutoff of the largest logit. -/
def near (top invT : S) (x : Nat × S) : Bool := top * invT - candidateCutoff ≤ x.2 * invT

/-- With enough of the largest weight. -/
def enough (exp : S → S) (p : SamplingParams) (top invT : S) (x : Nat × S) : Bool :=
  p.minP ≤ 0 || (p.minP : S) ≤ exp ((x.2 - top) * invT)

/-- How many tokens are left at most. -/
def limit (p : SamplingParams) : Option Nat := if p.isGreedy then some 1 else p.topK.map fun k => max k 1

variable [IsStrictOrderedRing S]

theorem invTemperature_pos (t : ℚ) : (0 : S) < invTemperature t := by
  have pos : (0 : ℚ) < max t (1 / 100000) := lt_max_of_lt_right (by norm_num)
  exact_mod_cast one_div_pos.mpr pos

namespace Exponential

variable (e : Exponential exp) {invT : S}

include e

omit [IsStrictOrderedRing S] in
theorem zero : exp 0 = 1 := by
  have double := e.add 0 0
  rw [add_zero] at double
  exact (mul_eq_left₀ (e.pos 0).ne').mp double.symm

theorem weigh_mono {c : S} (cpos : 0 < c) (pos : 0 < invT) : StrictMono fun l : S => c * exp (l * invT) :=
  fun _ _ lt => mul_lt_mul_of_pos_left (e.mono (mul_lt_mul_of_pos_right lt pos)) cpos

omit [IsStrictOrderedRing S] in
theorem shift (x y invT : S) : exp ((x - y) * invT) = exp (-(y * invT)) * exp (x * invT) := by
  rw [← e.add, sub_mul, neg_add_eq_sub]

omit e in
/-- Weights divided by a sum, if there is one. -/
theorem divided (xs : List (Nat × S)) (d : S) {f : S} (fpos : 0 < f) : ∃ c, 0 < c ∧
    (if 0 < d then (xs.map (weigh exp f invT)).map fun c => (c.1, c.2 / d) else xs.map (weigh exp f invT)) =
      xs.map (weigh exp c invT) := by
  split
  · rename_i pos
    refine ⟨f / d, div_pos fpos pos, ?_⟩
    rw [List.map_map]
    refine List.map_congr_left fun x _ => ?_
    simp only [Function.comp, weigh, div_mul_eq_mul_div]
  · exact ⟨f, fpos, rfl⟩

theorem rank_weigh {c : S} (cpos : 0 < c) (pos : 0 < invT) (xs : List (Nat × S)) :
    rank (xs.map (weigh exp c invT)) = (rank xs).map (weigh exp c invT) := rank_map (e.weigh_mono cpos pos) xs

omit [IsStrictOrderedRing S] in
theorem filterMap_near (top : S) (row : List S) :
    (row.zipIdx.filterMap fun x => if top * invT - candidateCutoff ≤ x.1 * invT then
      some (x.2, exp (x.1 * invT - top * invT)) else none) =
      ((numbered row).filter (near top invT)).map (weigh exp (exp (-(top * invT))) invT) := by
  rw [numbered]
  induction row.zipIdx with
  | nil => rfl
  | cons x xs ih =>
    by_cases close : top * invT - candidateCutoff ≤ x.1 * invT
    · have passes : near top invT x.swap := decide_eq_true close
      have weight : weigh exp (exp (-(top * invT))) invT x.swap = (x.2, exp (x.1 * invT - top * invT)) := by
        rw [weigh, ← e.shift, sub_mul]
        rfl
      rw [List.map_cons, List.filter_cons_of_pos passes, List.map_cons, weight, ← ih, List.filterMap_cons, if_pos close]
    · have fails : ¬near top invT x.swap := by simpa [near] using close
      rw [List.map_cons, List.filter_cons_of_neg fails, ← ih, List.filterMap_cons, if_neg close]

/-- What can carry mass is the ranked tokens near the largest. -/
theorem candidates_eq (row : List S) (t : ℚ) : ∃ c, 0 < c ∧ candidates exp row t =
    ((rank (numbered row)).filter (near (row.max?.getD 0) (invTemperature t))).map (weigh exp c (invTemperature t)) := by
  rw [candidates]
  simp only [e.filterMap_near]
  obtain ⟨c, pos, is⟩ := divided ((numbered row).filter (near (row.max?.getD 0) (invTemperature t))) _
    (e.pos (-(row.max?.getD 0 * invTemperature t)))
  refine ⟨c, pos, ?_⟩
  rw [is, ← rank_filter, ← e.rank_weigh pos (invTemperature_pos t)]
  rfl

/-- What is drawn from the candidates is what is left of their ranking. -/
theorem candidates_survivors (c : RowCandidates S) (p : SamplingParams) (s : SamplerState) : ∃ f, 0 < f ∧
    c.survivors exp p s =
      truncate p ((rank (c.entries.map (moved p s))).map (weigh exp f (RowCandidates.invT p))) := by
  have pos : (0 : S) < RowCandidates.invT p := by
    rw [RowCandidates.invT]
    split
    · exact one_pos
    · exact invTemperature_pos _
  have weighed : ((c.penalties exp p s).1.map fun x => (x.1, exp ((x.2 - c.max) * RowCandidates.invT p))) =
      (c.entries.map (moved p s)).map (weigh exp (exp (-(c.max * RowCandidates.invT p))) (RowCandidates.invT p)) := by
    rw [RowCandidates.penalties_entries]
    exact List.map_congr_left fun x _ => by rw [weigh, e.shift]
  rw [RowCandidates.survivors]
  simp only [weighed]
  obtain ⟨f, fpos, is⟩ := divided (c.entries.map (moved p s)) _ (e.pos (-(c.max * RowCandidates.invT p)))
  refine ⟨f, fpos, ?_⟩
  rw [is, ← e.rank_weigh fpos pos]
  rfl

/-- Weights in proportion are truncated alike. -/
theorem truncate_map {xs : List (Nat × S)} {c top : S} (cpos : 0 < c) (whole : p.topP = 1) (most : p.minP ≤ 1)
    (sampled : p.isGreedy = false) (head : ∀ h ∈ xs.head?, h.2 = top) :
    truncate p (xs.map (weigh exp c invT)) = (cut (limit p) (enough exp p top invT) xs).map (weigh exp c invT) := by
  have first : p.topK.elim (xs.map (weigh exp c invT)) (truncateTopK (xs.map (weigh exp c invT))) =
      ((limit p).elim xs xs.take).map (weigh exp c invT) := by
    rw [limit, if_neg (by simp [sampled])]
    cases p.topK with
    | none => rfl
    | some k => exact List.map_take.symm
  have head' : ∀ h ∈ ((limit p).elim xs xs.take).head?, h.2 = top := by
    intro h hh
    refine head h ?_
    rw [limit, if_neg (by simp [sampled])] at hh
    cases is : p.topK with
    | none => simpa [is] using hh
    | some k => simpa [is, List.head?_take] using hh
  have minP : ∀ ys : List (Nat × S), (∀ h ∈ ys.head?, h.2 = top) →
      (if 0 < p.minP then truncateMinP (ys.map (weigh exp c invT)) p.minP else ys.map (weigh exp c invT)) =
        (ys.takeWhile (enough exp p top invT)).map (weigh exp c invT) := by
    intro ys head
    split
    · rename_i some_
      cases ys with
      | nil => rfl
      | cons y ys =>
        obtain rfl := head y rfl
        have kept : ∀ x : Nat × S, decide ((p.minP : S) * (weigh exp c invT y).2 ≤ (weigh exp c invT x).2) =
            enough exp p y.2 invT x := by
          intro x
          have ratio : exp (x.2 * invT) = exp ((x.2 - y.2) * invT) * exp (y.2 * invT) := by
            rw [← e.add, ← add_mul, sub_add_cancel]
          rw [enough, decide_eq_false some_.not_ge, Bool.false_or, decide_eq_decide, weigh, weigh, ratio,
            mul_left_comm, mul_le_mul_iff_of_pos_left cpos, mul_le_mul_iff_of_pos_right (e.pos _)]
        have leads : enough exp p y.2 invT y := by
          rw [enough, sub_self, zero_mul, e.zero, Bool.or_eq_true, decide_eq_true_eq, decide_eq_true_eq]
          exact .inr (by exact_mod_cast most)
        have some_ : 1 ≤ ((y :: ys).takeWhile (enough exp p y.2 invT)).length := by
          rw [List.takeWhile_cons_of_pos leads]
          exact Nat.succ_pos _
        rw [List.map_cons, truncateMinP, ← List.map_cons, List.takeWhile_map, List.length_map]
        simp only [Function.comp_def, kept]
        rw [max_eq_left some_, ← List.map_take]
        exact congrArg _ (List.prefix_iff_eq_take.mp (List.takeWhile_prefix _)).symm
    · rename_i none_
      have all : ∀ x, enough exp p top invT x := fun x => by simp [enough, not_lt.mp none_]
      rw [List.takeWhile_eq_self_iff.mpr fun x _ => all x]
  rw [truncate, first]
  simp only [minP _ head', whole, lt_irrefl, if_false]
  rfl

end Exponential

end Vapi.Engine
