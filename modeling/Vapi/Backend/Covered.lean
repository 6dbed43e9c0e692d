import Vapi.Backend.Candidates
import Mathlib.Analysis.Complex.Exponential

/-!
# When candidates are enough

Sampling from the candidates agrees with sampling from the row exactly when
every token the row could be drawn from was selected.
-/

namespace Vapi.Backend

open Engine Ranking

variable {S : Type} [Field S] [LinearOrder S] {exp : S → S} {row : List S} {p : SamplingParams} {s : SamplerState}

/-- Whether a token is neither too far from the largest nor too light; greedy decoding does not ask. -/
def passes (exp : S → S) (row : List S) (p : SamplingParams) (s : SamplerState) (x : Nat × S) : Bool :=
  let after := applyPenalties row p s
  p.isGreedy || near (after.max?.getD 0) (invTemperature p.temperature) x &&
    enough exp p (after.max?.getD 0) (invTemperature p.temperature) x

/-- The tokens that are not outranked, in their order. -/
def drawable (exp : S → S) (row : List S) (p : SamplingParams) (s : SamplerState) : List (Nat × S) :=
  cut (limit p) (passes exp row p s) (rank (numbered (applyPenalties row p s)))

variable {c : RowCandidates S}

/-- The ranking of the candidates is what of the row's ranking was selected. -/
theorem rank_selected {q : Nat × S → Bool} (perm : c.entries.Perm ((numbered row).filter q)) :
    rank (c.entries.map (moved p s)) =
      (rank (numbered (applyPenalties row p s))).filter fun x => x.1 ∈ c.entries.map Prod.fst := by
  rw [rank_congr (selected_perm perm), rank_filter]

theorem numbered_ne_nil {x : Nat × S} (mem : x ∈ numbered (applyPenalties row p s)) : row ≠ [] := by
  rintro rfl
  rw [numbered_applyPenalties] at mem
  simp [numbered] at mem

theorem greedy_iff (greedy : p.isGreedy) {q : Nat × S → Bool} (perm : c.entries.Perm ((numbered row).filter q))
    (some_ : row ≠ [] → c.entries ≠ []) :
    Agrees exp row p s c ↔ ∀ x ∈ drawable exp row p s, x.1 ∈ c.entries.map Prod.fst := by
  have picked : ∀ random, c.sample exp p s random =
      (((rank (numbered (applyPenalties row p s))).filter fun x => x.1 ∈ c.entries.map Prod.fst).head?.map
        Prod.fst).getD 0 := by
    intro random
    rw [RowCandidates.sample, if_pos greedy, RowCandidates.penalties_entries, first_spec, rank_selected perm]
    rw [List.map_map]
    exact nodup_of_perm perm
  have full : ∀ random, Engine.sample exp row p s random =
      ((rank (numbered (applyPenalties row p s))).head?.map Prod.fst).getD 0 := by
    intro random
    rw [Engine.sample, if_pos greedy, argmax_eq]
  have left : drawable exp row p s = (rank (numbered (applyPenalties row p s))).take 1 := by
    rw [drawable, limit, if_pos greedy, cut, Option.elim_some]
    exact List.takeWhile_eq_self_iff.mpr fun _ _ => by rw [passes, greedy, Bool.true_or]
  rw [Agrees, if_pos greedy, left]
  simp only [picked, full, forall_const]
  cases ranked : rank (numbered (applyPenalties row p s)) with
  | nil => simp
  | cons h tl =>
    by_cases here : h.1 ∈ c.entries.map Prod.fst
    · have front : (h :: tl).filter (fun x => x.1 ∈ c.entries.map Prod.fst) =
          h :: tl.filter fun x => x.1 ∈ c.entries.map Prod.fst := List.filter_cons_of_pos (decide_eq_true here)
      rw [front]
      refine iff_of_true rfl fun x hx => ?_
      rw [List.take_one, List.head?_cons, Option.toList_some, List.mem_singleton] at hx
      exact hx ▸ here
    · have mem : h ∈ numbered (applyPenalties row p s) := (rank_perm _).mem_iff.mp (ranked ▸ List.mem_cons_self)
      have others : (h :: tl).filter (fun x => x.1 ∈ c.entries.map Prod.fst) ≠ [] := by
        rw [← ranked, ← rank_selected perm]
        intro none_
        have perm := rank_perm (c.entries.map (moved p s))
        rw [none_, List.nil_perm, List.map_eq_nil_iff] at perm
        exact some_ (numbered_ne_nil mem) perm
      obtain ⟨g, gs, is⟩ := List.exists_cons_of_ne_nil others
      have selected : g.1 ∈ c.entries.map Prod.fst := by
        have mem : g ∈ (h :: tl).filter fun x => x.1 ∈ c.entries.map Prod.fst := is ▸ List.mem_cons_self
        simpa using (List.mem_filter.mp mem).2
      rw [is]
      refine iff_of_false (fun same => here ?_) fun all => here (all h (by simp))
      simp only [List.head?_cons, Option.map_some, Option.getD_some] at same
      exact same ▸ selected

variable [IsStrictOrderedRing S]

theorem near_sooner (top : S) (t : ℚ) (x y : Nat × S) (ahead : Ahead x y) :
    near top (invTemperature t) y → near top (invTemperature t) x := by
  simp only [near, decide_eq_true_eq]
  exact fun close => close.trans (mul_le_mul_of_nonneg_right ahead.le (invTemperature_pos t).le)

theorem enough_sooner (e : Exponential exp) (top : S) (t : ℚ) (x y : Nat × S) (ahead : Ahead x y) :
    enough exp p top (invTemperature t) y → enough exp p top (invTemperature t) x := by
  simp only [enough, Bool.or_eq_true, decide_eq_true_eq]
  refine Or.imp_right fun some_ => some_.trans (e.mono.monotone ?_)
  exact mul_le_mul_of_nonneg_right (sub_le_sub_right ahead.le top) (invTemperature_pos t).le

theorem passes_sooner (e : Exponential exp) (x y : Nat × S) (ahead : Ahead x y) :
    passes exp row p s y → passes exp row p s x := by
  simp only [passes, Bool.or_eq_true, Bool.and_eq_true]
  exact Or.imp_right (And.imp (near_sooner _ _ x y ahead) (enough_sooner e _ _ x y ahead))

theorem outranked_iff (e : Exponential exp) {x : Nat × S} (mem : x ∈ numbered (applyPenalties row p s)) :
    Outranked exp row p s x ↔ x ∉ drawable exp row p s := by
  have perm := rank_perm (numbered (applyPenalties row p s))
  rw [drawable, mem_cut (rank_ahead (numbered_nodup _)) (passes_sooner e) Ahead.irrefl fun _ _ => Ahead.asymm]
  simp only [perm.mem_iff, mem, true_and, (perm.filter _).length_eq, Outranked, Option.mem_def, passes]
  cases p.isGreedy <;> cases limit p <;> simp [or_comm, imp_iff_not_or]

omit [IsStrictOrderedRing S] in
theorem head_largest {row : List S} : ∀ h ∈ (rank (numbered row)).head?, h.2 = row.max?.getD 0 := by
  intro h first
  have members := rank_perm (numbered row)
  cases ranked : rank (numbered row) with
  | nil => simp [ranked] at first
  | cons x xs =>
    rw [ranked, List.head?_cons, Option.mem_some_iff] at first
    subst first
    have at_ := mem_numbered.mp (members.mem_iff.mp (ranked ▸ List.mem_cons_self : x ∈ rank (numbered row)))
    obtain ⟨m, mem, is, most⟩ := max?_spec (List.mem_of_getElem? at_)
    obtain ⟨i, hi⟩ := List.mem_iff_getElem?.mp mem
    have behind := members.mem_iff.mpr (mem_numbered.mpr (show row[(i, m).1]? = some (i, m).2 from hi))
    rw [ranked] at behind
    rw [is]
    refine le_antisymm (most x.2 (List.mem_of_getElem? at_)) ?_
    rcases List.mem_cons.mp behind with same | later
    · exact (congrArg Prod.snd same).le
    · have order := rank_ahead (numbered_nodup row)
      rw [ranked] at order
      exact ((List.pairwise_cons.mp order).1 _ later).le

omit [Field S] [LinearOrder S] [IsStrictOrderedRing S] in
theorem head_filter {xs : List (Nat × S)} {q : Nat × S → Bool} (first : ∀ h ∈ xs.head?, q h) :
    (xs.filter q).head? = xs.head? := by
  cases xs with
  | nil => rfl
  | cons x xs => rw [List.filter_cons_of_pos (first x rfl), List.head?_cons, List.head?_cons]

theorem head_near (row : List S) (t : ℚ) :
    ∀ h ∈ (rank (numbered row)).head?, near (row.max?.getD 0) (invTemperature t) h := by
  intro h first
  rw [near, decide_eq_true_eq, head_largest h first, sub_le_self_iff]
  exact Nat.cast_nonneg _

theorem head_drawable (e : Exponential exp) (most : p.minP ≤ 1) :
    ∀ h ∈ (rank (numbered (applyPenalties row p s))).head?, h ∈ drawable exp row p s := by
  intro h first
  have close := head_near _ p.temperature h first
  have weighs : enough exp p ((applyPenalties row p s).max?.getD 0) (invTemperature p.temperature) h := by
    have most' : (p.minP : S) ≤ 1 := by exact_mod_cast most
    rw [enough, head_largest h first, sub_self, zero_mul, e.zero]
    simp [most']
  obtain ⟨tl, ranked⟩ := List.head?_eq_some_iff.mp (Option.mem_def.mp first)
  rw [drawable, ranked]
  refine head_cut (by rw [passes, close, weighs, Bool.and_true, Bool.or_true]) fun n some_ => ?_
  rw [limit] at some_
  split at some_
  · exact Option.some.inj some_ ▸ Nat.one_pos
  · obtain ⟨k, -, rfl⟩ := Option.map_eq_some_iff.mp some_
    exact lt_max_of_lt_right Nat.one_pos

theorem sampled_iff (e : Exponential exp) (sampled : p.isGreedy = false) (whole : p.topP = 1) (most : p.minP ≤ 1)
    {q : Nat × S → Bool} (perm : c.entries.Perm ((numbered row).filter q)) :
    Agrees exp row p s c ↔ ∀ x ∈ drawable exp row p s, x.1 ∈ c.entries.map Prod.fst := by
  have ranked := rank_ahead (numbered_nodup (applyPenalties row p s))
  have members := rank_perm (numbered (applyPenalties row p s))
  have nearer := near_sooner ((applyPenalties row p s).max?.getD 0) p.temperature
  have both : passes exp row p s = fun x => near ((applyPenalties row p s).max?.getD 0) (invTemperature p.temperature) x &&
      enough exp p ((applyPenalties row p s).max?.getD 0) (invTemperature p.temperature) x := by
    funext x
    rw [passes, sampled, Bool.false_or]
  obtain ⟨f, fpos, drawn⟩ := e.candidates_eq (applyPenalties row p s) p.temperature
  obtain ⟨g, gpos, picked⟩ := e.candidates_survivors c p s
  rw [RowCandidates.invT, if_neg (by simp [sampled]), rank_selected perm] at picked
  have leads : ∀ h ∈ ((rank (numbered (applyPenalties row p s))).filter
      (near ((applyPenalties row p s).max?.getD 0) (invTemperature p.temperature))).head?,
      h.2 = (applyPenalties row p s).max?.getD 0 :=
    fun h first => head_largest h (head_filter (head_near (applyPenalties row p s) p.temperature) ▸ first)
  have full : Engine.survivors exp row p s =
      (drawable exp row p s).map (weigh exp f (invTemperature p.temperature)) := by
    rw [Engine.survivors, drawn, e.truncate_map fpos whole most sampled leads, cut_sooner ranked nearer, drawable, both]
  rw [Agrees, if_neg (by simp [sampled]), full]
  constructor
  · rintro ⟨k, -, same⟩ x hx
    have mem : x.1 ∈ ((drawable exp row p s).map (weigh exp f (invTemperature p.temperature)) |>.map
        fun x => (x.1, k * x.2)).map Prod.fst := by
      simpa [weigh] using ⟨x.2, hx⟩
    rw [← same] at mem
    obtain ⟨y, hy, is⟩ := List.mem_map.mp mem
    have kept := (truncate_sublist _).subset (picked ▸ (List.mem_filter.mp hy).1)
    obtain ⟨z, hz, rfl⟩ := List.mem_map.mp kept
    exact is ▸ of_decide_eq_true (List.mem_filter.mp hz).2
  · intro among
    have leads : ∀ h ∈ ((rank (numbered (applyPenalties row p s))).filter
        fun x => x.1 ∈ c.entries.map Prod.fst).head?, h.2 = (applyPenalties row p s).max?.getD 0 := by
      intro h first
      rw [head_filter fun h first => decide_eq_true (among h (head_drawable e most h first))] at first
      exact head_largest h first
    have told : ∀ x ∈ rank (numbered (applyPenalties row p s)), close row p s x.1 =
        near ((applyPenalties row p s).max?.getD 0) (invTemperature p.temperature) x := by
      intro x hx
      simp only [close, mem_numbered.mp (members.mem_iff.mp hx), Option.all_some]
    have kept : ((cut (limit p) (enough exp p ((applyPenalties row p s).max?.getD 0) (invTemperature p.temperature))
        ((rank (numbered (applyPenalties row p s))).filter fun x => x.1 ∈ c.entries.map Prod.fst))).filter
          (fun x => close row p s x.1) = drawable exp row p s := by
      have far : ∀ x ∈ cut (limit p) (enough exp p ((applyPenalties row p s).max?.getD 0) (invTemperature p.temperature))
          ((rank (numbered (applyPenalties row p s))).filter fun x => x.1 ∈ c.entries.map Prod.fst),
          close row p s x.1 = near ((applyPenalties row p s).max?.getD 0) (invTemperature p.temperature) x :=
        fun x hx => told x (List.filter_sublist.subset ((cut_sublist _ _ _).subset hx))
      rw [List.filter_congr far, cut_filter_sooner (ranked.sublist List.filter_sublist) nearer, ← both]
      exact (cut_filter_iff ranked (passes_sooner e)).mpr fun x hx => decide_eq_true (among x hx)
    refine ⟨g / f, div_pos gpos fpos, ?_⟩
    rw [picked, e.truncate_map gpos whole most sampled leads, List.filter_map]
    have same : (fun x : Nat × S => close row p s x.1) ∘ weigh exp g (invTemperature p.temperature) =
        fun x => close row p s x.1 := rfl
    rw [same, kept, List.map_map]
    refine List.map_congr_left fun x _ => ?_
    rw [Function.comp_apply, weigh, weigh, ← mul_assoc, div_mul_cancel₀ g fpos.ne']


theorem need_invTemperature_pos : (0 : S) < (s.need p).invTemperature := by
  rw [SamplerState.need]
  split
  · simp
  · dsimp only
    split
    · simp
    · exact invTemperature_pos _

/-- What a count to be reached says of the request. -/
theorem need_counted (counted : 0 < (s.need p).needed) : 1 ≤ p.repetitionPenalty ∧ 0 ≤ p.frequencyPenalty ∧
    0 ≤ p.presencePenalty ∧ ∃ k, limit p = some k ∧ (s.need p).needed = k + s.counts.length := by
  rw [SamplerState.need] at counted ⊢
  split at counted
  · cases counted
  rename_i kept
  rw [if_neg kept]
  dsimp only at counted ⊢
  split at counted
  · cases counted
  rename_i lowering
  rw [if_neg lowering]
  simp only [Bool.or_eq_true, decide_eq_true_eq, not_or, not_lt] at lowering
  refine ⟨lowering.1.1, lowering.1.2, lowering.2, ?_⟩
  rw [limit]
  cases greedy : p.isGreedy with
  | true => exact ⟨1, rfl, rfl⟩
  | false =>
    cases topK : p.topK with
    | none => simp [greedy, topK] at counted
    | some k => exact ⟨max k 1, rfl, rfl⟩

theorem penalise_le (rep : 1 ≤ p.repetitionPenalty) (freq : 0 ≤ p.frequencyPenalty) (pres : 0 ≤ p.presencePenalty)
    (l : S) (count : Nat) : penalise p l count ≤ l := by
  have rep' : (1 : S) ≤ p.repetitionPenalty := by exact_mod_cast rep
  have freq' : (0 : S) ≤ p.frequencyPenalty * count := mul_nonneg (by exact_mod_cast freq) (Nat.cast_nonneg _)
  have pres' : (0 : S) ≤ p.presencePenalty := by exact_mod_cast pres
  have scaled : (if p.repetitionPenalty ≠ 1 then (if 0 < l then l / p.repetitionPenalty else l * p.repetitionPenalty)
      else l) ≤ l := by
    split
    · split
      · rename_i pos
        exact div_le_self pos.le rep'
      · rename_i neg
        exact (mul_le_mul_of_nonpos_left rep' (not_lt.mp neg)).trans (mul_one l).le
    · exact le_rfl
  rw [penalise]
  split <;> linarith

/-- A selection of enough tokens holds enough that no penalty moves. -/
theorem outranked_of_counted {entries : List (Nat × S)} {d : Nat} (perm : entries.Perm (bins row (s.need p).invTemperature d))
    (counted : 0 < (s.need p).needed) (many : (s.need p).needed ≤ entries.length) {x : Nat × S}
    (mem : x ∈ numbered (applyPenalties row p s)) (outside : x.1 ∉ entries.map Prod.fst) : Outranked exp row p s x := by
  obtain ⟨rep, freq, pres, k, limited, needed⟩ := need_counted counted
  rw [numbered_applyPenalties] at mem
  obtain ⟨y, hy, rfl⟩ := List.mem_map.mp mem
  have below : (moved p s y).2 ≤ y.2 := by
    rw [moved]
    cases s.counts.lookup y.1 with
    | none => exact le_rfl
    | some count => exact penalise_le rep freq pres y.2 count
  have deep : ¬(row.max?.getD 0 - y.2) * (s.need p).invTemperature < d + 1 := by
    intro shallow
    refine outside (List.mem_map_of_mem (f := Prod.fst) (a := y) (perm.mem_iff.mpr (List.mem_filter.mpr ⟨hy, ?_⟩)))
    exact decide_eq_true shallow
  -- the selected tokens that were not observed
  have front : (entries.filter fun z => (s.counts.lookup z.1).isNone) ⊆
      (numbered (applyPenalties row p s)).filter fun z => Ahead z (moved p s y) := by
    intro z hz
    obtain ⟨hz, unseen⟩ := List.mem_filter.mp hz
    obtain ⟨listed, shallow⟩ := List.mem_filter.mp (perm.mem_iff.mp hz)
    have still : moved p s z = z := by
      rw [moved, Option.isNone_iff_eq_none.mp unseen]
      rfl
    refine List.mem_filter.mpr ⟨?_, decide_eq_true (.inl ?_)⟩
    · rw [numbered_applyPenalties]
      exact still ▸ List.mem_map_of_mem (f := moved p s) listed
    · have gap := (of_decide_eq_true shallow).trans_le (not_lt.mp deep)
      have larger : y.2 < z.2 := sub_lt_sub_iff_left _ |>.mp (lt_of_mul_lt_mul_right gap need_invTemperature_pos.le)
      exact below.trans_lt larger
  have numbered_ : (entries.map Prod.fst).Nodup := nodup_of_perm perm
  have observed : (entries.filter fun z => !(s.counts.lookup z.1).isNone).length ≤ s.counts.length := by
    have some_ : (entries.filter fun z => !(s.counts.lookup z.1).isNone).map Prod.fst ⊆ s.counts.map Prod.fst := by
      intro t ht
      obtain ⟨z, hz, rfl⟩ := List.mem_map.mp ht
      have seen := (List.mem_filter.mp hz).2
      by_contra fresh
      rw [List.lookup_eq_none_iff.mpr fun c hc => by
        simpa using fun same : z.1 = c.1 => fresh (same ▸ List.mem_map_of_mem hc)] at seen
      cases seen
    have distinct : ((entries.filter fun z => !(s.counts.lookup z.1).isNone).map Prod.fst).Nodup :=
      numbered_.sublist (List.filter_sublist.map Prod.fst)
    simpa using (List.subperm_of_subset distinct some_).length_le
  have parts : entries.length = _ := List.length_eq_length_filter_add fun z => (s.counts.lookup z.1).isNone
  have fits := (List.subperm_of_subset ((List.Nodup.of_map _ numbered_).filter _) front).length_le
  exact .inl ⟨k, limited, by omega⟩

omit [Field S] [LinearOrder S] [IsStrictOrderedRing S] in
theorem minP_le_one (valid : p.validate = .ok ()) : p.minP ≤ 1 := by
  by_contra more
  have refused : ¬(0 ≤ p.minP ∧ p.minP ≤ 1) := fun within => more within.2
  rw [SamplingParams.validate, if_pos refused] at valid
  split_ifs at valid

/-- The candidates agree with the row exactly when nothing that was left out can be drawn. -/
theorem agrees_iff_outranked (e : Exponential exp) {sel : Selected S} {d : Nat} (valid : p.validate = .ok ())
    (scope : p.isGreedy ∨ p.topP = 1) (perm : sel.entries.Perm (bins row (s.need p).invTemperature d)) :
    Agrees exp row p s ⟨sel.entries, sel.max, sel.sum⟩ ↔
      ∀ x ∈ numbered (applyPenalties row p s), x.1 ∉ sel.entries.map Prod.fst → Outranked exp row p s x := by
  have some_ : row ≠ [] → sel.entries ≠ [] := by
    intro some_ none_
    obtain ⟨l, ls, rfl⟩ := List.exists_cons_of_ne_nil some_
    obtain ⟨m, mem, is, -⟩ := max?_spec (List.mem_cons_self : l ∈ l :: ls)
    obtain ⟨i, hi⟩ := List.mem_iff_getElem?.mp mem
    have listed : (i, m) ∈ bins (l :: ls) ((s.need p).invTemperature : S) d := by
      refine List.mem_filter.mpr ⟨mem_numbered.mpr hi, decide_eq_true ?_⟩
      rw [is, sub_self, zero_mul]
      positivity
    rw [none_] at perm
    exact List.not_mem_nil (perm.mem_iff.mpr listed)
  have agrees : Agrees exp row p s ⟨sel.entries, sel.max, sel.sum⟩ ↔
      ∀ x ∈ drawable exp row p s, x.1 ∈ sel.entries.map Prod.fst := by
    cases greedy : p.isGreedy with
    | true => exact greedy_iff greedy perm some_
    | false => exact sampled_iff e greedy (scope.resolve_left (by simp [greedy])) (minP_le_one valid) perm
  rw [agrees]
  constructor
  · intro among x mem outside
    rw [outranked_iff e mem]
    exact fun drawn => outside (among x drawn)
  · intro out x drawn
    have mem := (rank_perm _).mem_iff.mp ((cut_sublist _ _ _).subset drawn)
    by_contra outside
    exact (outranked_iff e mem).mp (out x mem outside) drawn

omit [IsStrictOrderedRing S] in
theorem applyPenalties_neutral (neutral : penalised p = false) : applyPenalties row p s = row := by
  rw [applyPenalties, neutral]
  rfl

/-- Without penalties the whole window is enough. -/
theorem outranked_of_window (neutral : penalised p = false) (plain : (s.need p).full = false) {x : Nat × S}
    (mem : x ∈ numbered row) (outside : x ∉ bins row (s.need p).invTemperature candidateWindow) :
    Outranked exp row p s x := by
  have deep : (candidateWindow : S) + 1 ≤ (row.max?.getD 0 - x.2) * (s.need p).invTemperature := by
    by_contra shallow
    exact outside (List.mem_filter.mpr ⟨mem, decide_eq_true (not_le.mp shallow)⟩)
  rw [Outranked, applyPenalties_neutral neutral]
  have scaled : (s.need p).invTemperature = if p.isGreedy then 1 else invTemperature p.temperature := by
    rw [SamplerState.need] at plain ⊢
    split
    · rename_i full
      rw [if_pos full] at plain
      cases plain
    · rfl
  cases greedy : p.isGreedy with
  | true =>
    obtain ⟨m, listed, is, -⟩ := max?_spec (List.mem_of_getElem? (mem_numbered.mp mem))
    obtain ⟨i, hi⟩ := List.mem_iff_getElem?.mp listed
    rw [scaled, if_pos greedy, Rat.cast_one, mul_one, is] at deep
    have ahead : Ahead (i, m) x := .inl (by
      have : (0 : S) ≤ candidateWindow := Nat.cast_nonneg _
      show x.2 < m
      linarith)
    exact .inl ⟨1, by rw [limit, if_pos greedy]; rfl,
      List.length_pos_of_mem (List.mem_filter.mpr ⟨mem_numbered.mpr hi, decide_eq_true ahead⟩)⟩
  | false =>
    rw [scaled, if_neg (by simp [greedy]), sub_mul] at deep
    refine .inr ⟨rfl, fun both => ?_⟩
    have close := of_decide_eq_true both.1
    have same : (candidateCutoff : S) = candidateWindow := rfl
    rw [same] at close
    linarith

/-- Rows nothing is penalised in agree whenever they are served by candidates. -/
theorem candidates_agree_unpenalised (e : Exponential exp) {sel : Selected S} {drawn : Nat} {c : RowCandidates S}
    (valid : p.validate = .ok ()) (scope : p.isGreedy ∨ p.topP = 1) (neutral : penalised p = false)
    (plain : (s.need p).full = false) (selects : Selects exp row (s.need p).invTemperature sel)
    (served : rowLogits (s.need p) sel drawn row = .candidates c) : Agrees exp row p s c := by
  obtain ⟨rfl, d, perm, count, deep⟩ := rowLogits_candidates selects served
  refine (agrees_iff_outranked e valid scope perm).mpr fun x mem outside => ?_
  rcases deep with rfl | ⟨counted, reached⟩
  · rw [applyPenalties_neutral neutral] at mem
    exact outranked_of_window neutral plain mem fun listed =>
      outside (List.mem_map_of_mem (perm.mem_iff.mpr listed))
  · exact outranked_of_counted perm counted (count ▸ reached) mem outside

theorem exponential_real : Exponential Real.exp := ⟨Real.exp_pos, Real.exp_add, Real.exp_strictMono⟩

/-- A row's candidates agree with the row when the sampler's count is reached, or when no token that was left
out can be drawn after the penalties. -/
theorem candidates_agree_iff {row : List ℝ} {p : SamplingParams} {s : SamplerState} {sel : Selected ℝ} {drawn : Nat}
    {c : RowCandidates ℝ} (valid : p.validate = .ok ()) (scope : p.isGreedy ∨ p.topP = 1)
    (selects : Selects Real.exp row (s.need p).invTemperature sel)
    (served : rowLogits (s.need p) sel drawn row = .candidates c) :
    Agrees Real.exp row p s c ↔ (0 < (s.need p).needed ∧ (s.need p).needed ≤ sel.count) ∨
      ∀ x ∈ numbered (applyPenalties row p s), x.1 ∉ sel.entries.map Prod.fst → Outranked Real.exp row p s x := by
  obtain ⟨rfl, d, perm, count, -⟩ := rowLogits_candidates selects served
  rw [agrees_iff_outranked exponential_real valid scope perm]
  refine ⟨.inr, ?_⟩
  rintro (⟨counted, reached⟩ | out)
  · exact fun x mem outside => outranked_of_counted perm counted (count ▸ reached) mem outside
  · exact out

section Example

/-- Greedy, with a penalty as large as a client may send. -/
def sunk : SamplingParams := { temperature := 0, presencePenalty := 100 }

def seenOnce : SamplerState := { counts := [(0, 1)] }

noncomputable def sunkSelection : Selected ℝ :=
  { entries := [(0, 40)], count := 1, depth := some candidateWindow, max := 40, sum := Real.exp 0 + Real.exp (-40) }

theorem bins_sunk (d : Nat) (window : d ≤ candidateWindow) : bins [40, 0] (1 : ℝ) d = [(0, 40)] := by
  have within : (0 : ℝ) < d + 1 := by positivity
  have beyond : ¬(40 : ℝ) < d + 1 := by
    have : (d : ℝ) ≤ 30 := by exact_mod_cast window
    linarith
  simp [bins, numbered, List.max?, within, beyond]

theorem selects_sunk : Selects Real.exp [40, 0] ((seenOnce.need sunk).invTemperature : ℝ) sunkSelection := by
  have one : ((seenOnce.need sunk).invTemperature : ℝ) = 1 := by
    simp [SamplerState.need, sunk, SamplingParams.isGreedy, SamplingParams.f32Epsilon]
  rw [one]
  refine ⟨(deepest_short (by decide)).symm, ?_, ?_, ?_, ?_⟩
  · rintro _ ⟨⟩
    rw [bins_sunk _ le_rfl]
    exact List.Perm.refl _
  · exact (congrArg List.length (bins_sunk candidateWindow le_rfl)).symm
  · simp [sunkSelection, List.max?]
  · simp [sunkSelection, List.max?]

theorem served_sunk : rowLogits (seenOnce.need sunk) sunkSelection 0 [40, 0] =
    .candidates ⟨sunkSelection.entries, sunkSelection.max, sunkSelection.sum⟩ := by
  have open_ : (seenOnce.need sunk).full = false := by decide +kernel
  have undrawn : (gumbelRow (seenOnce.need sunk)).isSome = false := by decide +kernel
  have whole : covered (seenOnce.need sunk) sunkSelection = true := by
    simp [covered, open_, sunkSelection, candidateCap]
  rw [rowLogits, if_neg (by simp [undrawn]), if_pos whole]

/-- The one token of the window sinks below a token that was left out, and is still picked. -/
theorem window_sunk_below : sunk.validate = .ok () ∧
    Selects Real.exp [40, 0] ((seenOnce.need sunk).invTemperature : ℝ) sunkSelection ∧
    rowLogits (seenOnce.need sunk) sunkSelection 0 [40, 0] =
      .candidates ⟨sunkSelection.entries, sunkSelection.max, sunkSelection.sum⟩ ∧ sunk.isGreedy ∧
    ¬Agrees Real.exp [40, 0] sunk seenOnce ⟨sunkSelection.entries, sunkSelection.max, sunkSelection.sum⟩ := by
  have greedy : sunk.isGreedy = true := by decide +kernel
  refine ⟨by decide +kernel, selects_sunk, served_sunk, greedy, ?_⟩
  rw [Agrees, if_pos greedy]
  intro same
  have row : Engine.sample Real.exp [40, 0] sunk seenOnce (0 : ℝ) = 1 := by
    rw [Engine.sample, if_pos greedy]
    have after : applyPenalties [40, 0] sunk seenOnce = [(-60 : ℝ), 0] := by
      norm_num [applyPenalties, penalised, sunk, seenOnce, penalise]
    rw [after]
    norm_num [argmax]
  have candidates : RowCandidates.sample Real.exp ⟨sunkSelection.entries, sunkSelection.max, sunkSelection.sum⟩ sunk
      seenOnce (0 : ℝ) = 0 := by
    rw [RowCandidates.sample, if_pos greedy, RowCandidates.penalties_entries]
    rfl
  have := same 0
  rw [row, candidates] at this
  cases this

theorem candidates_agree_iff_sunk :
    Agrees Real.exp [40, 0] sunk seenOnce ⟨sunkSelection.entries, sunkSelection.max, sunkSelection.sum⟩ ↔
      (0 < (seenOnce.need sunk).needed ∧ (seenOnce.need sunk).needed ≤ sunkSelection.count) ∨
      ∀ x ∈ numbered (applyPenalties [40, 0] sunk seenOnce), x.1 ∉ sunkSelection.entries.map Prod.fst →
        Outranked Real.exp [40, 0] sunk seenOnce x :=
  candidates_agree_iff (by decide +kernel) (.inl (by decide +kernel)) selects_sunk served_sunk

end Example

end Vapi.Backend
