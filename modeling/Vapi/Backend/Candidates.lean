import Vapi.Engine.Survivors

/-!
# Sampling from candidates

A device selects the top of each row of logits, and a row whose selection
covers what the sampler needs is sampled from it alone. Which tokens were
selected is decided on raw logits, and the penalties come after.
-/

namespace Vapi.Backend

open Engine Ranking

variable {S : Type} [Field S] [LinearOrder S]

/-- Most candidates a row gets. -/
def candidateCap : Nat := 8192

/-- The sampler's window in whole nats. -/
def candidateWindow : Nat := 30

/-- What `select_candidates` returns of a row; no depth means the first bin alone overflows. -/
structure Selected (S : Type) where
  entries : List (Nat × S)
  count : Nat
  depth : Option Nat
  max : S
  sum : S

/-- The tokens less than `d + 1` scaled nats below the maximum: the bins up to `d`. -/
def bins (row : List S) (invT : S) (d : Nat) : List (Nat × S) :=
  (numbered row).filter fun x => (row.max?.getD 0 - x.2) * invT < d + 1

/-- The deepest prefix of bins that fits. -/
def deepest (row : List S) (invT : S) : Option Nat :=
  ((List.range (candidateWindow + 1)).takeWhile fun d => (bins row invT d).length ≤ candidateCap).getLast?

/-- What the selection is documented to be; the device returns the entries in no order. -/
structure Selects (exp : S → S) (row : List S) (invT : S) (sel : Selected S) : Prop where
  depth : sel.depth = deepest row invT
  entries : ∀ d ∈ sel.depth, sel.entries.Perm (bins row invT d)
  count : sel.count = (bins row invT (sel.depth.getD 0)).length
  max : sel.max = row.max?.getD 0
  sum : sel.sum = (row.map fun l => exp (-((row.max?.getD 0 - l) * invT))).sum

inductive RowLogits (S : Type)
  | full (row : List S)
  | candidates (row : RowCandidates S)
  | token (token : Nat)

/-- The rows drawn on the device outright. -/
def gumbelRow (need : CandidateNeed) : Option GumbelDraw := need.gumbel.filter fun _ => !need.full

def covered (need : CandidateNeed) (sel : Selected S) : Bool :=
  !need.full && ((gumbelRow need).isSome || (sel.count ≤ candidateCap &&
    (sel.depth = some candidateWindow || (0 < need.needed && need.needed ≤ sel.count))))

/-- What `forward_candidates` hands the sampler of one row. -/
def rowLogits (need : CandidateNeed) (sel : Selected S) (drawn : Nat) (row : List S) : RowLogits S :=
  if (gumbelRow need).isSome then .token drawn
  else if covered need sel then .candidates ⟨sel.entries, sel.max, sel.sum⟩
  else .full row

variable (exp : S → S) (row : List S) (p : SamplingParams) (s : SamplerState)

/-- Whether a token is within the cutoff of the maximum, after the penalties. -/
def close (t : Nat) : Bool :=
  let after := applyPenalties row p s
  after[t]?.all fun l => near (after.max?.getD 0) (invTemperature p.temperature) (t, l)

/-- The candidates give the token the row gives, or are drawn from as the row is, but for the far tokens. -/
def Agrees (c : RowCandidates S) : Prop :=
  if p.isGreedy then ∀ random, c.sample exp p s random = Engine.sample exp row p s random
  else ∃ f, 0 < f ∧ (c.survivors exp p s).filter (fun x => close row p s x.1) =
    (Engine.survivors exp row p s).map fun x => (x.1, f * x.2)

/-- A token that cannot be drawn: enough tokens are ahead of it after the penalties, or it is too far behind. -/
def Outranked (x : Nat × S) : Prop :=
  let after := applyPenalties row p s
  (∃ k ∈ limit p, k ≤ ((numbered after).filter fun y => Ahead y x).length) ∨
    p.isGreedy = false ∧ ¬(near (after.max?.getD 0) (invTemperature p.temperature) x ∧
      enough exp p (after.max?.getD 0) (invTemperature p.temperature) x)

section Support

variable {exp row p s}

theorem max?_spec {l : S} (mem : l ∈ row) : ∃ m ∈ row, row.max?.getD 0 = m ∧ ∀ y ∈ row, y ≤ m := by
  obtain ⟨m, is⟩ := Option.isSome_iff_exists.mp (List.isSome_max?_of_mem mem)
  obtain ⟨mem, most⟩ := List.max?_eq_some_iff.mp is
  exact ⟨m, mem, by rw [is, Option.getD_some], most⟩

/-- What is selected is, after the penalties, a part of the penalised row. -/
theorem selected_perm {entries : List (Nat × S)} {q : Nat × S → Bool} (perm : entries.Perm ((numbered row).filter q)) :
    (entries.map (moved p s)).Perm
      ((numbered (applyPenalties row p s)).filter fun x => x.1 ∈ entries.map Prod.fst) := by
  rw [numbered_applyPenalties, List.filter_map]
  refine (perm.map _).trans (List.Perm.of_eq (congrArg _ (List.filter_congr fun x hx => ?_)))
  rw [Bool.eq_iff_iff, Function.comp_apply, decide_eq_true_eq, moved, List.mem_map]
  constructor
  · exact fun ok => ⟨x, perm.mem_iff.mpr (List.mem_filter.mpr ⟨hx, ok⟩), rfl⟩
  · rintro ⟨y, hy, same⟩
    obtain ⟨hy', ok⟩ := List.mem_filter.mp (perm.mem_iff.mp hy)
    exact numbered_unique hy' hx same ▸ ok

omit [Field S] [LinearOrder S] in
theorem nodup_of_perm {entries : List (Nat × S)} {q : Nat × S → Bool} (perm : entries.Perm ((numbered row).filter q)) :
    (entries.map Prod.fst).Nodup :=
  ((perm.map Prod.fst).nodup_iff).mpr ((numbered_nodup row).sublist (List.filter_sublist.map Prod.fst))

theorem truncateTopP_sublist (topP acc : S) (c : List (Nat × S)) : (truncateTopP topP acc c).Sublist c := by
  induction c generalizing acc with
  | nil => exact .slnil
  | cons x c ih =>
    rw [truncateTopP]
    split
    · exact (List.nil_sublist c).cons_cons x
    · exact (ih _).cons_cons x

theorem truncate_sublist (c : List (Nat × S)) : (truncate p c).Sublist c := by
  have topK : (p.topK.elim c (truncateTopK c)).Sublist c := by
    cases p.topK with
    | none => exact List.Sublist.refl c
    | some k => exact List.take_sublist _ c
  have minP : ∀ c : List (Nat × S), (if 0 < p.minP then truncateMinP c p.minP else c).Sublist c := by
    intro c
    split
    · cases c with
      | nil => exact .slnil
      | cons x c => exact List.take_sublist _ _
    · exact List.Sublist.refl c
  rw [truncate]
  split
  · exact ((truncateTopP_sublist _ _ _).trans (minP _)).trans topK
  · exact (minP _).trans topK

/-- What a row of candidates is. -/
theorem rowLogits_candidates {sel : Selected S} {drawn : Nat} {c : RowCandidates S}
    (selects : Selects exp row (s.need p).invTemperature sel)
    (served : rowLogits (s.need p) sel drawn row = .candidates c) :
    c = ⟨sel.entries, sel.max, sel.sum⟩ ∧ ∃ d, sel.entries.Perm (bins row ((s.need p).invTemperature : S) d) ∧
      sel.count = sel.entries.length ∧ (d = candidateWindow ∨ 0 < (s.need p).needed ∧ (s.need p).needed ≤ sel.count) := by
  rw [rowLogits] at served
  split at served
  · cases served
  rename_i undrawn
  split at served
  · rename_i covers
    obtain rfl := RowLogits.candidates.inj served
    refine ⟨rfl, ?_⟩
    simp only [covered, undrawn, Bool.and_eq_true, Bool.false_or, Bool.or_eq_true, decide_eq_true_eq] at covers
    obtain ⟨-, fits, deep⟩ := covers
    cases at_ : sel.depth with
    | none =>
      -- the first bin overflows, and its size is what is counted
      have count := selects.count
      rw [at_, Option.getD_none] at count
      rw [count] at fits
      have deepest := selects.depth
      rw [at_, Backend.deepest, List.range_succ_eq_map, List.takeWhile_cons_of_pos (by simpa using fits),
        List.getLast?_cons] at deepest
      cases deepest
    | some d =>
      have perm := selects.entries d at_
      have count := selects.count
      rw [at_, Option.getD_some, ← perm.length_eq] at count
      exact ⟨d, perm, count, by simpa [at_] using deep⟩
  · cases served

theorem deepest_short {invT : S} (short : row.length ≤ candidateCap) : deepest row invT = some candidateWindow := by
  have fits : ∀ d, (bins row invT d).length ≤ candidateCap := by
    intro d
    refine (List.length_filter_le _ _).trans ?_
    rwa [numbered, List.length_map, List.length_zipIdx]
  rw [deepest, List.takeWhile_eq_self_iff.mpr fun d _ => decide_eq_true (fits d), List.range_succ, List.getLast?_concat]

end Support

end Vapi.Backend
