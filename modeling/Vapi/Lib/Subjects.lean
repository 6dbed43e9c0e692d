import Mathlib.Data.List.Basic

/-!
# Subjects

Names made of tokens between dots, and patterns of them: `*` stands for any
token, and at the end `>` for one or more.
-/

namespace Subject

def tokens (s : String) : List (List Char) := s.toList.splitOnP (· == '.')

def fits : List (List Char) → List (List Char) → Bool
  | [], ts => ts.isEmpty
  | _ :: _, [] => false
  | p :: ps, t :: ts => (p = ['>'] && ps.isEmpty) || ((p = ['*'] || p = t) && fits ps ts)

/-- Whether what is published on a subject comes to a subscription for the pattern. -/
def captures (pattern subject : String) : Bool := fits (tokens pattern) (tokens subject)

/-- A token that stands for itself. -/
def Plain (t : List Char) : Prop := t ≠ ['*'] ∧ t ≠ ['>']

theorem tokens_dot (a b : String) : tokens (a ++ "." ++ b) = tokens a ++ tokens b := by
  have split : (a.toList ++ '.' :: b.toList).splitOnP (· == '.') = _ := List.splitOnP_append_cons _ _ rfl
  simpa [tokens] using split

theorem tokens_single {s : String} (whole : '.' ∉ s.toList) : tokens s = [s.toList] := by
  refine List.splitOnP_eq_singleton fun c mem => ?_
  exact beq_eq_false_iff_ne.mpr fun dot => whole (dot ▸ mem)

theorem fits_plain {ps ts : List (List Char)} (plain : ∀ p ∈ ps, Plain p) : fits ps ts = true ↔ ps = ts := by
  induction ps generalizing ts with
  | nil => cases ts <;> simp [fits]
  | cons p ps ih =>
    obtain ⟨one, more⟩ := plain p (by simp)
    cases ts with
    | nil => simp [fits]
    | cons t ts =>
      have rest : fits ps ts = true ↔ ps = ts := ih fun q mem => plain q (by simp [mem])
      simp [fits, one, more, rest]

theorem fits_rest {ps ts : List (List Char)} (plain : ∀ p ∈ ps, Plain p) :
    fits (ps ++ [['>']]) ts = true ↔ ∃ t more, ts = ps ++ t :: more := by
  induction ps generalizing ts with
  | nil => cases ts <;> simp [fits]
  | cons p ps ih =>
    obtain ⟨one, rest⟩ := plain p (by simp)
    cases ts with
    | nil => simp [fits]
    | cons t ts =>
      have step : fits (ps ++ [['>']]) ts = true ↔ _ := ih fun q mem => plain q (by simp [mem])
      simp only [List.cons_append, fits, rest, one, decide_false, Bool.false_and, Bool.false_or, Bool.and_eq_true,
        decide_eq_true_eq, step]
      constructor
      · rintro ⟨rfl, t', more, rfl⟩
        exact ⟨t', more, rfl⟩
      · rintro ⟨t', more, is⟩
        obtain ⟨rfl, rfl⟩ := List.cons.inj is
        exact ⟨rfl, t', more, rfl⟩

/-- What comes after the last mark. -/
theorem split_at_last {α : Type*} {m : α} {a a' d d' : List α} (free : m ∉ d) (free' : m ∉ d')
    (same : a ++ m :: d = a' ++ m :: d') : a = a' ∧ d = d' := by
  rcases List.append_eq_append_iff.mp same with ⟨c, rfl, rest⟩ | ⟨c, rfl, rest⟩
  · cases c with
    | nil => exact ⟨(List.append_nil _).symm, (List.cons.inj rest).2⟩
    | cons x c => exact absurd ((List.cons.inj rest).2 ▸ by simp) free
  · cases c with
    | nil => exact ⟨List.append_nil _, (List.cons.inj rest).2.symm⟩
    | cons x c => exact absurd ((List.cons.inj rest).2 ▸ by simp) free'

/-- A subject that stands for itself captures itself and no other. -/
theorem captures_plain {pattern subject : String} (plain : ∀ p ∈ tokens pattern, Plain p) :
    captures pattern subject = true ↔ tokens pattern = tokens subject :=
  fits_plain plain

end Subject
