import Vapi.Worker.Decision

/-!
# The line of rows

The queue of a decision engine as the jobs in it and how many rows, counted
from the front, have been scored.
-/

namespace Vapi.Worker

open Proto Engine DecisionEngine

/-- A row's scores as they go on the wire. -/
def wire (x : Engine.RowScores) : Proto.RowScores := ⟨x.logits, x.act⟩

/-- The questions of a decision job, in order. -/
def questions (job : Job) : List EncoderRow :=
  match job.decisionRows with
  | .ok parts => parts.map encoderRow
  | .error _ => []

variable (s : EncoderRow → Engine.RowScores)

/-- A job whose first `n` rows have been scored. -/
def standing (job : Job) (n : Nat) : Pending :=
  ⟨job.requestId, questions job,
    ((questions job).take n).map (fun row => some (wire (s row))) ++ ((questions job).drop n).map fun _ => none,
    job.promptTokens.length⟩

/-- The queue when the first `c` rows of its jobs have been scored. -/
def line : List Job → Nat → List Pending
  | [], _ => []
  | job :: jobs, c => standing s job c :: line jobs (c - (questions job).length)

/-- The rows of the jobs in order, as positions of the queue. -/
def slots : List Job → List (Nat × Nat)
  | [] => []
  | job :: jobs => (List.range (questions job).length).map (fun r => (0, r)) ++ (slots jobs).map fun a => (a.1 + 1, a.2)

def totalRows : List Job → Nat
  | [] => 0
  | job :: jobs => (questions job).length + totalRows jobs

/-- How many of the jobs have a row among the first `c`. -/
def begunBy : List Job → Nat → Nat
  | [], _ => 0
  | job :: jobs, c => if c = 0 then 0 else begunBy jobs (c - (questions job).length) + 1

variable {s} {job : Job} {jobs : List Job} {c n : Nat} {at_ : Nat × Nat}

theorem slots_length (jobs : List Job) : (slots jobs).length = totalRows jobs := by
  induction jobs with
  | nil => rfl
  | cons job jobs ih => simp [slots, totalRows, ih]

theorem filter_le_range (n m : Nat) : (List.range m).filter (n ≤ ·) = (List.range m).drop n := by
  induction m with
  | zero => simp
  | succ m ih =>
    rw [List.range_succ, List.filter_append, ih, List.drop_append, List.length_range]
    congr 1
    by_cases h : n ≤ m
    · simp [h]
    · have : 0 < n - m := by omega
      simp [h]
      omega

theorem standing_slot (i : Nat) :
    (standing s job n).scores[i]? = some none ↔ n ≤ i ∧ i < (questions job).length := by
  simp only [standing]
  rw [List.getElem?_append]
  split
  · rename_i short
    simp only [List.length_map, List.length_take, Nat.lt_min] at short
    have scored : ((questions job).take n).length > i := by
      rw [List.length_take]
      omega
    rw [List.getElem?_map, List.getElem?_eq_getElem scored]
    exact ⟨fun none => by simp at none, fun ⟨le, _⟩ => by omega⟩
  · rename_i long
    simp only [List.length_map, List.length_take, Nat.lt_min] at long
    simp only [List.length_map, List.length_take, List.getElem?_map, List.getElem?_drop, Option.map_eq_some_iff]
    constructor
    · rintro ⟨row, here, -⟩
      have lt := (List.getElem?_eq_some_iff.mp here).1
      omega
    · rintro ⟨le, lt⟩
      have same : n + (i - min n (questions job).length) = i := by omega
      exact ⟨_, by rw [same]; exact List.getElem?_eq_getElem lt, trivial⟩

theorem standing_unanswered : (standing s job n).unanswered = (List.range (questions job).length).drop n := by
  rw [← filter_le_range]
  refine List.filter_congr fun i hi => ?_
  have lt : i < (questions job).length := List.mem_range.mp hi
  have slot : (standing s job n).scores[i]? = some none ↔ _ := standing_slot i
  by_cases h : n ≤ i
  · rw [decide_eq_true h, decide_eq_true (slot.mpr ⟨h, lt⟩)]
  · rw [decide_eq_false h, decide_eq_false fun none => h (slot.mp none).1]

theorem standing_complete : (standing s job n).complete = decide ((questions job).length ≤ n) := by
  unfold Pending.complete
  rw [Bool.eq_iff_iff, List.all_eq_true, decide_eq_true_iff]
  constructor
  · intro all
    by_contra short
    have none : (standing s job n).scores[n]? = some none := (standing_slot n).mpr ⟨Nat.le_refl _, by omega⟩
    exact absurd (all _ (List.mem_of_getElem? none)) (by simp)
  · intro long slot hslot
    simp only [standing, List.drop_eq_nil_of_le long, List.map_nil, List.append_nil, List.mem_map] at hslot
    obtain ⟨row, -, rfl⟩ := hslot
    rfl

theorem unanswered_shift (q : Nat) (queue : List Pending) :
    DecisionEngine.unanswered (q + 1) queue = (DecisionEngine.unanswered q queue).map fun a => (a.1 + 1, a.2) := by
  induction queue generalizing q with
  | nil => rfl
  | cons p rest ih => simp [DecisionEngine.unanswered, ih]

/-- What is left to score is the rows past the count. -/
theorem unanswered_line (jobs : List Job) (c : Nat) :
    DecisionEngine.unanswered 0 (line s jobs c) = (slots jobs).drop c := by
  induction jobs generalizing c with
  | nil => simp [line, DecisionEngine.unanswered, slots]
  | cons job jobs ih =>
    rw [line, DecisionEngine.unanswered, unanswered_shift, ih, standing_unanswered, slots, List.drop_append]
    simp

/-- Scoring the next row moves the count by one. -/
theorem score_line (here : (slots jobs)[c]? = some at_) :
    ∃ row, (∀ n, rowAt (line s jobs n) at_ = some row) ∧ score (line s jobs c) at_ (s row) = line s jobs (c + 1) := by
  induction jobs generalizing c at_ with
  | nil => simp [slots] at here
  | cons job jobs ih =>
    rw [slots, List.getElem?_append] at here
    split at here
    · rename_i lt
      simp only [List.length_map, List.length_range] at lt
      simp only [List.getElem?_map, List.getElem?_range lt, Option.map_some, Option.some.injEq] at here
      subst here
      refine ⟨(questions job)[c], fun n => by simp [rowAt, line, standing, lt], ?_⟩
      have rest : c - (questions job).length = c + 1 - (questions job).length := by omega
      simp only [score, line, List.modify_zero_cons, rest, List.cons.injEq, and_true]
      simp only [standing, Pending.mk.injEq, true_and, and_true]
      rw [List.set_append_right _ _ (by simp)]
      have first : c - (((questions job).take c).map fun row => some (wire (s row))).length = 0 := by
        rw [List.length_map, List.length_take]
        omega
      rw [first, List.drop_eq_getElem_cons lt, List.map_cons, List.set_cons_zero, List.take_succ_eq_append_getElem lt,
        List.map_append, List.append_assoc]
      rfl
    · rename_i ge
      simp only [List.length_map, List.length_range, Nat.not_lt] at ge
      simp only [List.length_map, List.length_range, List.getElem?_map, Option.map_eq_some_iff] at here
      obtain ⟨a, here, rfl⟩ := here
      obtain ⟨row, found, scored⟩ := ih here
      refine ⟨row, fun n => by simpa [rowAt, line] using found (n - (questions job).length), ?_⟩
      have whole : standing s job c = standing s job (c + 1) := by
        simp [standing, List.take_of_length_le ge, List.take_of_length_le (Nat.le_succ_of_le ge),
          List.drop_eq_nil_of_le ge, List.drop_eq_nil_of_le (Nat.le_succ_of_le ge)]
      have next : c + 1 - (questions job).length = c - (questions job).length + 1 := by omega
      simp only [score] at scored
      simp only [score, line, List.modify_succ_cons, whole, next, scored]

/-- Scoring the next rows moves the count past them. -/
theorem scatter_line {picked : List (Nat × Nat)} (next : picked <+: (slots jobs).drop c) :
    ∃ rows, (∀ n, picked.filterMap (rowAt (line s jobs n)) = rows) ∧ rows.length = picked.length ∧
      scatter (line s jobs c) (picked.zip (rows.map s)) = line s jobs (c + picked.length) := by
  induction picked generalizing c with
  | nil => exact ⟨[], fun _ => rfl, rfl, rfl⟩
  | cons at_ picked ih =>
    have lt : c < (slots jobs).length := by
      by_contra short
      rw [List.drop_eq_nil_of_le (by omega)] at next
      exact absurd (List.prefix_nil.mp next) (by simp)
    rw [List.drop_eq_getElem_cons lt, List.cons_prefix_cons] at next
    obtain ⟨same, next⟩ := next
    obtain ⟨row, found, scored⟩ := score_line (s := s) (same ▸ List.getElem?_eq_getElem lt)
    obtain ⟨rows, founds, length, rest⟩ := ih next
    refine ⟨row :: rows, fun n => by rw [List.filterMap_cons_some (found n), founds], by simp [length], ?_⟩
    simp only [List.map_cons, List.zip_cons_cons, scatter, scored, rest, List.length_cons]
    congr 1
    omega

/-- The jobs with a row among the first so many, as the next row joins them. -/
theorem begunBy_succ (asked : ∀ job ∈ jobs, questions job ≠ []) (here : (slots jobs)[c]? = some at_) :
    (at_.2 = 0 ∧ at_.1 = begunBy jobs c ∧ begunBy jobs (c + 1) = begunBy jobs c + 1 ∧
      ∃ job, jobs[at_.1]? = some job ∧ ∀ n ≤ c, (line s jobs n)[at_.1]? = some (standing s job 0)) ∨
    at_.2 ≠ 0 ∧ begunBy jobs (c + 1) = begunBy jobs c := by
  induction jobs generalizing c at_ with
  | nil => simp [slots] at here
  | cons job jobs ih =>
    rw [slots, List.getElem?_append] at here
    split at here
    · rename_i lt
      simp only [List.length_map, List.length_range] at lt
      simp only [List.getElem?_map, List.getElem?_range lt, Option.map_some, Option.some.injEq] at here
      subst here
      have none : ∀ l : List Job, begunBy l 0 = 0 := fun l => by cases l <;> rfl
      have before : c - (questions job).length = 0 := by omega
      have after : c + 1 - (questions job).length = 0 := by omega
      by_cases first : c = 0
      · subst first
        refine .inl ⟨rfl, rfl, by simp [begunBy, after, none], job, rfl, fun n hn => ?_⟩
        obtain rfl := Nat.le_zero.mp hn
        rfl
      · exact .inr ⟨first, by simp [begunBy, first, before, after, none]⟩
    · rename_i ge
      simp only [List.length_map, List.length_range, Nat.not_lt] at ge
      simp only [List.length_map, List.length_range, List.getElem?_map, Option.map_eq_some_iff] at here
      obtain ⟨a, here, rfl⟩ := here
      have some_ := List.length_pos_iff.mpr (asked job (by simp))
      have begun : c ≠ 0 := by omega
      have next : c + 1 - (questions job).length = c - (questions job).length + 1 := by omega
      rcases ih (fun j hj => asked j (by simp [hj])) here with ⟨first, at_, more, j, job, fresh⟩ | ⟨later, same⟩
      · refine .inl ⟨first, by simp [begunBy, begun, at_], by simp [begunBy, begun, next, more], j, job, fun n hn => ?_⟩
        exact fresh (n - (questions _).length) (by omega)
      · exact .inr ⟨later, by simp [begunBy, begun, next, same]⟩

theorem begunBy_zero (jobs : List Job) : begunBy jobs 0 = 0 := by cases jobs <;> rfl

/-- A pass starts the jobs whose first row it carries. -/
theorem startedBy_line {e : DecisionEngine} {picked : List (Nat × Nat)} {c₀ : Nat} (queue : e.queue = line s jobs c₀)
    (asked : ∀ job ∈ jobs, questions job ≠ []) (le : c₀ ≤ c) (next : picked <+: (slots jobs).drop c) :
    begunBy jobs c ≤ begunBy jobs (c + picked.length) ∧
    e.startedBy picked = ((jobs.drop (begunBy jobs c)).take (begunBy jobs (c + picked.length) - begunBy jobs c)).map
      fun job => (job.requestId, .started e.workerId 0) := by
  induction picked generalizing c with
  | nil => exact ⟨Nat.le_refl _, by simp [startedBy]⟩
  | cons at_ picked ih =>
    have lt : c < (slots jobs).length := by
      by_contra short
      rw [List.drop_eq_nil_of_le (by omega)] at next
      exact absurd (List.prefix_nil.mp next) (by simp)
    rw [List.drop_eq_getElem_cons lt, List.cons_prefix_cons] at next
    obtain ⟨same, next⟩ := next
    have here : (slots jobs)[c]? = some at_ := same ▸ List.getElem?_eq_getElem lt
    obtain ⟨mono, rest⟩ := ih (c := c + 1) (by omega) next
    have count : c + (at_ :: picked).length = c + 1 + picked.length := by
      rw [List.length_cons]
      omega
    have split : e.startedBy (at_ :: picked) = e.startedBy [at_] ++ e.startedBy picked :=
      List.filterMap_append (l := [at_])
    rw [split, rest, count]
    rcases begunBy_succ (s := s) asked here with ⟨first, q, more, job, job_, fresh⟩ | ⟨later, still⟩
    · rw [more] at mono ⊢
      have lt' := (List.getElem?_eq_some_iff.mp job_).1
      have this_ : e.startedBy [at_] = [(job.requestId, .started e.workerId 0)] := by
        simp [startedBy, queue, fresh c₀ le, standing, first]
      have more' : begunBy jobs (c + 1 + picked.length) - begunBy jobs c =
          begunBy jobs (c + 1 + picked.length) - (begunBy jobs c + 1) + 1 := by omega
      refine ⟨by omega, ?_⟩
      rw [this_, more', ← q, List.drop_eq_getElem_cons lt', List.take_succ_cons, List.map_cons]
      rw [List.getElem?_eq_getElem lt', Option.some.injEq] at job_
      rw [job_]
      rfl
    · have this_ : e.startedBy [at_] = [] := by
        have other : (at_.2 = 0) = False := eq_false later
        simp [startedBy, other]
      rw [this_, ← still]
      exact ⟨mono, rfl⟩

/-- Where a count stands: at the front of a line, or within its first job. -/
def Stands (jobs : List Job) (c : Nat) : Prop := c = 0 ∨ ∃ job rest, jobs = job :: rest ∧ c < (questions job).length

/-- The jobs that are answered are the ones the count has passed. -/
theorem answerComplete_line (asked : ∀ job ∈ jobs, questions job ≠ []) (within : c ≤ totalRows jobs) :
    ∃ done rest c', jobs = done ++ rest ∧ c = totalRows done + c' ∧ Stands rest c' ∧
      begunBy jobs c = done.length + begunBy rest c' ∧
      answerComplete (line s jobs c) = (line s rest c',
        done.map fun job =>
          (job.requestId, .decided ((questions job).map fun row => wire (s row)) job.promptTokens.length),
        done.map (·.requestId)) := by
  induction jobs generalizing c with
  | nil => exact ⟨[], [], 0, rfl, by simpa [totalRows] using within, .inl rfl, rfl, rfl⟩
  | cons job jobs ih =>
    have some_ := List.length_pos_iff.mpr (asked job (by simp))
    have asked' : ∀ job ∈ jobs, questions job ≠ [] := fun j hj => asked j (by simp [hj])
    rw [totalRows] at within
    by_cases whole : (questions job).length ≤ c
    · obtain ⟨done, rest, c', rfl, sum, stands, begun, answered⟩ := ih asked' (c := c - (questions job).length) (by omega)
      have first : c ≠ 0 := by omega
      refine ⟨job :: done, rest, c', rfl, by rw [totalRows]; omega, stands, ?_, ?_⟩
      · simp only [begunBy, first, ↓reduceIte, begun, List.length_cons]
        omega
      · have slots : ((standing s job c).scores.filterMap fun x => x) = (questions job).map fun row => wire (s row) := by
          simp [standing, List.take_of_length_le whole, List.drop_eq_nil_of_le whole, List.filterMap_map,
            Function.comp_def]
        rw [line, answerComplete, answered]
        simp only [standing_complete, decide_eq_true whole, ↓reduceIte, slots]
        rfl
    · have before : c - (questions job).length = 0 := by omega
      obtain ⟨done, rest, c', split, sum, stands, begun, answered⟩ := ih asked' (Nat.zero_le _)
      have none : done = [] := by
        cases done with
        | nil => rfl
        | cons j done =>
          have := List.length_pos_iff.mpr (asked' j (by simp [split]))
          rw [totalRows] at sum
          omega
      subst none
      obtain rfl : c' = 0 := by simpa [totalRows] using sum.symm
      rw [List.nil_append] at split
      subst split
      refine ⟨[], job :: jobs, c, rfl, by simp [totalRows], .inr ⟨job, jobs, rfl, by omega⟩, by simp, ?_⟩
      rw [line, answerComplete, before, answered]
      simp [standing_complete, whole]

/-- The rows a pass takes are the next ones, at least one, and within the budget when there are more. -/
theorem selectFrom_spec (e : DecisionEngine) (picked cands : List (Nat × Nat))
    (fits : picked.length ≤ 1 ∨ picked.length ≤ e.maxRows ∧
      picked.length * (EncoderBatch.maxLen ⟨picked.filterMap (rowAt e.queue)⟩) ≤ e.maxBatchedTokens)
    (rows : ∀ at_ ∈ cands, (rowAt e.queue at_).isSome) :
    ∃ more, e.selectFrom picked (EncoderBatch.maxLen ⟨picked.filterMap (rowAt e.queue)⟩) cands = picked ++ more ∧
      more <+: cands ∧ (picked = [] → cands ≠ [] → more ≠ []) ∧
      ((picked ++ more).length ≤ 1 ∨ (picked ++ more).length ≤ e.maxRows ∧
        (picked ++ more).length * (EncoderBatch.maxLen ⟨(picked ++ more).filterMap (rowAt e.queue)⟩) ≤
          e.maxBatchedTokens) := by
  induction cands generalizing picked with
  | nil => exact ⟨[], by simp [selectFrom], List.prefix_refl _, by simp, by simpa using fits⟩
  | cons at_ cands ih =>
    obtain ⟨row, found⟩ := Option.isSome_iff_exists.mp (rows at_ (by simp))
    have wider : max (EncoderBatch.maxLen ⟨picked.filterMap (rowAt e.queue)⟩) row.len =
        EncoderBatch.maxLen ⟨(picked ++ [at_]).filterMap (rowAt e.queue)⟩ := by
      rw [List.filterMap_append, List.filterMap_cons_some found, List.filterMap_nil, EncoderBatch.maxLen_concat]
    rw [selectFrom]
    simp only [found, Option.map_some, Option.getD_some]
    split
    · rename_i full
      exact ⟨[], by simp, by simp, fun none => absurd none full.1, by simpa using fits⟩
    · rename_i room
      rw [wider] at room ⊢
      have fits' : (picked ++ [at_]).length ≤ 1 ∨ (picked ++ [at_]).length ≤ e.maxRows ∧
          (picked ++ [at_]).length * (EncoderBatch.maxLen ⟨(picked ++ [at_]).filterMap (rowAt e.queue)⟩) ≤
            e.maxBatchedTokens := by
        rw [List.length_append, List.length_singleton]
        by_cases none : picked = []
        · exact .inl (by simp [none])
        · have room := not_or.mp (not_and.mp room none)
          exact .inr ⟨by omega, by omega⟩
      obtain ⟨more, chosen, next, -, bounded⟩ := ih (picked ++ [at_]) fits' fun a ha => rows a (by simp [ha])
      refine ⟨at_ :: more, by rw [chosen, List.append_assoc]; rfl, List.cons_prefix_cons.mpr ⟨rfl, next⟩, by simp, ?_⟩
      rw [List.append_assoc] at bounded
      exact bounded

end Vapi.Worker
