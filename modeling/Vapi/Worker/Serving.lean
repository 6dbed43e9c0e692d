import Vapi.Lib.Desk
import Vapi.Worker.Line

/-!
# The engine as a desk

A decision engine serves its jobs as a desk does: in the order they came, each
begun before it is answered.
-/

namespace Vapi.Worker

open Proto Engine DecisionEngine Transition

/-- The answer a job is owed. -/
def Settles (s : EncoderRow → Engine.RowScores) (job : Job) (delta : Delta) : Prop :=
  delta = .decided ((questions job).map fun row => wire (s row)) job.promptTokens.length

def Dismisses (delta : Delta) : Prop := ∃ message, delta = .failed message

abbrev Served (s : EncoderRow → Engine.RowScores) : Desk Job → Desk.Entry RequestId Job Delta → Desk Job → Prop :=
  Desk.Step Job.requestId (Settles s) Dismisses

def entry : RequestId × Delta → Desk.Entry RequestId Job Delta
  | (rid, .started _ _) => .start rid
  | (rid, delta) => .answer rid delta

/-- What a call does at the desk. -/
def entries (e : DecisionEngine) : Call → List (Desk.Entry RequestId Job Delta)
  | .admitJob job => if (e.admitJob job).isOk then [.arrive job] else []
  | .cancel rid => [.leave rid]
  | .step forward => (e.exec (.step forward)).2.map entry
  | .failAll message => (e.exec (.failAll message)).2.map entry

/-- The jobs of an engine, and how many of their rows have been scored. -/
structure Serving (s : EncoderRow → Engine.RowScores) (e : DecisionEngine) (jobs : List Job) (c : Nat) : Prop where
  queue : e.queue = line s jobs c
  asked : ∀ job ∈ jobs, questions job ≠ []
  stands : Stands jobs c

def desk (jobs : List Job) (c : Nat) : Desk Job := ⟨jobs.take (begunBy jobs c), jobs.drop (begunBy jobs c)⟩

/-- A backend scores each row by itself, or fails. -/
def PerRow (s : EncoderRow → Engine.RowScores) (forward : EncoderBatch → Except Error (List Engine.RowScores)) : Prop :=
  ∀ batch, forward batch = .ok (batch.rows.map s) ∨ ∃ err, forward batch = .error err

variable {s : EncoderRow → Engine.RowScores} {e : DecisionEngine} {jobs : List Job} {job : Job} {c : Nat}

theorem Stands.within (h : Stands jobs c) : c ≤ totalRows jobs := by
  rcases h with rfl | ⟨job, rest, rfl, lt⟩
  · exact Nat.zero_le _
  · rw [totalRows]
    omega

theorem line_zero (s : EncoderRow → Engine.RowScores) (jobs : List Job) :
    line s jobs 0 = jobs.map fun job => standing s job 0 := by
  induction jobs with
  | nil => rfl
  | cons job jobs ih => rw [line, Nat.zero_sub, ih, List.map_cons]

theorem line_concat (within : c ≤ totalRows jobs) : line s (jobs ++ [job]) c = line s jobs c ++ [standing s job 0] := by
  induction jobs generalizing c with
  | nil =>
    obtain rfl := Nat.le_zero.mp within
    rfl
  | cons j jobs ih =>
    rw [totalRows] at within
    rw [List.cons_append, line, line, ih (by omega), List.cons_append]

theorem begunBy_concat (within : c ≤ totalRows jobs) : begunBy (jobs ++ [job]) c = begunBy jobs c := by
  induction jobs generalizing c with
  | nil =>
    obtain rfl := Nat.le_zero.mp within
    rfl
  | cons j jobs ih =>
    rw [totalRows] at within
    rw [List.cons_append, begunBy, begunBy, ih (by omega)]

theorem begunBy_le (jobs : List Job) (c : Nat) : begunBy jobs c ≤ jobs.length := by
  induction jobs generalizing c with
  | nil => exact Nat.le_refl _
  | cons j jobs ih =>
    rw [begunBy]
    split
    · exact Nat.zero_le _
    · exact Nat.succ_le_succ (ih _)

theorem desk_zero (jobs : List Job) : desk jobs 0 = ⟨[], jobs⟩ := by
  simp [desk, begunBy_zero]

/-- Within the first job, that job alone is begun. -/
theorem desk_within (some_ : c ≠ 0) (lt : c < (questions job).length) : desk (job :: jobs) c = ⟨[job], jobs⟩ := by
  have rest : c - (questions job).length = 0 := by omega
  simp [desk, begunBy, some_, rest, begunBy_zero]

theorem line_within (lt : c < (questions job).length) :
    line s (job :: jobs) c = standing s job c :: jobs.map fun job => standing s job 0 := by
  have rest : c - (questions job).length = 0 := by omega
  rw [line, rest, line_zero]

theorem line_requestId (jobs : List Job) (c : Nat) : (line s jobs c).map (·.requestId) = jobs.map Job.requestId := by
  induction jobs generalizing c with
  | nil => rfl
  | cons job jobs ih => simp [line, ih, standing]

theorem Serving.admitJob (h : Serving s e jobs c) {e' : DecisionEngine} (ok : e.admitJob job = .ok e') :
    Serving s e' (jobs ++ [job]) c := by
  unfold DecisionEngine.admitJob at ok
  split at ok
  · cases ok
  · cases parts : job.decisionRows with
    | error why => simp [parts] at ok
    | ok rows =>
      simp only [parts] at ok
      split at ok
      · cases ok
      · rename_i asked
        split at ok
        · cases ok
        · obtain rfl := Except.ok.inj ok
          have is : questions job = rows.map encoderRow := by rw [questions, parts]
          refine ⟨?_, fun j hj => ?_, ?_⟩
          · rw [line_concat h.stands.within, ← h.queue]
            simp [standing, is]
          · rcases List.mem_append.mp hj with hj | hj
            · exact h.asked j hj
            · rw [List.mem_singleton.mp hj, is]
              simpa using asked
          · rcases h.stands with none | ⟨j, rest, split, lt⟩
            · exact .inl none
            · exact .inr ⟨j, rest ++ [job], by rw [split]; rfl, lt⟩

theorem totalRows_append (jobs more : List Job) : totalRows (jobs ++ more) = totalRows jobs + totalRows more := by
  induction jobs with
  | nil => simp [totalRows]
  | cons job jobs ih =>
    simp only [List.cons_append, totalRows, ih]
    omega

theorem totalRows_filter_le (keep : Job → Bool) (jobs : List Job) : totalRows (jobs.filter keep) ≤ totalRows jobs := by
  induction jobs with
  | nil => exact Nat.le_refl _
  | cons job jobs ih =>
    rw [List.filter_cons]
    split <;> simp only [totalRows] <;> omega

/-- Those who leave take their rows with them, scored or not. -/
theorem Serving.cancel (h : Serving s e jobs c) (rid : RequestId) :
    ∃ c', Serving s (e.cancel rid).1 (jobs.filter (·.requestId ≠ rid)) c' ∧
      Desk.Step Job.requestId (Settles s) Dismisses (desk jobs c) (.leave rid)
        (desk (jobs.filter (·.requestId ≠ rid)) c') ∧
      ∀ old new, jobs = old ++ new → old ≠ [] →
        totalRows (old.filter (·.requestId ≠ rid)) - c' ≤ totalRows old - c := by
  have rest : ∀ l : List Job, (l.map fun job => standing s job 0).filter (·.requestId ≠ rid) =
      (l.filter (·.requestId ≠ rid)).map fun job => standing s job 0 := fun l => by
    rw [List.filter_map]
    rfl
  have asked : ∀ job ∈ jobs.filter (·.requestId ≠ rid), questions job ≠ [] := fun j hj =>
    h.asked j (List.mem_of_mem_filter hj)
  by_cases none : c = 0
  · subst none
    refine ⟨0, ⟨?_, asked, .inl rfl⟩, ?_, fun old new _ _ => totalRows_filter_le _ old⟩
    · change e.queue.filter _ = _
      rw [h.queue, line_zero, rest, line_zero]
    · rw [desk_zero, desk_zero]
      exact .leave [] jobs rid
  · obtain ⟨job, jobs', rfl, lt⟩ := h.stands.resolve_left none
    have queue : (e.cancel rid).1.queue = (line s (job :: jobs') c).filter (·.requestId ≠ rid) := by
      rw [← h.queue]
      rfl
    rw [line_within lt, List.filter_cons, rest] at queue
    have leave : Served s ⟨[job], jobs'⟩ (.leave rid) _ := .leave [job] jobs' rid
    rw [desk_within none lt]
    have fewer : ∀ old new, job :: jobs' = old ++ new → old ≠ [] → ∃ old', old = job :: old' := by
      intro old new split some_
      cases old with
      | nil => exact absurd rfl some_
      | cons j old' => exact ⟨old', by rw [(List.cons.inj split).1]⟩
    by_cases its : job.requestId = rid
    · have drop : (job :: jobs').filter (·.requestId ≠ rid) = jobs'.filter (·.requestId ≠ rid) := by simp [its]
      refine ⟨0, ⟨?_, asked, .inl rfl⟩, ?_, fun old new split some_ => ?_⟩
      · rw [queue, line_zero, drop]
        simp [standing, its]
      · rw [desk_zero, drop]
        simpa [its] using leave
      · obtain ⟨old', rfl⟩ := fewer old new split some_
        have less := totalRows_filter_le (·.requestId ≠ rid) old'
        simp only [its, List.filter_cons, totalRows, ne_eq, not_true_eq_false, decide_false, Bool.false_eq_true,
          ↓reduceIte] at less ⊢
        omega
    · have keep : (job :: jobs').filter (·.requestId ≠ rid) = job :: jobs'.filter (·.requestId ≠ rid) := by simp [its]
      refine ⟨c, ⟨?_, asked, ?_⟩, ?_, fun old new _ _ => ?_⟩
      · rw [queue, keep, line_within lt]
        simp [standing, its]
      · rw [keep]
        exact .inr ⟨_, _, rfl, lt⟩
      · rw [keep, desk_within none lt]
        simpa [its] using leave
      · have less := totalRows_filter_le (·.requestId ≠ rid) old
        omega

theorem Serving.failAll (h : Serving s e jobs c) (message : String) :
    Serving s (e.failAll message).1 [] 0 ∧
      Run (Served s) (desk jobs c) ((e.failAll message).2.events.map entry) (desk [] 0) := by
  refine ⟨⟨rfl, by simp, .inl rfl⟩, ?_⟩
  have told : (e.failAll message).2.events.map entry =
      jobs.map fun job => (.answer job.requestId (.failed message) : Desk.Entry RequestId Job Delta) := by
    change (e.queue.map fun p => (p.requestId, Delta.failed message)).map entry = _
    have each := congrArg (List.map fun rid => (.answer rid (.failed message) : Desk.Entry RequestId Job Delta))
      (line_requestId (s := s) jobs c)
    rw [List.map_map, List.map_map] at each
    rw [h.queue, List.map_map]
    exact each
  rw [told, desk_zero]
  have run : Run (Served s) _ _ _ := Desk.Run.dismiss_all (.failed message) ⟨message, rfl⟩ (desk jobs c).begun (desk jobs c).waiting
  rw [show (desk jobs c).begun ++ (desk jobs c).waiting = jobs from List.take_append_drop _ _] at run
  exact run

/-- The rows a pass takes: the next ones, within the budget. -/
theorem Serving.select (h : Serving s e jobs c) :
    e.select <+: (slots jobs).drop c ∧ (e.queue ≠ [] → e.select ≠ []) ∧
      (e.select.length ≤ 1 ∨ e.select.length ≤ e.maxRows ∧
        e.select.length * (EncoderBatch.maxLen ⟨e.select.filterMap (rowAt e.queue)⟩) ≤ e.maxBatchedTokens) := by
  have rows : ∀ at_ ∈ unanswered 0 e.queue, (rowAt e.queue at_).isSome := by
    intro at_ mem
    rw [h.queue, unanswered_line] at mem
    obtain ⟨i, here⟩ := List.mem_iff_getElem?.mp (List.mem_of_mem_drop mem)
    obtain ⟨row, found, -⟩ := score_line (s := s) here
    rw [h.queue, found]
    rfl
  obtain ⟨more, chosen, next, some_, bounded⟩ := selectFrom_spec e [] (unanswered 0 e.queue) (.inl (by simp)) rows
  have same : e.select = more := chosen
  rw [same]
  refine ⟨?_, fun busy => some_ rfl fun none => ?_, bounded⟩
  · rwa [h.queue, unanswered_line] at next
  · -- a job that is waiting has a row that is not scored
    rw [h.queue, unanswered_line, List.drop_eq_nil_iff, slots_length] at none
    rw [h.queue] at busy
    cases jobs with
    | nil => exact busy rfl
    | cons job jobs =>
      have pos := List.length_pos_iff.mpr (h.asked job (by simp))
      rw [totalRows] at none
      rcases h.stands with rfl | ⟨j, rest, split, lt⟩
      · omega
      · obtain ⟨rfl, rfl⟩ := List.cons.inj split
        omega

/-- A pass that completes scores the next rows, announces what it starts and answers what it completes. -/
theorem Serving.step (h : Serving s e jobs c) {forward : EncoderBatch → Except Error (List Engine.RowScores)}
    (perRow : PerRow s forward) {e' : DecisionEngine} {out : StepOutput} (ok : e.step forward = .ok (e', out)) :
    ∃ done rest c', jobs = done ++ rest ∧ c + e.select.length = totalRows done + c' ∧ Serving s e' rest c' ∧
      (out.didWork = true ↔ e.queue ≠ []) ∧ Run (Served s) (desk jobs c) (out.events.map entry) (desk rest c') := by
  obtain ⟨next, busy, -⟩ := h.select
  simp only [DecisionEngine.step] at ok
  split at ok
  · rename_i none
    obtain ⟨rfl, rfl⟩ := Prod.mk.inj (Except.ok.inj ok)
    refine ⟨[], jobs, c, rfl, by simp [none, totalRows], h, ⟨fun work => (by cases work), fun some_ => ?_⟩, .nil⟩
    exact absurd none (busy some_)
  · rename_i some_
    obtain ⟨rows, found, length, scored⟩ := scatter_line (s := s) next
    have batch : e.select.filterMap (rowAt e.queue) = rows := by rw [h.queue, found]
    simp only [batch] at ok
    rcases perRow ⟨rows⟩ with answers | ⟨err, failed⟩
    · rw [answers] at ok
      simp only [List.length_map, EncoderBatch.numRows, ne_eq, not_true_eq_false, ↓reduceIte, h.queue, scored] at ok
      have within : c + e.select.length ≤ totalRows jobs := by
        have := next.length_le
        have := h.stands.within
        rw [List.length_drop, slots_length] at *
        omega
      obtain ⟨done, rest, c', rfl, sum, stands, begun, answered⟩ := answerComplete_line (s := s) h.asked within
      obtain ⟨mono, started⟩ := startedBy_line h.queue h.asked (Nat.le_refl c) next
      rw [answered] at ok
      obtain ⟨rfl, rfl⟩ := Prod.mk.inj (Except.ok.inj ok)
      refine ⟨done, rest, c', rfl, sum, ⟨rfl, fun j hj => h.asked j (by simp [hj]), stands⟩, ⟨fun _ none => ?_, fun _ => rfl⟩, ?_⟩
      · rw [DecisionEngine.select, none] at some_
        exact some_ rfl
      · have starts : Run (Served s) _ _ _ := Desk.Run.start_all
          ((done ++ rest).take (begunBy (done ++ rest) c))
          (((done ++ rest).drop (begunBy (done ++ rest) c)).take
            (begunBy (done ++ rest) (c + e.select.length) - begunBy (done ++ rest) c))
          (((done ++ rest).drop (begunBy (done ++ rest) c)).drop
            (begunBy (done ++ rest) (c + e.select.length) - begunBy (done ++ rest) c))
        rw [List.take_append_drop, ← List.take_add, List.drop_drop, Nat.add_sub_cancel' mono, begun,
          List.take_length_add_append, List.drop_length_add_append] at starts
        let answer := fun job : Job => Delta.decided ((questions job).map fun row => wire (s row)) job.promptTokens.length
        have right : ∀ job ∈ done, Settles s job (answer job) := fun job _ => rfl
        have settles : Run (Served s) _ _ _ :=
          Desk.Run.settle_all answer done (rest.take (begunBy rest c')) (rest.drop (begunBy rest c')) right
        have whole := starts.append settles
        simp only [started, begun, List.map_append, List.map_map]
        exact whole
    · rw [failed] at ok
      cases ok

end Vapi.Worker
