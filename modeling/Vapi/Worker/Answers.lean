import Vapi.Worker.Serving

/-!
# Every question answered, once

Whole runs of a decision engine, and what is told of one request along them.
-/

namespace Vapi.Worker

open Proto Engine DecisionEngine Transition

/-- The deltas of one request. -/
def told (rid : RequestId) (events : List (RequestId × Delta)) : List Delta :=
  events.filterMap fun ev => if ev.1 = rid then some ev.2 else none

/-- What the calls of a run do at the desk. -/
def record (e : DecisionEngine) : List Call → List (Desk.Entry RequestId Job Delta)
  | [] => []
  | call :: calls => entries e call ++ record (e.exec call).1 calls

/-- The steps among some calls are passes of a backend that scores each row by itself. -/
def Scoring (s : EncoderRow → Engine.RowScores) (calls : List Call) : Prop :=
  ∀ forward, Call.step forward ∈ calls → PerRow s forward

/-- What a request that is admitted is owed: its scores, or word that it failed. -/
def Owed (s : EncoderRow → Engine.RowScores) (job : Job) (delta : Delta) : Prop := Settles s job delta ∨ Dismisses delta

variable {s : EncoderRow → Engine.RowScores} {e : DecisionEngine} {jobs : List Job} {c : Nat} {rid : RequestId}
  {call : Call} {calls : List Call}

theorem Scoring.tail (h : Scoring s (call :: calls)) : Scoring s calls := fun forward mem => h forward (by simp [mem])

theorem told_append (es fs : List (RequestId × Delta)) : told rid (es ++ fs) = told rid es ++ told rid fs :=
  List.filterMap_append

theorem exec_step (forward : EncoderBatch → Except Error (List Engine.RowScores)) :
    (∃ e' out, e.step forward = .ok (e', out) ∧ e.exec (.step forward) = (e', out.events)) ∨
    (∃ err, e.step forward = .error err) ∧ e.exec (.step forward) = (e, []) := by
  cases ok : e.step forward with
  | ok r => exact .inl ⟨r.1, r.2, rfl, by simp [exec, ok]⟩
  | error err => exact .inr ⟨⟨err, rfl⟩, by simp [exec, ok]⟩

/-- One call keeps the line and is steps of the desk. -/
theorem Serving.exec (h : Serving s e jobs c) (scoring : Scoring s [call]) :
    ∃ jobs' c', Serving s (e.exec call).1 jobs' c' ∧ Run (Served s) (desk jobs c) (entries e call) (desk jobs' c') := by
  cases call with
  | admitJob job =>
    cases ok : e.admitJob job with
    | error err =>
      have same : e.exec (.admitJob job) = (e, []) := by simp [DecisionEngine.exec, ok]
      have none : entries e (.admitJob job) = [] := by simp [entries, ok, Except.isOk, Except.toBool]
      rw [same, none]
      exact ⟨jobs, c, h, .nil⟩
    | ok e' =>
      have same : e.exec (.admitJob job) = (e', []) := by simp [DecisionEngine.exec, ok]
      have one : entries e (.admitJob job) = [.arrive job] := by simp [entries, ok, Except.isOk, Except.toBool]
      rw [same, one]
      refine ⟨jobs ++ [job], c, h.admitJob ok, Run.nil.snoc ?_⟩
      have at_ : desk (jobs ++ [job]) c = ⟨jobs.take (begunBy jobs c), jobs.drop (begunBy jobs c) ++ [job]⟩ := by
        rw [desk, begunBy_concat h.stands.within, List.take_append_of_le_length (begunBy_le ..),
          List.drop_append_of_le_length (begunBy_le ..)]
      rw [at_]
      exact .arrive ..
  | step forward =>
    change ∃ jobs' c', _ ∧ Run _ _ ((e.exec (.step forward)).2.map entry) _
    rcases exec_step (e := e) forward with ⟨e', out, ok, same⟩ | ⟨-, same⟩
    · obtain ⟨done, rest, c', -, -, serving, -, run⟩ := h.step (scoring forward (by simp)) ok
      rw [same]
      exact ⟨rest, c', serving, run⟩
    · rw [same]
      exact ⟨jobs, c, h, .nil⟩
  | cancel rid =>
    obtain ⟨c', serving, leave, -⟩ := h.cancel rid
    exact ⟨_, c', serving, Run.nil.snoc leave⟩
  | failAll message =>
    obtain ⟨serving, run⟩ := h.failAll message
    exact ⟨[], 0, serving, run⟩

theorem Serving.run (h : Serving s e jobs c) (scoring : Scoring s calls) :
    ∃ jobs' c', Serving s (e.after calls) jobs' c' ∧ Run (Served s) (desk jobs c) (record e calls) (desk jobs' c') := by
  induction calls generalizing e jobs c with
  | nil => exact ⟨jobs, c, h, .nil⟩
  | cons call calls ih =>
    have scoring₁ : Scoring s [call] := fun forward mem => scoring forward (by simp_all)
    obtain ⟨jobs₁, c₁, h₁, run₁⟩ := h.exec scoring₁
    obtain ⟨jobs₂, c₂, h₂, run₂⟩ := ih h₁ scoring.tail
    exact ⟨jobs₂, c₂, h₂, run₁.append run₂⟩

def isEvent : Desk.Entry RequestId Job Delta → Bool
  | .start _ | .answer .. => true
  | _ => false

theorem isEvent_entry (ev : RequestId × Delta) : isEvent (entry ev) = true := by
  obtain ⟨r, delta⟩ := ev
  cases delta <;> rfl

theorem filter_map_entry (evs : List (RequestId × Delta)) : (evs.map entry).filter isEvent = evs.map entry :=
  List.filter_eq_self.mpr fun x hx => by
    obtain ⟨ev, -, rfl⟩ := List.mem_map.mp hx
    exact isEvent_entry ev

/-- The events of a record are the deltas of the run. -/
theorem record_events (e : DecisionEngine) (calls : List Call) :
    (record e calls).filter isEvent = (e.events calls).map entry := by
  induction calls generalizing e with
  | nil => rfl
  | cons call calls ih =>
    rw [record, List.filter_append, ih, DecisionEngine.events, List.map_append]
    congr 1
    cases call with
    | admitJob job => cases ok : e.admitJob job <;> simp [entries, DecisionEngine.exec, ok, isEvent, Except.isOk, Except.toBool]
    | step forward => exact filter_map_entry _
    | cancel rid => rfl
    | failAll message => exact filter_map_entry _

theorem record_arrivals (e : DecisionEngine) (calls : List Call) :
    Desk.arrivals Job.requestId rid (record e calls) = (e.admitted calls).filter (·.requestId = rid) := by
  induction calls generalizing e with
  | nil => rfl
  | cons call calls ih =>
    have quiet : ∀ evs : List (RequestId × Delta), Desk.arrivals Job.requestId rid (evs.map entry) = [] := by
      intro evs
      refine List.filterMap_eq_nil_iff.mpr fun x hx => ?_
      obtain ⟨⟨r, delta⟩, -, rfl⟩ := List.mem_map.mp hx
      cases delta <;> rfl
    have split : Desk.arrivals Job.requestId rid (record e (call :: calls)) =
        Desk.arrivals Job.requestId rid (entries e call) ++ Desk.arrivals Job.requestId rid (record (e.exec call).1 calls) :=
      List.filterMap_append
    rw [split, ih, DecisionEngine.admitted, List.filter_append]
    congr 1
    cases call with
    | admitJob job =>
      cases ok : e.admitJob job with
      | error err => simp [entries, admits, ok, Except.isOk, Except.toBool, Desk.arrivals]
      | ok e' =>
        by_cases same : job.requestId = rid <;>
          simp [entries, admits, ok, Except.isOk, Except.toBool, Desk.arrivals, same]
    | step forward => exact quiet _
    | cancel r => rfl
    | failAll message => exact quiet _

theorem record_leave (h : Desk.Entry.leave rid ∈ record e calls) : Call.cancel rid ∈ calls := by
  induction calls generalizing e with
  | nil => cases h
  | cons call calls ih =>
    have quiet : ∀ evs : List (RequestId × Delta), Desk.Entry.leave rid ∉ evs.map entry := by
      intro evs mem
      obtain ⟨⟨r, delta⟩, -, same⟩ := List.mem_map.mp mem
      cases delta <;> cases same
    rcases List.mem_append.mp h with here | later
    · cases call with
      | admitJob job => cases ok : e.admitJob job <;> simp [entries, ok, Except.isOk, Except.toBool] at here
      | step forward => exact absurd here (quiet _)
      | cancel r =>
        obtain ⟨rfl⟩ := List.mem_singleton.mp here
        simp
      | failAll message => exact absurd here (quiet _)
    · exact List.mem_cons_of_mem _ (ih later)

theorem answers_filter (h : List (Desk.Entry RequestId Job Delta)) :
    Desk.answers rid (h.filter isEvent) = Desk.answers rid h := by
  refine List.filterMap_filter.trans (List.filterMap_congr fun x _ => ?_)
  cases x <;> rfl

theorem starts_filter (h : List (Desk.Entry RequestId Job Delta)) :
    Desk.starts rid (h.filter isEvent) = Desk.starts rid h := by
  refine List.filterMap_filter.trans (List.filterMap_congr fun x _ => ?_)
  cases x <;> rfl

theorem answers_entry (evs : List (RequestId × Delta)) :
    Desk.answers rid (evs.map entry) = (told rid evs).filter (!·.isStarted) := by
  induction evs with
  | nil => rfl
  | cons ev evs ih =>
    obtain ⟨r, delta⟩ := ev
    simp only [Desk.answers, told, List.filterMap_map] at ih
    by_cases same : r = rid <;>
      cases delta <;> simp [Desk.answers, told, entry, same, ih, Delta.isStarted]

theorem starts_entry (evs : List (RequestId × Delta)) :
    (Desk.starts rid (evs.map entry)).length = ((told rid evs).filter Delta.isStarted).length := by
  induction evs with
  | nil => rfl
  | cons ev evs ih =>
    obtain ⟨r, delta⟩ := ev
    simp only [Desk.starts, told, List.filterMap_map] at ih
    by_cases same : r = rid <;>
      cases delta <;> simp [Desk.starts, told, entry, same, ih, List.filter_cons, Delta.isStarted]

/-- A request's deltas along a run: what it is owed, and when. -/
theorem Serving.owed (h : Serving s e jobs c) (scoring : Scoring s calls) (absent : ∀ p ∈ e.queue, p.requestId ≠ rid)
    (stays : Call.cancel rid ∉ calls) :
    (∃ served waiting, (e.admitted calls).filter (·.requestId = rid) = served ++ waiting ∧
      List.Forall₂ (Owed s) served ((told rid (e.events calls)).filter (!·.isStarted)) ∧
      waiting.length = ((e.after calls).queue.filter (·.requestId = rid)).length) ∧
    ∀ es fs, e.events calls = es ++ fs →
      ((told rid fs).filter Delta.isStarted).length + ((told rid es).filter (!·.isStarted)).length ≤
        ((e.admitted calls).filter (·.requestId = rid)).length ∧
      ((told rid es).filter Delta.isDecided).length ≤ ((told rid es).filter Delta.isStarted).length := by
  obtain ⟨jobs', c', h', run⟩ := h.run scoring
  have names : ∀ (e : DecisionEngine) jobs c, Serving s e jobs c →
      (Desk.named Job.requestId rid (desk jobs c).tickets).length = (e.queue.filter (·.requestId = rid)).length := by
    intro e jobs c h
    have same : (desk jobs c).tickets = jobs := List.take_append_drop _ _
    have ids := congrArg (List.countP (· = rid)) (line_requestId (s := s) jobs c)
    rw [List.countP_map, List.countP_map] at ids
    rw [same, h.queue, Desk.named, ← List.countP_eq_length_filter, ← List.countP_eq_length_filter]
    exact ids.symm
  have none : Desk.named Job.requestId rid (desk jobs c).tickets = [] := by
    rw [← List.length_eq_zero_iff, names e jobs c h, List.length_eq_zero_iff, List.filter_eq_nil_iff]
    intro p hp
    simpa using absent p hp
  have stays : Desk.Entry.leave rid ∉ record e calls := fun mem => stays (record_leave mem)
  refine ⟨?_, fun es fs split => ?_⟩
  · obtain ⟨served, came, each⟩ := Desk.Run.answered run none stays
    rw [record_arrivals] at came
    rw [← answers_filter, record_events, answers_entry] at each
    exact ⟨served, _, came, each, names _ _ _ h'⟩
  · have events := record_events e calls
    rw [split, List.map_append, List.filter_eq_append_iff] at events
    obtain ⟨h₁, h₂, cut, first, second⟩ := events
    rw [cut] at run stays
    obtain ⟨d₁, run₁, run₂⟩ := run.split
    have stays₁ : Desk.Entry.leave rid ∉ h₁ := fun mem => stays (List.mem_append_left _ mem)
    have stays₂ : Desk.Entry.leave rid ∉ h₂ := fun mem => stays (List.mem_append_right _ mem)
    obtain ⟨served, came, each⟩ := Desk.Run.answered run₁ none stays₁
    have started := Desk.Run.starts_le run₂ stays₂
    have settled := Desk.Run.settled_le run₁ stays₁ Delta.isDecided (by rintro _ ⟨message, rfl⟩; rfl)
    have all : (Desk.arrivals Job.requestId rid (record e calls)).length = _ := congrArg List.length (record_arrivals e calls)
    have parts : Desk.arrivals Job.requestId rid (h₁ ++ h₂) =
        Desk.arrivals Job.requestId rid h₁ ++ Desk.arrivals Job.requestId rid h₂ := List.filterMap_append
    have tickets : Desk.named Job.requestId rid d₁.tickets =
        Desk.named Job.requestId rid d₁.begun ++ Desk.named Job.requestId rid d₁.waiting := Desk.named_append ..
    rw [cut, parts, came, tickets] at all
    rw [← answers_filter, first, answers_entry] at each settled
    rw [← starts_filter, second, starts_entry] at started
    rw [← starts_filter, first, starts_entry] at settled
    have length := each.length_eq
    have fresh : (Desk.named Job.requestId rid (desk jobs c).begun).length = 0 := by
      have parts := Desk.named_append Job.requestId rid (desk jobs c).begun (desk jobs c).waiting
      rw [show (desk jobs c).begun ++ (desk jobs c).waiting = (desk jobs c).tickets from rfl, none] at parts
      rw [(List.append_eq_nil_iff.mp parts.symm).1]
      rfl
    have only : ((told rid es).filter (!·.isStarted)).filter Delta.isDecided = (told rid es).filter Delta.isDecided := by
      rw [List.filter_filter]
      refine List.filter_congr fun delta _ => ?_
      cases delta <;> rfl
    rw [only] at settled
    simp only [List.length_append] at all
    exact ⟨by omega, by omega⟩

theorem record_arrived (e : DecisionEngine) (calls : List Call) : Desk.arrived (record e calls) = e.admitted calls := by
  induction calls generalizing e with
  | nil => rfl
  | cons call calls ih =>
    have quiet : ∀ evs : List (RequestId × Delta), Desk.arrived (evs.map entry) = [] := by
      intro evs
      refine List.filterMap_eq_nil_iff.mpr fun x hx => ?_
      obtain ⟨⟨r, delta⟩, -, rfl⟩ := List.mem_map.mp hx
      cases delta <;> rfl
    have split : Desk.arrived (record e (call :: calls)) =
        Desk.arrived (entries e call) ++ Desk.arrived (record (e.exec call).1 calls) := List.filterMap_append
    rw [split, ih, DecisionEngine.admitted]
    congr 1
    cases call with
    | admitJob job => cases ok : e.admitJob job <;> simp [entries, admits, ok, Except.isOk, Except.toBool, Desk.arrived]
    | step forward => exact quiet _
    | cancel r => rfl
    | failAll message => exact quiet _

/-- The queue stands in the order the jobs were admitted. -/
theorem Serving.order (h : Serving s e jobs c) (scoring : Scoring s calls) :
    ((e.after calls).queue.map (·.requestId)).Sublist
      (e.queue.map (·.requestId) ++ (e.admitted calls).map Job.requestId) := by
  obtain ⟨jobs', c', h', run⟩ := h.run scoring
  have order := (Desk.Run.order run).map Job.requestId
  have same : ∀ jobs c, (desk jobs c).tickets = jobs := fun jobs c => List.take_append_drop _ _
  rw [same, same, record_arrived, List.map_append] at order
  rw [h.queue, h'.queue, line_requestId, line_requestId]
  exact order

theorem Serving.left_pos {old new : List Job} (h : Serving s e (old ++ new) c) (some_ : old ≠ []) :
    c < totalRows old := by
  cases old with
  | nil => exact absurd rfl some_
  | cons job old =>
    have pos := List.length_pos_iff.mpr (h.asked job (by simp))
    rw [totalRows]
    rcases h.stands with rfl | ⟨j, rest, head, lt⟩
    · omega
    · obtain ⟨rfl, -⟩ := List.cons.inj head
      omega

/-- The jobs in line when a call comes, and those behind them: a pass takes rows of the former first. -/
theorem Serving.advances {old new : List Job} (h : Serving s e (old ++ new) c) (scoring : Scoring s [call]) :
    ∃ old' new' c', Serving s (e.exec call).1 (old' ++ new') c' ∧ (∀ job ∈ new', job ∈ new ∨ job ∈ e.admits call) ∧
      (old' ≠ [] → old ≠ [] ∧ (if e.works call then 1 else 0) + (totalRows old' - c') ≤ totalRows old - c) := by
  cases call with
  | admitJob job =>
    cases ok : e.admitJob job with
    | error err =>
      have same : e.exec (.admitJob job) = (e, []) := by simp [DecisionEngine.exec, ok]
      rw [same]
      exact ⟨old, new, c, h, fun _ => .inl, fun some_ => ⟨some_, by simp [works]⟩⟩
    | ok e' =>
      have same : e.exec (.admitJob job) = (e', []) := by simp [DecisionEngine.exec, ok]
      rw [same]
      refine ⟨old, new ++ [job], c, by simpa using h.admitJob ok, fun j hj => ?_, fun some_ => ⟨some_, by simp [works]⟩⟩
      simpa [admits, ok, Except.isOk, Except.toBool] using hj
  | cancel rid =>
    obtain ⟨c', serving, -, less⟩ := h.cancel rid
    rw [List.filter_append] at serving
    refine ⟨_, _, c', serving, fun j hj => .inl (List.mem_of_mem_filter hj), fun some_ => ?_⟩
    have some' : old ≠ [] := by
      rintro rfl
      exact some_ rfl
    have := less old new rfl some'
    exact ⟨some', by simpa [works] using this⟩
  | failAll message => exact ⟨[], [], 0, (h.failAll message).1, by simp, fun some_ => absurd rfl some_⟩
  | step forward =>
    rcases exec_step (e := e) forward with ⟨e', out, ok, same⟩ | ⟨⟨err, failed⟩, same⟩
    · obtain ⟨done, rest, c', split, sum, serving, worked, -⟩ := h.step (scoring forward (by simp)) ok
      rw [same]
      rcases List.append_eq_append_iff.mp split with ⟨gone, rfl, rfl⟩ | ⟨left, rfl, rfl⟩
      · exact ⟨[], rest, c', serving, fun j hj => .inl (by simp [hj]), fun some_ => absurd rfl some_⟩
      · refine ⟨left, new, c', serving, fun _ => .inl, fun some_ => ⟨by simp [some_], ?_⟩⟩
        have busy : e.queue ≠ [] := by
          intro none
          have ids := congrArg List.length (line_requestId (s := s) (done ++ left ++ new) c)
          rw [← h.queue, none] at ids
          have pos := List.length_pos_iff.mpr some_
          simp only [List.map_nil, List.length_nil, List.length_map, List.length_append] at ids
          omega
        have picked := List.length_pos_iff.mpr (h.select.2.1 busy)
        have pos := serving.left_pos some_
        rw [totalRows_append]
        split <;> omega
    · rw [same]
      refine ⟨old, new, c, h, fun _ => .inl, fun some_ => ⟨some_, ?_⟩⟩
      simp [works, failed, Except.toOption]

section Example

/-- A row's length is its score. -/
def lengths (row : EncoderRow) : Engine.RowScores := ⟨[row.tokens.length, row.options], 1⟩

def answering : EncoderBatch → Except Error (List Engine.RowScores) := fun batch => .ok (batch.rows.map lengths)

/-- Questions of the given lengths, with two options each. -/
def askingOf (id : String) (lens : List Nat) : Job :=
  ⟨⟨id⟩, .decision, List.replicate lens.sum 7, lens.map fun len => ⟨len, [1, 2], .choice⟩⟩

end Example

end Vapi.Worker
