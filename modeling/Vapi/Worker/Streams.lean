import Vapi.Worker.Acknowledged
import Vapi.Gateway.Loss

/-!
# What an engine says of its requests

What the worker's thread puts in a report, request by request. An engine is
assumed to say so much of a request and to complete it with its last word.
-/

namespace Vapi.Worker

open Proto

variable {E O A : Type}

/-- What a list has of one request. -/
def about (rid : RequestId) (l : List (RequestId × A)) : List A :=
  l.filterMap fun x => if x.1 = rid then some x.2 else none

/-- What is told of the requests between two engines. -/
structure Tells (Held : E → RequestId → Prop) (Voice : E → Job → List Delta → Prop) (Whole : Job → List Delta → Prop)
    (e e' : E) (out : StepOutput) : Prop where
  goes : ∀ job ds, Voice e job ds → job.requestId ∉ out.completed →
    Voice e' job (ds ++ about job.requestId out.events)
  ends : ∀ job ds, Voice e job ds → job.requestId ∈ out.completed →
    Whole job (ds ++ about job.requestId out.events)
  held : ∀ x ∈ out.events, Held e x.1
  closed : ∀ x ∈ out.events, x.2.isTerminal = true → x.1 ∈ out.completed

/-- An engine numbers what it says of a request from nought on. `Voice e job ds`: it holds the job and has said `ds`
of it; `Whole job ds`: that is all there is to say. The steps of a device that is `Sane` are those that count. -/
structure Speaks (w : WorkerEngine E O) (Ok : E → Prop) (Held : E → RequestId → Prop) (counted : E → RequestId → Nat)
    (Voice : E → Job → List Delta → Prop) (Whole : Job → List Delta → Prop) (Sane : O → Prop) : Prop where
  held : ∀ e job ds, Voice e job ds → Held e job.requestId
  sequence : ∀ e rid delta, (w.sequence e rid delta).2 = ⟨counted e rid, delta⟩ ∧
    counted (w.sequence e rid delta).1 = Function.update (counted e) rid (counted e rid + 1) ∧
    Voice (w.sequence e rid delta).1 = Voice e
  forget : ∀ e rid, counted (w.forget e rid) = Function.update (counted e) rid 0 ∧ Voice (w.forget e rid) = Voice e
  admitJob : ∀ e job, Ok e → ¬Held e job.requestId → counted (w.admitJob e job).1 = counted e ∧
    (∀ job' ds, Voice e job' ds → Voice (w.admitJob e job).1 job' ds) ∧
    ((w.admitJob e job).2 = none → Voice (w.admitJob e job).1 job []) ∧
    ∀ err, (w.admitJob e job).2 = some err → Whole job [.failed err.display]
  cancel : ∀ e rid, Ok e → counted (w.cancel e rid).1 = counted e ∧
    ∀ job ds, job.requestId ≠ rid → Voice e job ds → Voice (w.cancel e rid).1 job ds
  failAll : ∀ e message, Ok e → counted (w.failAll e message).1 = counted e ∧
    Tells Held Voice Whole e (w.failAll e message).1 (w.failAll e message).2
  step : ∀ e o out, Ok e → Sane o → (w.step e o).2 = .ok out → counted (w.step e o).1 = counted e ∧
    Tells Held Voice Whole e (w.step e o).1 out
  fails : ∀ e o err, Ok e → (w.step e o).2 = .error err → counted (w.step e o).1 = counted e ∧
    ∀ job ds, Voice e job ds → Voice (w.step e o).1 job ds

/-- What a report gains as an engine goes on, for each job that is held or among
the commands taken. -/
structure Utters (Held : E → RequestId → Prop) (counted : E → RequestId → Nat) (Voice : E → Job → List Delta → Prop)
    (Whole : Job → List Delta → Prop) (taken : List Command) (e e' : E) (more : List (RequestId × DeltaMsg))
    (completed : List RequestId) : Prop where
  told : ∀ job ds, .cancel job.requestId ∉ taken → (.admitJob job ∈ taken ∧ ds = []) ∨ Voice e job ds →
    counted e job.requestId = ds.length →
    ∃ next, about job.requestId more = number ds.length next ∧
      (job.requestId ∈ completed → Whole job (ds ++ next)) ∧
      (job.requestId ∉ completed → Voice e' job (ds ++ next) ∧ counted e' job.requestId = (ds ++ next).length)
  known : ∀ x ∈ more, Held e x.1 ∨ x.1 ∈ taken.flatMap Command.admitted
  closed : ∀ x ∈ more, x.2.delta.isTerminal = true → x.1 ∈ completed

section About

variable {rid : RequestId}

theorem about_append (l m : List (RequestId × A)) : about rid (l ++ m) = about rid l ++ about rid m :=
  List.filterMap_append

theorem about_nil_of {l : List (RequestId × A)} (none : ∀ x ∈ l, x.1 ≠ rid) : about rid l = [] :=
  List.filterMap_eq_nil_iff.mpr fun x mem => if_neg (none x mem)

/-- What is said once of each request. -/
theorem about_once {l : List (RequestId × A)} (once : (l.map Prod.fst).Nodup) {a : A} (mem : (rid, a) ∈ l) :
    about rid l = [a] := by
  induction l with
  | nil => cases mem
  | cons x l ih =>
    rw [List.map_cons, List.nodup_cons] at once
    rcases List.mem_cons.mp mem with rfl | later
    · have rest : about rid l = [] := about_nil_of fun y there same => once.1 (List.mem_map.mpr ⟨y, there, same⟩)
      simpa [about] using rest
    · have other : x.1 ≠ rid := fun same => once.1 (List.mem_map.mpr ⟨_, later, same.symm⟩)
      simpa [about, other] using ih once.2 later

theorem mem_about {l : List (RequestId × A)} {a : A} : a ∈ about rid l ↔ (rid, a) ∈ l := by
  constructor
  · intro mem
    obtain ⟨⟨k, b⟩, there, is⟩ := List.mem_filterMap.mp mem
    obtain ⟨rfl, same⟩ := Option.ite_none_right_eq_some.mp is
    exact Option.some.inj same ▸ there
  · intro mem
    exact List.mem_filterMap.mpr ⟨_, mem, if_pos rfl⟩

theorem number_take (v n : Nat) (ds : List Delta) : (number v ds).take n = number v (ds.take n) := by
  induction ds generalizing v n with
  | nil => simp [number]
  | cons d ds ih =>
    cases n with
    | zero => rfl
    | succ n => simp [number, ih]

end About

variable {w : WorkerEngine E O} {Ok : E → Prop} {Held Live : E → RequestId → Prop} {counted : E → RequestId → Nat}
  {Voice : E → Job → List Delta → Prop} {Whole : Job → List Delta → Prop} {Sane : O → Prop} {e e' : E}

/-- Events go out with the numbers that are next. -/
theorem Speaks.stamp (speaks : Speaks w Ok Held counted Voice Whole Sane) (e : E) (events : List (RequestId × Delta)) :
    (∀ rid, about rid (w.stamp e events).2 = number (counted e rid) (about rid events) ∧
      counted (w.stamp e events).1 rid = counted e rid + (about rid events).length) ∧
    Voice (w.stamp e events).1 = Voice e ∧
    (w.stamp e events).2.map (fun x => (x.1, x.2.delta)) = events := by
  induction events generalizing e with
  | nil => exact ⟨fun rid => ⟨rfl, rfl⟩, rfl, rfl⟩
  | cons event rest ih =>
    obtain ⟨k, delta⟩ := event
    obtain ⟨msg, count, voice⟩ := speaks.sequence e k delta
    obtain ⟨each, voice', deltas⟩ := ih (w.sequence e k delta).1
    rw [WorkerEngine.stamp]
    refine ⟨fun rid => ?_, voice'.trans voice, by simp [msg, deltas]⟩
    obtain ⟨told, after⟩ := each rid
    rw [count] at told after
    by_cases same : k = rid
    · subst same
      rw [Function.update_self] at told after
      simp [about, msg, number] at told after ⊢
      exact ⟨told, by omega⟩
    · rw [Function.update_of_ne (Ne.symm same)] at told after
      simp only [about, same, ↓reduceIte, List.filterMap_cons] at told after ⊢
      exact ⟨told, after⟩

theorem Speaks.forgetAll (speaks : Speaks w Ok Held counted Voice Whole Sane) (e : E) (rids : List RequestId) :
    (∀ rid, counted (w.forgetAll e rids) rid = if rid ∈ rids then 0 else counted e rid) ∧
      Voice (w.forgetAll e rids) = Voice e := by
  induction rids generalizing e with
  | nil => exact ⟨fun rid => rfl, rfl⟩
  | cons k rest ih =>
    obtain ⟨count, voice⟩ := speaks.forget e k
    obtain ⟨each, voice'⟩ := ih (w.forget e k)
    refine ⟨fun rid => ?_, voice'.trans voice⟩
    rw [WorkerEngine.forgetAll, each, count]
    by_cases same : rid = k <;> simp [same]

/-- What is not held has not been counted. -/
def Idle (Held : E → RequestId → Prop) (counted : E → RequestId → Nat) (e : E) : Prop :=
  ∀ rid, ¬Held e rid → counted e rid = 0

/-- What an engine has told goes into the report. -/
theorem Speaks.tell (speaks : Speaks w Ok Held counted Voice Whole Sane) (laws : Lawful w Ok Held Live)
    {out : StepOutput} (report : Report) (same : counted e' = counted e) (tells : Tells Held Voice Whole e e' out)
    (moves : Moves Ok Held Live Nobody Nobody e e' out.completed) (idle : Idle Held counted e) :
    ∃ more, (w.tell e' report out).2 = ⟨report.deltas ++ more, report.completed ++ out.completed⟩ ∧
      Utters Held counted Voice Whole [] e (w.tell e' report out).1 more out.completed ∧
      Idle Held counted (w.tell e' report out).1 := by
  obtain ⟨stamped, voice, deltas⟩ := speaks.stamp e' out.events
  obtain ⟨forgot, voice'⟩ := speaks.forgetAll (w.stamp e' out.events).1 out.completed
  have event : ∀ x ∈ (w.stamp e' out.events).2, (x.1, x.2.delta) ∈ out.events := by
    intro x mem
    rw [← deltas]
    exact List.mem_map_of_mem mem
  have counts : ∀ rid, counted (w.tell e' report out).1 rid =
      if rid ∈ out.completed then 0 else counted e rid + (about rid out.events).length := by
    intro rid
    have all := forgot rid
    rw [(stamped rid).2, same] at all
    exact all
  refine ⟨_, rfl, ⟨?_, fun x mem => .inl (tells.held _ (event x mem)), fun x mem => tells.closed _ (event x mem)⟩, ?_⟩
  · intro job ds _ voiced count
    have voiced := voiced.resolve_left fun taken => by cases taken.1
    refine ⟨about job.requestId out.events, ?_, tells.ends job ds voiced, fun going => ⟨?_, ?_⟩⟩
    · rw [(stamped job.requestId).1, same, count]
    · have goes := tells.goes job ds voiced going
      rw [← voice, ← voice'] at goes
      exact goes
    · rw [counts, if_neg going, count, List.length_append]
  · intro rid gone
    rw [counts]
    split
    · rfl
    · rename_i going
      have unheld : ¬Held e rid := by
        intro held
        have told := laws.tell moves.ok report out
        rcases (moves.later told).kept rid (.inl held) with still | done | none
        · exact gone still
        · exact going (List.append_nil out.completed ▸ done)
        · exact none
      have nothing : about rid out.events = [] := about_nil_of fun x mem same => unheld (same ▸ tells.held x mem)
      rw [idle rid unheld, nothing]
      rfl

/-- A turn utters what its step does, or that every request failed. -/
theorem Speaks.turn (speaks : Speaks w Ok Held counted Voice Whole Sane) (laws : Lawful w Ok Held Live) (ok : Ok e)
    (idle : Idle Held counted e) (maxStepFailures failures : Nat) (report : Report) {o : O} (sane : Sane o) :
    ∃ more completed, (w.turn maxStepFailures e failures report o).report =
        ⟨report.deltas ++ more, report.completed ++ completed⟩ ∧
      Utters Held counted Voice Whole [] e (w.turn maxStepFailures e failures report o).engine more completed ∧
      Idle Held counted (w.turn maxStepFailures e failures report o).engine := by
  unfold WorkerEngine.turn
  split
  · refine ⟨[], [], by simp, ⟨?_, by simp, by simp⟩, idle⟩
    intro job ds _ voiced count
    have voiced := voiced.resolve_left fun taken => by cases taken.1
    exact ⟨[], rfl, fun done => absurd done List.not_mem_nil, fun _ => by simpa using ⟨voiced, count⟩⟩
  dsimp only
  split
  · rename_i out answer
    obtain ⟨same, tells⟩ := speaks.step e o out ok sane answer
    obtain ⟨more, is, utters, idle'⟩ := speaks.tell laws report same tells (laws.step e o out ok answer) idle
    exact ⟨more, out.completed, is, utters, idle'⟩
  · rename_i err answer
    obtain ⟨same, mono⟩ := speaks.fails e o err ok answer
    have failing := laws.fails e o err ok answer
    have idle' : Idle Held counted (w.step e o).1 := by
      intro rid gone
      rw [same]
      exact idle rid fun held => gone ((failing.kept rid (.inl held)).resolve_right (by simp [Nobody]))
    obtain ⟨same', tells⟩ := speaks.failAll _ ("engine step failed: " ++ err.display) failing.ok
    obtain ⟨more, is, utters, idle''⟩ := speaks.tell laws report same' tells
      (laws.failAll _ ("engine step failed: " ++ err.display) failing.ok).1 idle'
    refine ⟨more, _, is, ⟨?_, fun x mem => ?_, utters.closed⟩, idle''⟩
    · intro job ds uncancelled voiced count
      exact utters.told job ds uncancelled (voiced.imp_right (mono job ds)) (by rw [same]; exact count)
    · exact (utters.known x mem).imp_left fun held => (failing.held _ held).resolve_right id

/-- A command utters what it puts an end to. -/
theorem Speaks.handle (speaks : Speaks w Ok Held counted Voice Whole Sane) (laws : Lawful w Ok Held Live) (ok : Ok e)
    (idle : Idle Held counted e) (report : Report) (cmd : Command) (fresh : ∀ rid ∈ cmd.admitted, ¬Held e rid) :
    ∃ more completed, (w.handle e report cmd).2 = ⟨report.deltas ++ more, report.completed ++ completed⟩ ∧
      Utters Held counted Voice Whole [cmd] e (w.handle e report cmd).1 more completed ∧
      Idle Held counted (w.handle e report cmd).1 := by
  cases cmd with
  | admitJob job =>
    have fresh := fresh job.requestId (List.mem_singleton.mpr rfl)
    obtain ⟨same, mono, takes, refuses⟩ := speaks.admitJob e job ok fresh
    cases answer : (w.admitJob e job).2 with
    | none =>
      have handled : w.handle e report (.admitJob job) = ((w.admitJob e job).1, report) := by
        simp only [WorkerEngine.handle, answer]
      rw [handled]
      refine ⟨[], [], by simp, ⟨?_, by simp, by simp⟩, ?_⟩
      · intro job' ds _ which count
        refine ⟨[], rfl, fun done => absurd done List.not_mem_nil, fun _ => ?_⟩
        rw [List.append_nil, same]
        refine ⟨?_, count⟩
        rcases which with ⟨here, rfl⟩ | voiced
        · obtain rfl := Command.admitJob.inj (List.mem_singleton.mp here)
          exact takes answer
        · exact mono job' ds voiced
      · intro rid gone
        rw [same]
        have admitted := laws.admitJob e job ok fresh answer
        exact idle rid fun held => gone ((admitted.kept rid (.inl held)).resolve_right (by simp [Nobody]))
    | some err =>
      have handled : w.handle e report (.admitJob job) =
          (w.forget (w.sequence (w.admitJob e job).1 job.requestId (.failed err.display)).1 job.requestId,
            ⟨report.deltas ++ [(job.requestId,
              (w.sequence (w.admitJob e job).1 job.requestId (.failed err.display)).2)],
              report.completed ++ [job.requestId]⟩) := by
        simp only [WorkerEngine.handle, answer]
      obtain ⟨msg, counts, voice⟩ := speaks.sequence (w.admitJob e job).1 job.requestId (.failed err.display)
      obtain ⟨counts', voice'⟩ :=
        speaks.forget (w.sequence (w.admitJob e job).1 job.requestId (.failed err.display)).1 job.requestId
      rw [handled]
      have counted' : ∀ rid, counted
          (w.forget (w.sequence (w.admitJob e job).1 job.requestId (.failed err.display)).1 job.requestId) rid =
            if rid = job.requestId then 0 else counted e rid := by
        intro rid
        rw [counts', counts, same]
        by_cases its : rid = job.requestId <;> simp [its]
      refine ⟨_, _, rfl, ⟨?_, ?_, ?_⟩, ?_⟩
      · intro job' ds _ which count
        rcases which with ⟨here, rfl⟩ | voiced
        · obtain rfl := Command.admitJob.inj (List.mem_singleton.mp here)
          refine ⟨[.failed err.display], ?_, fun _ => refuses err answer, fun going => absurd (by simp) going⟩
          rw [same, count] at msg
          simp [about, msg, number]
        · have other : job'.requestId ≠ job.requestId := fun its => fresh (its ▸ speaks.held e job' ds voiced)
          refine ⟨[], ?_, fun done => absurd (List.mem_singleton.mp done) other, fun _ => ?_⟩
          · simp [about, Ne.symm other, number]
          · rw [List.append_nil, counted', if_neg other, voice', voice]
            exact ⟨mono job' ds voiced, count⟩
      · intro x mem
        rw [List.mem_singleton.mp mem]
        exact .inr (by simp [Command.admitted])
      · intro x mem _
        rw [List.mem_singleton.mp mem]
        exact List.mem_singleton.mpr rfl
      · intro rid gone
        rw [counted']
        split
        · rfl
        · refine idle rid fun held => gone ?_
          have refused := laws.refuse e job err ok fresh answer
          have sequenced : Moves Ok Held Live Nobody Nobody _ _ [] :=
            laws.sequence _ job.requestId (.failed err.display) refused.ok
          have moves := refused.later (sequenced.later (laws.forget _ job.requestId sequenced.ok))
          exact (moves.kept rid (.inl held)).resolve_right (by simp [Nobody])
  | cancel rid =>
    obtain ⟨same, mono⟩ := speaks.cancel e rid ok
    obtain ⟨counts, voice⟩ := speaks.forget (w.cancel e rid).1 rid
    refine ⟨[], [], by simp [WorkerEngine.handle], ⟨?_, by simp, by simp⟩, ?_⟩
    · intro job ds uncancelled which count
      have other : job.requestId ≠ rid := fun its => uncancelled (List.mem_singleton.mpr (its ▸ rfl))
      have voiced := which.resolve_left fun taken => by cases List.mem_singleton.mp taken.1
      refine ⟨[], rfl, fun done => absurd done List.not_mem_nil, fun _ => ?_⟩
      rw [List.append_nil]
      change Voice (w.forget (w.cancel e rid).1 rid) job ds ∧ counted (w.forget (w.cancel e rid).1 rid) _ = _
      rw [voice, counts, same, Function.update_of_ne other]
      exact ⟨mono job ds other voiced, count⟩
    · intro rid' gone
      change counted (w.forget (w.cancel e rid).1 rid) rid' = 0
      rw [counts, same]
      by_cases its : rid' = rid
      · rw [its, Function.update_self]
      · rw [Function.update_of_ne its]
        refine idle rid' fun held => gone ?_
        have cancelled := laws.cancel e rid ok
        have moves := cancelled.later (laws.forget _ rid cancelled.ok)
        rcases moves.kept rid' (.inl held) with still | done | dropped
        · exact still
        · cases done
        · exact absurd dropped its
  | failAll message =>
    obtain ⟨same, tells⟩ := speaks.failAll e message ok
    obtain ⟨more, is, utters, idle'⟩ := speaks.tell laws report same tells (laws.failAll e message ok).1 idle
    refine ⟨more, _, is, ⟨?_, ?_, utters.closed⟩, idle'⟩
    · intro job ds _ which count
      have voiced := which.resolve_left fun taken => by cases List.mem_singleton.mp taken.1
      exact utters.told job ds (by simp) (.inr voiced) count
    · exact fun x mem => .inl ((utters.known x mem).resolve_right (by simp))

end Vapi.Worker
