import Vapi.Worker.LastWords

/-!
# Each choice as if it were alone

Over any run in which a request's forks are whole and give each sibling a first
token that ends nothing, every choice of the request tells what a job of a
single choice tells.
-/

namespace Vapi.Worker

open Cache Engine Proto
open Transition (Run Guarded)

namespace GenerationEngine

variable {H : Type} {B : Blake3 H} {J : ChoiceJob} {e e' u : GenerationEngine B} {rid : RequestId} {id : SeqId}
  {es : List (RequestId × Delta)}

section Steps

variable [DecidableEq H]

namespace Answering

/-- What is planned for says nothing. -/
theorem scheduled {s : Scheduler B} {plan : StepPlan} (h : Answering J rid es e) (reg : Registered e)
    (scheduled : e.scheduler.schedule = some (s, plan)) : Answering J rid es (e.setScheduler s).spillEvicted := by
  obtain ⟨-, -, same⟩ := scheduled_kept rid reg scheduled
  have leaves : Leaves e.scheduler s := by
    obtain ⟨p, steps, rfl, -⟩ := schedule_steps scheduled reg.queued
    exact passSteps_leaves steps reg.queued
  have next : Answering J rid (es ++ []) (e.setScheduler s).spillEvicted := h.calm same
    ⟨h.agrees.decode, leaves.eos.trans h.agrees.eos,
      (congrArg SchedulerConfig.maxContext leaves.cfg).trans h.agrees.maxContext⟩
    (fun id _ a shown => by
      obtain ⟨seq, live, runs⟩ := shown.seq
      obtain ⟨seq', live', alike⟩ := leaves.seqs id seq live
      exact ⟨shown.stream, seq', live', runs.alike alike⟩) (fun _ => rfl) rfl
  rwa [List.append_nil] at next

omit [DecidableEq H] in
/-- Starts say nothing. -/
theorem started {plan : StepPlan} (h : Answering J rid es e) : Answering J rid (es ++ e.startedBy plan) e := by
  refine h.calm (.refl e) h.agrees (fun _ _ _ shown => shown) (fun k => choiceText_eq_nil fun event mem _ => ?_) ?_
  · obtain ⟨⟨id, cached⟩, -, started⟩ := List.mem_filterMap.mp mem
    obtain ⟨r, -, rfl⟩ := Option.map_eq_some_iff.mp started
    rfl
  · exact dones_eq_nil fun event mem => .inr (startedBy_mem event mem).2

/-- A step in which the leaders' rows are read in full and the forks are fair. -/
theorem step {draws : Draws} {r : Except Error StepOutput} (h : Answering J rid es e) (free : J.constraint = none)
    (kept : Kept rid e) (fair : ∀ p ∈ e.stepForks draws, p.1.seqToRequest p.2.leader = some rid → Fair J p.1 p.2)
    (full : ∀ row ∈ e.stepRows draws, e.seqToRequest row.1 = some rid → e.pendingForks row.1 ≠ none →
    row.2.kind = .full)
    (stepped : e.step draws = some (e', r)) : Answering J rid (es ++ (Reply.stepped r).output.events) e' := by
  obtain ⟨s, plan, e₁, scheduled, eq, ends⟩ := step_cases stepped
  obtain ⟨reg, passed, same⟩ := scheduled_kept rid kept.registered scheduled
  have next : Answering J rid (es ++ e₁.startedBy plan) e₁ := (eq ▸ h.scheduled kept.registered scheduled).started
  have before := h.scheduled kept.registered scheduled
  have pending : e₁.pendingForks = e.pendingForks := eq ▸ rfl
  have owner : e₁.seqToRequest = e.seqToRequest := eq ▸ rfl
  rw [← eq] at reg passed same before
  have b := same.booked kept.booked
  have settled : Settled rid e₁ := kept.settled.steady same passed fun _ _ no => no.elim
  rcases ends with ⟨out, didWork, drained, rfl⟩ | ⟨err, -, rfl, rfl⟩ |
    ⟨ran, length, u, texts, v, forked, out, didWork, committed, made, drained, rfl⟩
  · change Answering J rid (es ++ (e₁.startedBy plan ++ out.events)) e'
    rw [← List.append_assoc]
    exact next.drain reg b settled drained
  · change Answering J rid (es ++ []) e'
    rw [List.append_nil]
    exact before
  · rw [stepRows_eq ran scheduled, ← owner, ← pending] at full
    rw [stepForks_eq ran scheduled (eq ▸ committed), ← eq] at fair
    have nodup := schedule_sampled_nodup kept.registered.queued scheduled
    have ready : ∀ y ∈ plan.sampledSeqs, y ∈ s.running := schedule_sampled_running kept.registered.queued scheduled
    have running : ∀ y ∈ plan.sampledSeqs, y ∈ e₁.scheduler.running := by
      rw [eq]
      exact ready
    have said := next.commit free reg b nodup running length committed
    have spec : Commits rid plan e₁ u texts := commitPlan_commits reg committed
    obtain ⟨leaders, asked⟩ := forksToMake_asked (e := e₁) nodup length
    rw [← spec.pending] at asked
    have b' := spec.steady.booked b
    have own : ∀ f ∈ e₁.forksToMake (plan.sampledSeqs.zip draws.rows), u.seqToRequest f.leader = some rid →
        u.pendingForks f.leader = some f.extra ∧ f.params = J.params := by
      intro f mem mine
      have mine := (spec.steady.owner f.leader).mp mine
      obtain ⟨x, extra, row, -, waits, count⟩ := forksToMake_mem mem
      have kind := full (f.leader, x) row mine (by rw [waits]; exact Option.some_ne_none _)
      obtain ⟨a, -, shown, -⟩ := next.live f.leader ((b.own f.leader).mp mine)
      refine ⟨?_, (forksToMake_params mem).trans shown.params⟩
      rw [spec.pending, count, if_pos kind]
      exact waits
    have forkings := forkLoop_forkings spec.registered b' leaders asked (fun p mem mine => (fair p mem mine).1) made
    have settled' : Settled rid v := forkings.settles spec b settled length fun row mem mine waits => by
      rw [full row mem mine waits]
      exact RowKind.noConfusion
    have last := (said.forks free spec.registered b' leaders asked own fair made).drain forkings.registered
      forkings.booked
      settled' drained
    change Answering J rid (es ++ (e₁.startedBy plan ++ (texts ++ forked) ++ out.events)) e'
    rw [List.append_assoc, List.append_assoc] at last
    rw [List.append_assoc, List.append_assoc]
    rwa [List.append_assoc] at last

end Answering

end Steps

section Calls

variable {prompt : List Token} {params : SamplingParams} {tenant : String} {promote : BlockPool H → BlockPool H}
  {r : RequestId} {res : Except Error SeqId}

/-- An admission leaves the sequences that there were. -/
theorem admitRequest_untouched (h : e.admitRequest r prompt params tenant promote = (e', res)) :
    Untouched (· < e.scheduler.nextId) e e' := by
  unfold admitRequest at h
  split at h
  · obtain ⟨rfl, -⟩ := Prod.mk.inj h
    exact .refl e
  · have first : Untouched (· < e.scheduler.nextId) e (e.setPool (promote e.scheduler.pool)) :=
      ⟨rfl, rfl, rfl, fun _ _ => rfl, fun _ _ => rfl, fun _ _ => rfl⟩
    rcases admit_cases (e.setPool (promote e.scheduler.pool)).scheduler r prompt params tenant with ⟨err, eq⟩ | ⟨-, eq⟩
    · simp only [eq, Prod.mk.injEq] at h
      obtain ⟨rfl, -⟩ := h
      exact first
    · simp only [eq, Prod.mk.injEq] at h
      obtain ⟨rfl, -⟩ := h
      by_cases several : 1 < choicesOf params <;> simp only [several, if_true, if_false] <;>
        exact ⟨rfl, rfl, rfl, fun x old => Function.update_of_ne (Nat.ne_of_lt old) ..,
          fun x old => Function.update_of_ne (Nat.ne_of_lt old) ..,
            fun x old => Function.update_of_ne (Nat.ne_of_lt old) ..⟩

/-- What the engine holds of a job that it has admitted. -/
theorem admitRequest_shows (free : params.responseFormat = none)
    (of : J.prompt = prompt ∧ J.params = params ∧ J.constraint = none)
    (h : e.admitRequest r prompt params tenant promote = (e', .ok id)) : Shows J e' id J.start := by
  obtain ⟨rfl, rfl, none⟩ := of
  have start : J.start.stream = { detok := .withPrompt (J.prompt.map UInt32.toNat) } := by
    unfold ChoiceJob.start
    rw [none]
  have compiled : J.params.responseFormat.mapM e.compileFormat = .ok Option.none := by
    rw [free]
    rfl
  unfold admitRequest at h
  rw [compiled] at h
  rcases admit_cases (e.setPool (promote e.scheduler.pool)).scheduler r J.prompt J.params tenant with
    ⟨err, eq⟩ | ⟨-, eq⟩
  · simp only [eq, Prod.mk.injEq] at h
    cases h.2
  · simp only [eq, Prod.mk.injEq, Except.ok.injEq] at h
    obtain ⟨rfl, rfl⟩ := h
    have runs : J.Runs J.start (Sequence.new r J.prompt J.params tenant) :=
      ⟨(List.append_nil _).symm, rfl, rfl, fun _ same => SeqStatus.noConfusion same, fun _ none => by cases none⟩
    by_cases several : 1 < choicesOf J.params <;> simp only [several, if_true, if_false] <;>
      exact ⟨(Function.update_self ..).trans (congrArg some start.symm), _, Function.update_self .., runs⟩

theorem cancel_shows {a : Answer} (shown : Shows J e id a) : Shows J (e.cancel r).1 id a := by
  obtain ⟨seq, live, runs⟩ := shown.seq
  obtain ⟨-, -, seqs⟩ := finishes_seqs (e.scheduler.sequencesOf r) .cancelled e.scheduler
  have now := seqs id
  rw [← cancel_eq, live] at now
  split at now
  · exact ⟨shown.stream, _, now, runs.cancel⟩
  · exact ⟨shown.stream, _, now, runs⟩

theorem cancel_agrees (agrees : Agrees J e) (r : RequestId) : Agrees J (e.cancel r).1 := by
  obtain ⟨cfg, eos, -⟩ := finishes_seqs (e.scheduler.sequencesOf r) .cancelled e.scheduler
  rw [← cancel_eq] at cfg eos
  exact ⟨agrees.decode, eos.trans agrees.eos, (congrArg SchedulerConfig.maxContext cfg).trans agrees.maxContext⟩

theorem failAll_agrees (agrees : Agrees J e) (message : String) : Agrees J (e.failAll message).1 := by
  have all : ∀ (rids : List RequestId) (s : Scheduler B), (rids.foldl (fun s r => (s.cancel r).1) s).cfg = s.cfg ∧
      (rids.foldl (fun s r => (s.cancel r).1) s).eosTokenIds = s.eosTokenIds := by
    intro rids
    induction rids with
    | nil => exact fun _ => ⟨rfl, rfl⟩
    | cons r rids ih =>
      intro s
      obtain ⟨cfg, eos, -⟩ := finishes_seqs (s.sequencesOf r) .cancelled s
      rw [← cancel_eq] at cfg eos
      exact ⟨(ih _).1.trans cfg, (ih _).2.trans eos⟩
  obtain ⟨cfg, eos⟩ := all e.requests e.scheduler
  exact ⟨agrees.decode, ((drainFinished_eos _).trans eos).trans agrees.eos,
    (congrArg SchedulerConfig.maxContext ((drainFinished_emptied _).cfg.trans cfg)).trans agrees.maxContext⟩

end Calls

section Runs

variable [DecidableEq H] {l : Request H × Reply} {ls : List (Request H × Reply)}
  {fork : GenerationEngine B → ForkToMake → Prop}

/-- All that is told in a run. -/
def deltas (ls : List (Request H × Reply)) : List (RequestId × Delta) := ls.flatMap fun l => l.2.output.events

/-- A call that leaves a request to its forks: it is not admitted again while it
has a sequence nor cancelled while its leader waits for siblings, its leader's
row is read in full, and its forks are as they should be. -/
def Mindful (fork : GenerationEngine B → ForkToMake → Prop) (rid : RequestId) (e : GenerationEngine B)
    (l : Request H × Reply) : Prop :=
  match l.1 with
  | .admitRequest r _ _ _ _ => r = rid → e.scheduler.sequencesOf rid = []
  | .cancel r => r = rid → ∀ id ∈ e.scheduler.sequencesOf rid, e.pendingForks id = none
  | .failAll _ => True
  | .step draws =>
    (∀ p ∈ e.stepForks draws, p.1.seqToRequest p.2.leader = some rid → fork p.1 p.2) ∧
      ∀ row ∈ e.stepRows draws, e.seqToRequest row.1 = some rid → e.pendingForks row.1 ≠ none → row.2.kind = .full

instance [∀ e f, Decidable (fork e f)] (rid : RequestId) (e : GenerationEngine B) (l : Request H × Reply) :
    Decidable (Mindful fork rid e l) :=
  match l with
  | (.admitRequest r _ _ _ _, _) => inferInstanceAs (Decidable (r = rid → e.scheduler.sequencesOf rid = []))
  | (.cancel r, _) =>
    inferInstanceAs (Decidable (r = rid → ∀ id ∈ e.scheduler.sequencesOf rid, e.pendingForks id = none))
  | (.failAll _, _) => inferInstanceAs (Decidable True)
  | (.step draws, _) =>
    inferInstanceAs (Decidable (
      (∀ p ∈ e.stepForks draws, p.1.seqToRequest p.2.leader = some rid → fork p.1 p.2) ∧
        ∀ row ∈ e.stepRows draws, e.seqToRequest row.1 = some rid → e.pendingForks row.1 ≠ none → row.2.kind = .full))

theorem Mindful.mono {fork' : GenerationEngine B → ForkToMake → Prop} (h : Mindful fork rid e l)
    (sub : ∀ e f, fork e f → fork' e f) : Mindful fork' rid e l := by
  obtain ⟨request, reply⟩ := l
  cases request with
  | admitRequest => exact h
  | cancel => exact h
  | failAll => exact h
  | step draws => exact ⟨fun p mem own => sub p.1 p.2 (h.1 p mem own), h.2⟩

theorem step_minded (kept : Kept rid e) (minds : Mindful Whole rid e l) (step : e.Step l e') : Kept rid e' := by
  obtain ⟨request, reply⟩ := l
  change e.exec request = some (e', reply) at step
  cases request with
  | admitRequest r prompt params tenant promote =>
    rcases entered : e.admitRequest r prompt params tenant promote with ⟨u, res⟩
    simp only [exec, entered, Option.some.injEq, Prod.mk.injEq] at step
    obtain ⟨rfl, rfl⟩ := step
    exact (admitRequest_kept kept minds entered).1
  | cancel r =>
    simp only [exec, Option.some.injEq, Prod.mk.injEq] at step
    obtain ⟨rfl, rfl⟩ := step
    exact (cancel_kept kept minds).1
  | failAll message =>
    simp only [exec, Option.some.injEq, Prod.mk.injEq] at step
    obtain ⟨rfl, rfl⟩ := step
    exact (failAll_kept kept message).1
  | step draws =>
    obtain ⟨⟨u, r⟩, stepped, eq⟩ := Option.map_eq_some_iff.mp step
    obtain ⟨rfl, rfl⟩ := Prod.mk.inj eq
    obtain ⟨tells, -⟩ := step_tells kept.registered kept.booked kept.settled minds.1
      (fun row mem own waits => by rw [minds.2 row mem own waits]; exact RowKind.noConfusion) stepped
    exact ⟨tells.registered, tells.booked, tells.settled⟩

theorem run_minded {start : GenerationEngine B} (kept : Kept rid start)
    (run : Run (Guarded (Mindful Whole rid) Step) start ls e) : Kept rid e := by
  induction run with
  | nil => exact kept
  | snoc _ step ih => exact step_minded ih step.1 step.2

/-- What a mindful call says for a request is said as its choices would say it alone. -/
theorem Answering.call (h : Answering J rid es e) (free : J.constraint = none) (kept : Kept rid e)
    (minds : Mindful (Fair J) rid e l) (step : e.Step l e') (again : admitted rid l = 0) :
    Answering J rid (es ++ l.2.output.events) e' := by
  obtain ⟨request, reply⟩ := l
  change e.exec request = some (e', reply) at step
  cases request with
  | admitRequest r prompt params tenant promote =>
    rcases entered : e.admitRequest r prompt params tenant promote with ⟨u, res⟩
    simp only [exec, entered, Option.some.injEq, Prod.mk.injEq] at step
    obtain ⟨rfl, rfl⟩ := step
    have refused : ¬(r = rid ∧ res.isOk) := by
      rintro ⟨mine, ok⟩
      cases res with
      | error err => cases ok
      | ok id =>
        change (if r = rid then 1 else 0) = 0 at again
        rw [if_pos mine] at again
        cases again
    have untouched := admitRequest_untouched entered
    exact h.calm (admitRequest_steady kept refused entered) (untouched.agrees h.agrees)
      (fun id mem a shown => untouched.shows (kept.registered.known mem) shown) (fun _ => rfl) rfl
  | cancel r =>
    simp only [exec, Option.some.injEq, Prod.mk.injEq] at step
    obtain ⟨rfl, rfl⟩ := step
    exact h.calm (setScheduler_steady (cancel_ends e.scheduler r)) (cancel_agrees h.agrees r)
      (fun id _ a shown => cancel_shows shown) (fun _ => rfl) rfl
  | failAll message =>
    simp only [exec, Option.some.injEq, Prod.mk.injEq] at step
    obtain ⟨rfl, rfl⟩ := step
    obtain ⟨-, none, quiet⟩ := failAll_kept kept message
    refine h.gone (failAll_agrees h.agrees message) none (fun k => choiceText_eq_nil fun event mem _ => ?_) quiet
    obtain ⟨r, -, rfl⟩ := List.mem_map.mp mem
    rfl
  | step draws =>
    obtain ⟨⟨u, r⟩, stepped, eq⟩ := Option.map_eq_some_iff.mp step
    obtain ⟨rfl, rfl⟩ := Prod.mk.inj eq
    exact h.step free kept minds.1 minds.2 stepped

theorem run_answering {start : GenerationEngine B} (h : Answering J rid [] start) (free : J.constraint = none)
    (kept : Kept rid start) (run : Run (Guarded (Mindful (Fair J) rid) Step) start ls e)
    (once : admissions rid ls = 0) :
    Answering J rid (deltas ls) e := by
  induction run with
  | nil => exact h
  | @snoc ls t u l run step ih =>
    unfold admissions at once
    rw [List.map_append, List.sum_append, List.map_singleton, List.sum_singleton] at once
    have before := ih (Nat.eq_zero_of_add_eq_zero_right once)
    have kept' := run_minded kept (run.mono fun _ _ _ step => ⟨step.1.mono fun _ _ fair => fair.1, step.2⟩)
    have now := before.call free kept' step.1 step.2 (Nat.eq_zero_of_add_eq_zero_left once)
    unfold deltas
    rw [List.flatMap_append, List.flatMap_singleton]
    exact now

/-- The job that a request is to the engine. -/
def jobOf (e : GenerationEngine B) (prompt : List Token) (params : SamplingParams) : ChoiceJob where
  prompt := prompt
  params := params
  constraint := match params.responseFormat.mapM e.compileFormat with
    | .ok (some schema) => some (Constraint.start schema (params.constraintStartsAfter.map String.toList) e.tokenId)
    | _ => none
  decode := e.decode
  eos := e.scheduler.eosTokenIds
  maxContext := e.scheduler.cfg.maxContext

/-- Over every run that serves a request without a format by forks whose first
tokens end nothing: what a choice in flight has said is what a job of a single
choice has said, and one that is told as done has said all that such a job
says, with its reason and its tokens. -/
theorem choices_alone {cfg : SchedulerConfig} {pool : BlockPool H} {ns : CacheNamespace B} {eos : List Token}
    {decode : List Nat → Text} {tokenId : Text → Option Nat}
    {compileFormat : ResponseFormat → Except Error Structured.Schema}
    {workerId : String} {spills : Bool} {before after : List (Request H × Reply)} {t : GenerationEngine B}
    {prompt : List Token} {params : SamplingParams} {tenant : String} {promote : BlockPool H → BlockPool H}
    (run : Run (Guarded (Mindful Whole rid) Step)
      (new (Scheduler.new cfg pool ns eos) decode tokenId compileFormat workerId spills) before t)
    (idle : t.scheduler.sequencesOf rid = []) (entered : t.admitRequest rid prompt params tenant promote = (u, .ok id))
    (free : params.responseFormat = none)
    (served : Run (Guarded (Mindful (Fair (t.jobOf prompt params)) rid) Step) u after e)
    (once : admissions rid after = 0) : (∀ y ∈ e.scheduler.sequencesOf rid, ∃ a, (t.jobOf prompt params).Alone a ∧
      choiceText rid ((e.choiceOf y).getD 0) (deltas after) = a.text) ∧
    ∀ k reason promptTokens completionTokens,
      (rid, Delta.done k reason promptTokens completionTokens) ∈ deltas after → reason ≠ .error →
      ∃ a, (t.jobOf prompt params).Alone a ∧ (0 < params.maxTokens → ChoiceJob.Ruled (t.jobOf prompt params) a) ∧
        choiceText rid k (deltas after) = a.output ∧ reason = a.finish.getD .cancelled ∧
        promptTokens = prompt.length ∧ completionTokens = a.generated.length := by
  have unheld : (t.jobOf prompt params).constraint = none := by
    unfold jobOf
    rw [free]
    rfl
  have kept := run_minded (new_kept rid cfg pool ns eos decode tokenId compileFormat workerId spills) run
  obtain ⟨kept', owes⟩ := admitRequest_kept kept (fun _ => idle) entered
  rw [if_pos ⟨rfl, rfl⟩] at owes
  have untouched := admitRequest_untouched entered
  have sequences : u.scheduler.sequencesOf rid = [id] := by
    obtain ⟨pool, v, rfl, ⟨-, err, refused⟩ | ⟨id', ok, spec, -⟩⟩ := admitRequest_cases entered
    · cases refused
    · obtain rfl := Except.ok.inj ok
      rw [spec.own, spec.id]
      change t.scheduler.sequencesOf rid ++ _ = _
      rw [idle]
      rfl
  have start : Answering (t.jobOf prompt params) rid [] u := by
    refine ⟨untouched.agrees ⟨rfl, rfl, rfl⟩, fun y mem => ?_, fun _ _ _ _ _ _ => rfl, ?_,
      fun _ _ _ _ mem => absurd mem List.not_mem_nil⟩
    · rw [sequences, List.mem_singleton] at mem
      rw [mem]
      exact ⟨_, .start, admitRequest_shows free ⟨rfl, rfl, unheld⟩ entered, rfl⟩
    · rw [owes]
      exact List.nodup_range
  have all := run_answering start unheld kept' served once
  refine ⟨fun y mem => ?_, fun k reason p n mem served => ?_⟩
  · obtain ⟨a, alone, -, text⟩ := all.live y mem
    exact ⟨a, alone, text⟩
  · obtain ⟨a, alone, said, rest⟩ := all.told k reason p n mem served
    exact ⟨a, alone, fun pos => alone.ruled pos, said, rest⟩

end Runs

section Two

/-- Two choices of one token. -/
def single : SamplingParams := { n := 2, maxTokens := 1 }

/-- The second is told with two tokens, more than a choice alone has. -/
theorem sibling_overruns : ∃ after e,
    Run Step small ((.admitRequest ⟨"r"⟩ [1, 2] single "t" fun pool => pool, .admitted (.ok 0)) :: after) e ∧
      (⟨"r"⟩, Delta.done 1 .length 2 2) ∈ deltas after ∧
      ∀ a, (small.jobOf [1, 2] single).Alone a → a.generated.length ≠ 2 := by
  let start := small.admitRequest ⟨"r"⟩ [1, 2] single "t" fun pool => pool
  have entered : start.2 = .ok 0 := by decide +kernel
  have all : (start.1.serve (fun _ _ => True) [.step { rows := [{ token := 3, siblings := [4] }] },
      .step { rows := [{ token := 5 }] }]).map
      (fun r => decide ((⟨"r"⟩, Delta.done 1 .length 2 2) ∈ deltas r.1)) = some true := by decide +kernel
  obtain ⟨⟨after, e⟩, served, told⟩ := Option.map_eq_some_iff.mp all
  have first : small.Step (.admitRequest ⟨"r"⟩ [1, 2] single "t" fun pool => pool, .admitted (.ok 0)) start.1 := by
    change some (start.1, Reply.admitted start.2) = _
    rw [entered]
  refine ⟨after, e, .cons first ((serve_run served).mono fun _ _ _ step => step.2), of_decide_eq_true told,
    fun a alone two => ?_⟩
  have most := (alone.ruled Nat.one_pos).length
  rw [two] at most
  exact absurd most (by decide)

/-- Two choices of two tokens each. -/
def pair : SamplingParams := { n := 2, maxTokens := 2 }

theorem choices_alone_two : ∃ after e,
    Run (Guarded (Mindful (Fair (small.jobOf [1, 2] pair)) ⟨"r"⟩) Step)
      (small.admitRequest ⟨"r"⟩ [1, 2] pair "t" fun pool => pool).1 after e ∧
    (⟨"r"⟩, Delta.done 1 .length 2 2) ∈ deltas after ∧
    ∃ a, (small.jobOf [1, 2] pair).Alone a ∧ .length = a.finish.getD .cancelled ∧ 2 = a.generated.length := by
  let start := small.admitRequest ⟨"r"⟩ [1, 2] pair "t" fun pool => pool
  have entered : start.2 = .ok 0 := by decide +kernel
  have all : (start.1.serve (Mindful (Fair (small.jobOf [1, 2] pair)) ⟨"r"⟩)
      [.step { rows := [{ token := 3, siblings := [4] }] }, .step { rows := [{ token := 5 }, { token := 6 }] }]).map
      (fun r => decide (admissions ⟨"r"⟩ r.1 = 0 ∧ (⟨"r"⟩, Delta.done 1 .length 2 2) ∈ deltas r.1)) = some true := by
    decide +kernel
  obtain ⟨⟨after, e⟩, served, told⟩ := Option.map_eq_some_iff.mp all
  obtain ⟨once, told⟩ := of_decide_eq_true told
  have run := serve_run served
  obtain ⟨a, alone, -, -, reason, -, count⟩ :=
    (choices_alone .nil rfl (Prod.ext rfl entered) rfl run once).2 1 .length 2 2 told (by decide)
  exact ⟨after, e, run, told, a, alone, reason, count⟩

end Two

end GenerationEngine

end Vapi.Worker
