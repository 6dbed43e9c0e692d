import Vapi.Lib.Run
import Vapi.Worker.Draining
import Vapi.Worker.Forking

/-!
# Each request completes once, and last

Over any calls that cancel no leader before its fork, fail no request of
several sequences and make each fork whole or not at all, a request is
completed as often as it was admitted, none of its sequences is left then, and
nothing is told of it afterwards.
-/

namespace Vapi.Worker

open Cache Engine Proto
open Transition (Run Guarded)

namespace GenerationEngine

variable {H : Type} {B : Blake3 H} {e e' u : GenerationEngine B} {rid : RequestId} {id : SeqId}
  {events : List (RequestId × Delta)} {rows : List (SeqId × Draw)}

section Rows

theorem sampleRow_streams {x : Draw} (h : e.sampleRow id x = some e') : ∃ streams, e' = { e with streams } := by
  obtain ⟨st, -, h⟩ := Option.bind_eq_some_iff.mp h
  split at h
  · exact ⟨e.streams, (Option.some.inj h).symm⟩
  · exact ⟨_, (Option.some.inj h).symm⟩

theorem sampleLoop_streams (h : sampleLoop rows e = some e') : ∃ streams, e' = { e with streams } := by
  induction rows generalizing e with
  | nil => exact ⟨e.streams, (Option.some.inj h).symm⟩
  | cons row rows ih =>
    obtain ⟨id, x⟩ := row
    obtain ⟨u, one, rest⟩ := Option.bind_eq_some_iff.mp h
    obtain ⟨streams, rfl⟩ := sampleRow_streams one
    obtain ⟨streams', rfl⟩ := ih rest
    exact ⟨streams', rfl⟩

/-- What streaming rows comes to: text of live sequences, and which of them stopped. -/
structure Emits (rows : List (SeqId × Draw)) (e e' : GenerationEngine B) (events : List (RequestId × Delta))
    (stopped : List SeqId) : Prop where
  streams : ∃ streams, e' = { e with streams }
  told : ∀ event ∈ events, (∃ id, e.seqToRequest id = some event.1) ∧ doneChoice event.2 = none
  stopped : ∀ id ∈ stopped, id ∈ rows.map Prod.fst

theorem emitRow_emits {x : Draw} {stopped : List SeqId} (h : e.emitRow id x = some (e', events, stopped)) :
    Emits [(id, x)] e e' events stopped := by
  have none : Emits [(id, x)] e e [] [] :=
    ⟨⟨e.streams, rfl⟩, fun _ mem => absurd mem List.not_mem_nil, fun _ mem => absurd mem List.not_mem_nil⟩
  unfold emitRow at h
  split at h
  · simp only [Option.some.injEq, Prod.mk.injEq] at h
    obtain ⟨rfl, rfl, rfl⟩ := h
    exact none
  · cases served : e.seqToRequest id with
    | none =>
      simp only [served, Option.some.injEq, Prod.mk.injEq] at h
      obtain ⟨rfl, rfl, rfl⟩ := h
      exact none
    | some r =>
      cases stream : e.streams id with
      | none =>
        simp only [served, stream, Option.some.injEq, Prod.mk.injEq] at h
        obtain ⟨rfl, rfl, rfl⟩ := h
        exact none
      | some st =>
        simp only [served, stream] at h
        obtain ⟨⟨text, detok⟩, -, h⟩ := Option.bind_eq_some_iff.mp h
        simp only [Option.some.injEq, Prod.mk.injEq] at h
        obtain ⟨rfl, rfl, rfl⟩ := h
        refine ⟨⟨_, rfl⟩, fun event mem => ?_, fun y mem => ?_⟩
        · obtain ⟨text, -, rfl⟩ := List.mem_map.mp mem
          exact ⟨⟨id, served⟩, rfl⟩
        · split at mem
          · rw [List.mem_singleton.mp mem]
            exact List.mem_singleton_self id
          · cases mem

theorem emitLoop_emits {stopped : List SeqId} (h : emitLoop rows e = some (e', events, stopped)) :
    Emits rows e e' events stopped := by
  induction rows generalizing e events stopped with
  | nil =>
    simp only [emitLoop, Option.some.injEq, Prod.mk.injEq] at h
    obtain ⟨rfl, rfl, rfl⟩ := h
    exact ⟨⟨e.streams, rfl⟩, fun _ mem => absurd mem List.not_mem_nil, fun _ mem => absurd mem List.not_mem_nil⟩
  | cons row rows ih =>
    obtain ⟨id, x⟩ := row
    rw [emitLoop] at h
    obtain ⟨⟨u, first, here⟩, one, h⟩ := Option.bind_eq_some_iff.mp h
    obtain ⟨⟨v, more, others⟩, rest, h⟩ := Option.bind_eq_some_iff.mp h
    simp only [Option.some.injEq, Prod.mk.injEq] at h
    obtain ⟨rfl, rfl, rfl⟩ := h
    have spec := emitRow_emits one
    obtain ⟨streams, rfl⟩ := spec.streams
    have spec' := ih rest
    refine ⟨spec'.streams, fun event mem => (List.mem_append.mp mem).elim (spec.told event) (spec'.told event),
      fun x mem => ?_⟩
    rw [List.map_cons, List.mem_cons]
    rcases List.mem_append.mp mem with mem | mem
    · exact .inl (List.mem_singleton.mp (spec.stopped x mem))
    · exact .inr (spec'.stopped x mem)

theorem forksToMake_mem {f : ForkToMake} (mem : f ∈ e.forksToMake rows) :
    ∃ x extra, (f.leader, x) ∈ rows ∧ x.kind ≠ .token ∧ e.pendingForks f.leader = some extra ∧
      f.extra = if x.kind = .full then extra else 0 := by
  unfold forksToMake at mem
  obtain ⟨⟨id, x⟩, row, made⟩ := List.mem_filterMap.mp mem
  simp only at made
  split at made
  · cases made
  · rename_i read
    obtain ⟨extra, waits, rfl⟩ := Option.map_eq_some_iff.mp made
    exact ⟨x, extra, row, read, waits, rfl⟩

theorem forksToMake_of {x : Draw} {extra : Nat} (row : (id, x) ∈ rows) (read : x.kind ≠ .token)
    (waits : e.pendingForks id = some extra) : ∃ f ∈ e.forksToMake rows, f.leader = id := by
  refine ⟨⟨id, if x.kind = .full then extra else 0, x, e.paramsOf id⟩, ?_, rfl⟩
  unfold forksToMake
  refine List.mem_filterMap.mpr ⟨(id, x), row, ?_⟩
  simp only [read, if_false, waits, Option.map_some]

theorem forksToMake_leaders (e : GenerationEngine B) (rows : List (SeqId × Draw)) :
    ((e.forksToMake rows).map ForkToMake.leader).Sublist (rows.map Prod.fst) := by
  unfold forksToMake
  induction rows with
  | nil => exact .refl _
  | cons row rows ih =>
    obtain ⟨id, x⟩ := row
    rw [List.filterMap_cons]
    split
    · exact ih.cons id
    · rename_i f made
      have leader : f.leader = id := by
        by_cases token : x.kind = .token
        · simp only [token, if_true] at made
          cases made
        · simp only [token, if_false] at made
          obtain ⟨extra, -, rfl⟩ := Option.map_eq_some_iff.mp made
          rfl
      rw [List.map_cons, leader]
      exact ih.cons_cons id

end Rows

section Steps

variable [DecidableEq H]

/-- What committing a plan comes to for a request: text of live sequences, and
none ended but those that were sampled. -/
structure Commits (rid : RequestId) (plan : StepPlan) (e e' : GenerationEngine B) (events : List (RequestId × Delta)) :
    Prop where
  registered : Registered e'
  steady : Steady rid e e'
  ends : Ends (· ∈ plan.sampledSeqs) e.scheduler e'.scheduler
  pending : e'.pendingForks = e.pendingForks
  told : ∀ event ∈ events, (∃ id, e.seqToRequest id = some event.1) ∧ doneChoice event.2 = none

omit [DecidableEq H] in
theorem finishes_queued {s : Scheduler B} (q : Queued s) (ids : List SeqId) (reason : FinishReason) :
    Queued (ids.foldl (fun s id => s.finish id reason) s) := by
  induction ids generalizing s with
  | nil => exact q
  | cons id ids ih => exact ih (finish_queued q id reason)

omit [DecidableEq H] in
theorem finishes_enrolls (s : Scheduler B) (ids : List SeqId) (reason : FinishReason) :
    Enrolls s (ids.foldl (fun s id => s.finish id reason) s) := by
  induction ids generalizing s with
  | nil => exact .refl s
  | cons id ids ih => exact (finish_enrolls s id reason).trans (ih _)

theorem commitPlan_commits {plan : StepPlan} {draws : List Draw} (reg : Registered e)
    (h : e.commitPlan plan draws = some (e', events)) : Commits rid plan e e' events := by
  unfold commitPlan at h
  obtain ⟨u, sampled, h⟩ := Option.bind_eq_some_iff.mp h
  obtain ⟨⟨v, texts, stopped⟩, emitted, h⟩ := Option.bind_eq_some_iff.mp h
  obtain ⟨s, committed, h⟩ := Option.bind_eq_some_iff.mp h
  simp only [Option.some.injEq, Prod.mk.injEq] at h
  obtain ⟨rfl, rfl⟩ := h
  obtain ⟨streams, rfl⟩ := sampleLoop_streams sampled
  have spec := emitLoop_emits emitted
  obtain ⟨streams', rfl⟩ := spec.streams
  change (stopped.foldl (fun s id => s.finish id .stop) e.scheduler).commit plan (draws.map Draw.token) =
    some s at committed
  have ends : Ends (· ∈ plan.sampledSeqs) e.scheduler s := by
    refine ((finishes_ends stopped .stop e.scheduler).mono fun id mem => ?_).trans (commit_ends committed)
    have row := spec.stopped id mem
    obtain ⟨⟨x, draw⟩, there, rfl⟩ := List.mem_map.mp row
    exact (List.of_mem_zip there).1
  have queued := commit_queued (finishes_queued reg.queued stopped .stop) committed
  have filed := ((finishes_enrolls e.scheduler stopped .stop).trans (commit_enrolls committed)).filed reg.filed
  exact ⟨⟨queued, filed, fun id later => reg.fresh id (ends.nextId ▸ later)⟩,
    ⟨ends.sequencesOf rid, fun _ => .rfl, fun _ _ => rfl, fun _ _ => rfl, rfl⟩, ends, rfl, spec.told⟩

/-- The rows of a step, unless its forward fails. -/
def stepRows (e : GenerationEngine B) (draws : Draws) : List (SeqId × Draw) :=
  if draws.failure.isSome then []
  else e.scheduler.schedule.elim [] fun r => r.2.sampledSeqs.zip draws.rows

/-- The forks of a step, each with the engine it is made in. -/
def stepForks (e : GenerationEngine B) (draws : Draws) : List (GenerationEngine B × ForkToMake) :=
  if draws.failure.isSome then []
  else e.scheduler.schedule.elim [] fun r =>
    let u := (e.setScheduler r.1).spillEvicted
    (u.commitPlan r.2 draws.rows).elim [] fun done =>
      forkPoints (u.forksToMake (r.2.sampledSeqs.zip draws.rows)) done.1

omit [DecidableEq H] in
/-- Text of live sequences before what a call tells. -/
theorem Tells.prepend {out : StepOutput} {didWork : Bool} (h : Tells rid u e' out)
    (lives : u.scheduler.sequencesOf rid = [] ↔ e.scheduler.sequencesOf rid = [])
    (quiet : e.scheduler.sequencesOf rid = [] → ∀ event ∈ events, event.1 ≠ rid) :
    Tells rid e e' { events := events ++ out.events, completed := out.completed, didWork } := by
  refine ⟨h.registered, h.booked, h.settled, ?_, fun none event mem => ?_⟩
  · have flying : u.inFlight rid = e.inFlight rid := if_congr lives rfl rfl
    exact h.completed.trans flying
  · exact (List.mem_append.mp mem).elim (quiet none event) (h.quiet (lives.mpr none) event)

omit [DecidableEq H] in
/-- Nothing is told of a request that has no sequence. -/
theorem Booked.quiet (b : Booked rid e) (told : ∀ event ∈ events, ∃ id, e.seqToRequest id = some event.1)
    (none : e.scheduler.sequencesOf rid = []) : ∀ event ∈ events, event.1 ≠ rid := by
  rintro event mem rfl
  obtain ⟨id, own⟩ := told event mem
  have there := (b.own id).mp own
  rw [none] at there
  cases there

omit [DecidableEq H] in
theorem startedBy_mem {plan : StepPlan} :
    ∀ event ∈ e.startedBy plan, (∃ id, e.seqToRequest id = some event.1) ∧ doneChoice event.2 = none := by
  intro event mem
  unfold startedBy at mem
  obtain ⟨⟨id, cached⟩, -, started⟩ := List.mem_filterMap.mp mem
  obtain ⟨r, served, rfl⟩ := Option.map_eq_some_iff.mp started
  exact ⟨⟨id, served⟩, rfl⟩

/-- The ways a step ends: with nothing to run, with a forward that fails, or
with what was planned committed and its forks made. -/
theorem step_cases {draws : Draws} {r : Except Error StepOutput} (h : e.step draws = some (e', r)) :
    ∃ s plan e₁, e.scheduler.schedule = some (s, plan) ∧ e₁ = (e.setScheduler s).spillEvicted ∧
      ((∃ out didWork, e₁.drain = (e', out) ∧
          r = .ok { events := e₁.startedBy plan ++ out.events, completed := out.completed, didWork }) ∨
        (∃ err, draws.failure = some err ∧ e' = e₁ ∧ r = .error err) ∨
        draws.failure = none ∧ draws.rows.length = plan.sampledSeqs.length ∧ ∃ u texts v forked out didWork,
          e₁.commitPlan plan draws.rows = some (u, texts) ∧
          forkLoop (e₁.forksToMake (plan.sampledSeqs.zip draws.rows)) u = some (v, forked) ∧ v.drain = (e', out) ∧
          r = .ok
            { events := e₁.startedBy plan ++ (texts ++ forked) ++ out.events, completed := out.completed, didWork }) := by
  unfold step at h
  obtain ⟨⟨s, plan⟩, scheduled, h⟩ := Option.bind_eq_some_iff.mp h
  refine ⟨s, plan, _, scheduled, rfl, ?_⟩
  simp only at h
  split at h
  · rcases drained : (e.setScheduler s).spillEvicted.drain with ⟨v, out⟩
    simp only [drained, Option.some.injEq, Prod.mk.injEq] at h
    obtain ⟨rfl, rfl⟩ := h
    exact .inl ⟨out, out.didWork, rfl, rfl⟩
  · cases failed : draws.failure with
    | some err =>
      simp only [failed, Option.some.injEq, Prod.mk.injEq] at h
      obtain ⟨rfl, rfl⟩ := h
      exact .inr (.inl ⟨err, rfl, rfl, rfl⟩)
    | none =>
      simp only [failed] at h
      split at h
      · cases h
      · rename_i drawn
        obtain ⟨⟨ran_, told⟩, ran, h⟩ := Option.bind_eq_some_iff.mp h
        rcases drained : ran_.drain with ⟨w, out⟩
        simp only [drained, Option.some.injEq, Prod.mk.injEq] at h
        obtain ⟨rfl, rfl⟩ := h
        unfold runPlan at ran
        obtain ⟨⟨u, texts⟩, committed, ran⟩ := Option.bind_eq_some_iff.mp ran
        obtain ⟨⟨v, forked⟩, forks, ran⟩ := Option.bind_eq_some_iff.mp ran
        simp only [Option.some.injEq, Prod.mk.injEq] at ran
        obtain ⟨rfl, rfl⟩ := ran
        exact .inr (.inr ⟨rfl, not_not.mp drawn, u, texts, v, forked, out, true, committed, forks, drained, rfl⟩)

/-- What is planned for leaves the books as they are. -/
theorem scheduled_kept {s : Scheduler B} {plan : StepPlan} (rid : RequestId) (reg : Registered e)
    (scheduled : e.scheduler.schedule = some (s, plan)) :
    Registered (e.setScheduler s).spillEvicted ∧
      Ends (fun _ => False) e.scheduler (e.setScheduler s).spillEvicted.scheduler ∧
      Steady rid e (e.setScheduler s).spillEvicted := by
  obtain ⟨p, steps, rfl, -⟩ := schedule_steps scheduled reg.queued
  have passed : Ends (fun _ => False) e.scheduler p.scheduler := passSteps_ends steps
  obtain ⟨reg', spilled, same⟩ := setPool_kept rid (e.setScheduler p.scheduler)
    (if e.spills then p.scheduler.pool.takeEvicted.1 else p.scheduler.pool)
    (reg.setScheduler passed (passSteps_queued steps reg.queued) ((passSteps_enrolls steps).filed reg.filed))
  exact ⟨reg', passed.trans spilled, (setScheduler_steady passed).trans same⟩

theorem stepRows_eq {draws : Draws} {s : Scheduler B} {plan : StepPlan} (ran : draws.failure = none)
    (scheduled : e.scheduler.schedule = some (s, plan)) : e.stepRows draws = plan.sampledSeqs.zip draws.rows := by
  unfold stepRows
  rw [ran, scheduled]
  rfl

theorem stepForks_eq {draws : Draws} {s : Scheduler B} {plan : StepPlan} (ran : draws.failure = none)
    (scheduled : e.scheduler.schedule = some (s, plan))
    (committed : (e.setScheduler s).spillEvicted.commitPlan plan draws.rows = some (u, events)) :
    e.stepForks draws =
      forkPoints ((e.setScheduler s).spillEvicted.forksToMake (plan.sampledSeqs.zip draws.rows)) u := by
  unfold stepForks
  rw [ran, scheduled]
  simp only [Option.isSome_none, Bool.false_eq_true, if_false, Option.elim_some, committed]

omit [DecidableEq H] in
/-- The forks of a plan are of sequences that wait for siblings, each once. -/
theorem forksToMake_asked {plan : StepPlan} {draws : List Draw} (nodup : plan.sampledSeqs.Nodup)
    (length : draws.length = plan.sampledSeqs.length) :
    ((e.forksToMake (plan.sampledSeqs.zip draws)).map ForkToMake.leader).Nodup ∧
      ∀ f ∈ e.forksToMake (plan.sampledSeqs.zip draws),
        ∃ extra, e.pendingForks f.leader = some extra ∧ (f.extra = 0 ∨ f.extra = extra) := by
  have ids : (plan.sampledSeqs.zip draws).map Prod.fst = plan.sampledSeqs := List.map_fst_zip (Nat.le_of_eq length.symm)
  constructor
  · have sub := forksToMake_leaders e (plan.sampledSeqs.zip draws)
    rw [ids] at sub
    exact sub.nodup nodup
  · intro f mem
    obtain ⟨x, extra, -, -, waits, count⟩ := forksToMake_mem mem
    refine ⟨extra, waits, ?_⟩
    rw [count]
    split
    · exact .inr rfl
    · exact .inl rfl

omit [DecidableEq H] in
/-- After its forks no sequence of the request that has finished waits for siblings. -/
theorem Forkings.settles {plan : StepPlan} {draws : List Draw} {texts : List (RequestId × Delta)}
    {v : GenerationEngine B} (spec : Commits rid plan e u texts) (b : Booked rid e) (settled : Settled rid e)
    (length : draws.length = plan.sampledSeqs.length)
    (read : ∀ row ∈ plan.sampledSeqs.zip draws, e.seqToRequest row.1 = some rid → e.pendingForks row.1 ≠ none →
      row.2.kind ≠ .token)
    (forkings : Forkings rid (e.forksToMake (plan.sampledSeqs.zip draws)) u v events) : Settled rid v := by
  have ids : (plan.sampledSeqs.zip draws).map Prod.fst = plan.sampledSeqs := List.map_fst_zip (Nat.le_of_eq length.symm)
  apply forkings.settled
  intro id mem done
  rw [spec.steady.sequences] at mem
  rw [spec.pending]
  rcases spec.ends.finished id done with before | sampled
  · exact .inl (settled id mem before)
  · cases waits : e.pendingForks id with
    | none => exact .inl rfl
    | some extra =>
      rw [← ids] at sampled
      obtain ⟨⟨x, draw⟩, row, rfl⟩ := List.mem_map.mp sampled
      have kind := read (x, draw) row ((b.own x).mpr mem) (by rw [waits]; exact Option.some_ne_none _)
      exact .inr (forksToMake_of row kind waits)

/-- A step whose forks are whole, and in which no leader's row is only a token. -/
theorem step_tells {draws : Draws} {r : Except Error StepOutput} (reg : Registered e) (b : Booked rid e)
    (settled : Settled rid e)
    (whole : ∀ p ∈ e.stepForks draws, p.1.seqToRequest p.2.leader = some rid → Whole p.1 p.2)
    (read : ∀ row ∈ e.stepRows draws, e.seqToRequest row.1 = some rid → e.pendingForks row.1 ≠ none →
    row.2.kind ≠ .token)
    (h : e.step draws = some (e', r)) :
    Tells rid e e' (Reply.stepped r).output ∧
      ((∀ row ∈ e.stepRows draws, e.seqToRequest row.1 = some rid → e.pendingForks row.1 ≠ none → row.2.kind = .full) →
        Conserves rid e e' (Reply.stepped r).output.events) := by
  obtain ⟨s, plan, e₁, scheduled, eq, ends⟩ := step_cases h
  obtain ⟨reg₁, passed, same⟩ := scheduled_kept rid reg scheduled
  have pending₁ : e₁.pendingForks = e.pendingForks := eq ▸ rfl
  have owner₁ : e₁.seqToRequest = e.seqToRequest := eq ▸ rfl
  rw [← eq] at reg₁ passed same
  have b₁ := same.booked b
  have settled₁ : Settled rid e₁ := settled.steady same passed fun _ _ no => no.elim
  have started : ∀ event ∈ e₁.startedBy plan, (∃ id, e.seqToRequest id = some event.1) ∧ doneChoice event.2 = none :=
    owner₁ ▸ startedBy_mem
  rcases ends with ⟨out, didWork, drained, rfl⟩ | ⟨err, -, rfl, rfl⟩ | ⟨ran, length, u, texts, v, forked, out, didWork,
    committed, forks, drained, rfl⟩
  · obtain ⟨tells, kept⟩ := drain_tells reg₁ b₁ settled₁ drained
    refine ⟨tells.prepend (iff_of_eq (congrArg (· = []) same.sequences)) (b.quiet fun event mem =>
      (started event mem).1), fun _ => ?_⟩
    unfold Conserves at kept ⊢
    rw [← same.outstanding]
    change (dones rid (_ ++ out.events) ++ _).Perm _
    rw [dones_append, dones_eq_nil fun event mem => .inr (started event mem).2]
    exact kept
  · refine ⟨⟨reg₁, b₁, settled₁, ?_, fun _ _ mem => absurd mem List.not_mem_nil⟩, fun _ => ?_⟩
    · rw [inFlight_eq, inFlight_eq, same.outstanding]
      exact Nat.zero_add _
    · unfold Conserves
      rw [same.outstanding]
      exact .refl _
  · rw [stepRows_eq ran scheduled, ← owner₁, ← pending₁] at read ⊢
    rw [stepForks_eq ran scheduled (eq ▸ committed), ← eq] at whole
    have spec : Commits rid plan e₁ u texts := commitPlan_commits reg₁ committed
    have same₂ := same.trans spec.steady
    obtain ⟨nodup, asked⟩ := forksToMake_asked (e := e₁) (schedule_sampled_nodup reg.queued scheduled) length
    have forkings := forkLoop_forkings spec.registered (spec.steady.booked b₁) nodup (spec.pending ▸ asked) whole forks
    have settled₂ : Settled rid v := forkings.settles spec b₁ settled₁ length read
    obtain ⟨tells, kept⟩ := drain_tells forkings.registered forkings.booked settled₂ drained
    have lives : v.scheduler.sequencesOf rid = [] ↔ e.scheduler.sequencesOf rid = [] :=
      forkings.lives.trans (iff_of_eq (congrArg (· = []) same₂.sequences))
    refine ⟨tells.prepend lives fun none event mem => ?_, fun full => ?_⟩
    · rcases List.mem_append.mp mem with mem | mem
      · exact b.quiet (fun event mem => (started event mem).1) none event mem
      · rcases List.mem_append.mp mem with mem | mem
        · exact b₁.quiet (fun event mem => (spec.told event mem).1) (same.sequences.trans none) event mem
        · exact forkings.quiet (same₂.sequences.trans none) event mem
    · have forked_ := forkings.told fun f mem own => by
        obtain ⟨x, extra, row, -, waits, count⟩ := forksToMake_mem mem
        have kind := full (f.leader, x) row ((spec.steady.owner f.leader).mp own)
          (by rw [waits]; exact Option.some_ne_none _)
        rw [count, if_pos kind, spec.pending]
        exact waits
      unfold Conserves at kept ⊢
      change (dones rid (_ ++ out.events) ++ _).Perm _
      rw [dones_append, dones_append, dones_append, dones_eq_nil fun event mem => .inr (started event mem).2,
        dones_eq_nil fun event mem => .inr (spec.told event mem).2, List.nil_append, List.nil_append, List.append_assoc,
        ← same₂.outstanding]
      exact (kept.append_left _).trans forked_

end Steps

section Calls

/-- The invariant of a run. -/
structure Kept (rid : RequestId) (e : GenerationEngine B) : Prop where
  registered : Registered e
  booked : Booked rid e
  settled : Settled rid e

theorem Kept.setPool (kept : Kept rid e) (pool : BlockPool H) : Kept rid (e.setPool pool) := by
  obtain ⟨reg, ends, same⟩ := setPool_kept rid e pool kept.registered
  exact ⟨reg, same.booked kept.booked, kept.settled.steady same ends fun _ _ no => no.elim⟩

theorem Registered.known (reg : Registered e) (mem : id ∈ e.scheduler.sequencesOf rid) : id < e.scheduler.nextId := by
  obtain ⟨seq, live, -⟩ := (reg.filed.mem rid id).mp mem
  exact reg.filed.fresh id seq live

theorem choicesOf_pos (params : SamplingParams) : 0 < choicesOf params := by
  unfold choicesOf
  split
  · exact Nat.one_pos
  · exact Nat.lt_of_lt_of_le Nat.one_pos (Nat.le_max_right _ _)

/-- What an admission keeps of the request, unless it is refused and changes nothing. -/
theorem admitRequest_cases {r : RequestId} {prompt : List Token} {params : SamplingParams} {tenant : String}
    {promote : BlockPool H → BlockPool H} {res : Except Error SeqId}
    (h : e.admitRequest r prompt params tenant promote = (e', res)) :
    ∃ pool u, u = e.setPool pool ∧ ((e' = u ∧ ∃ err, res = .error err) ∨
    ∃ id, res = .ok id ∧ Admits r id u.scheduler e'.scheduler ∧
      e'.scheduler = (u.scheduler.admitRequest r prompt params tenant).1 ∧
      e'.seqToRequest = Function.update u.seqToRequest id (some r) ∧
      e'.choiceOf = Function.update u.choiceOf id (some 0) ∧
      e'.pendingForks = (if 1 < choicesOf params
        then Function.update u.pendingForks id (some (choicesOf params - 1)) else u.pendingForks) ∧
      e'.openChoices = Function.update u.openChoices r (some (choicesOf params))) := by
  unfold admitRequest at h
  cases compiled : params.responseFormat.mapM e.compileFormat with
  | error err =>
    simp only [compiled, Prod.mk.injEq] at h
    exact ⟨e.scheduler.pool, e, rfl, .inl ⟨h.1.symm, err, h.2.symm⟩⟩
  | ok schema =>
    simp only [compiled] at h
    rcases entered : (e.setPool (promote e.scheduler.pool)).scheduler.admitRequest r prompt params tenant with
      ⟨s, err | id⟩
    · simp only [entered, Prod.mk.injEq] at h
      obtain rfl := admit_error entered
      exact ⟨promote e.scheduler.pool, _, rfl, .inl ⟨h.1.symm, err, h.2.symm⟩⟩
    · simp only [entered, Prod.mk.injEq] at h
      obtain ⟨rfl, rfl⟩ := h
      have queued := congrArg Prod.fst entered.symm
      refine ⟨promote e.scheduler.pool, _, rfl, .inr ⟨id, rfl, ?_⟩⟩
      by_cases several : 1 < choicesOf params
      · simp only [several, if_true]
        exact ⟨admit_ok entered, queued, rfl, rfl, rfl, rfl⟩
      · simp only [several, if_false]
        exact ⟨admit_ok entered, queued, rfl, rfl, rfl, rfl⟩

/-- An admission of another request. -/
theorem Kept.admitted_steady {r : RequestId} {n : Option Nat} (kept : Kept rid u) (other : r ≠ rid)
    (spec : Admits r id u.scheduler e'.scheduler)
    (owner : e'.seqToRequest = Function.update u.seqToRequest id (some r))
    (choice : e'.choiceOf = Function.update u.choiceOf id (some 0))
    (pending : ∀ x, x ≠ id → e'.pendingForks x = u.pendingForks x)
    (count : e'.openChoices = Function.update u.openChoices r n) : Steady rid u e' := by
  have new : ∀ x, x ∈ u.scheduler.sequencesOf rid → x ≠ id := by
    rintro x mem rfl
    exact absurd (kept.registered.known mem) (Nat.not_lt.mpr (Nat.le_of_eq spec.id.symm))
  refine ⟨spec.other rid fun same => other same.symm, fun x => ?_, fun x mem => ?_,
    fun x mem => pending x (new x mem), ?_⟩
  · rw [owner, Function.update_apply]
    split
    · rename_i here
      constructor
      · intro same
        exact absurd (Option.some.inj same) other
      · intro own
        exact absurd here (new x ((kept.booked.own x).mp own))
    · rfl
  · rw [choice, Function.update_of_ne (new x mem)]
  · rw [count, Function.update_of_ne fun same => other same.symm]

theorem admitRequest_pending {params : SamplingParams}
    (pending : e'.pendingForks = if 1 < choicesOf params
      then Function.update u.pendingForks id (some (choicesOf params - 1)) else u.pendingForks) : ∀ x, x ≠ id → e'.pendingForks x = u.pendingForks x := by
  intro x ne
  rw [pending]
  split
  · exact Function.update_of_ne ne ..
  · rfl

/-- An admission that does not enter the request leaves it as it is. -/
theorem admitRequest_steady {r : RequestId} {prompt : List Token} {params : SamplingParams} {tenant : String}
    {promote : BlockPool H → BlockPool H} {res : Except Error SeqId} (kept : Kept rid e) (other : ¬(r = rid ∧ res.isOk))
    (h : e.admitRequest r prompt params tenant promote = (e', res)) : Steady rid e e' := by
  obtain ⟨pool, u, rfl, admitted⟩ := admitRequest_cases h
  obtain ⟨-, -, same⟩ := setPool_kept rid e pool kept.registered
  rcases admitted with ⟨rfl, err, rfl⟩ | ⟨id, rfl, spec, -, owner, choice, pending, count⟩
  · exact same
  · exact same.trans ((kept.setPool pool).admitted_steady (fun mine => other ⟨mine, rfl⟩) spec owner choice
      (admitRequest_pending pending) count)

/-- A request that is admitted owes all its choices. -/
theorem admitRequest_kept {r : RequestId} {prompt : List Token} {params : SamplingParams} {tenant : String}
    {promote : BlockPool H → BlockPool H} {res : Except Error SeqId} (kept : Kept rid e)
    (free : r = rid → e.scheduler.sequencesOf rid = [])
    (h : e.admitRequest r prompt params tenant promote = (e', res)) :
    Kept rid e' ∧
      e'.outstanding rid = if r = rid ∧ res.isOk then List.range (choicesOf params) else e.outstanding rid := by
  obtain ⟨pool, u, same, admitted⟩ := admitRequest_cases h
  have left : e.outstanding rid = u.outstanding rid := same ▸ rfl
  replace kept : Kept rid u := same ▸ kept.setPool pool
  replace free : r = rid → u.scheduler.sequencesOf rid = [] := fun mine => same ▸ free mine
  rw [left]
  rcases admitted with ⟨rfl, err, rfl⟩ | ⟨id, rfl, spec, scheduler, owner, choice, pending, count⟩
  · exact ⟨kept, (if_neg fun ok => Bool.noConfusion ok.2).symm⟩
  · have reg := kept.registered
    have others := admitRequest_pending pending
    have registered : Registered e' := by
      refine ⟨scheduler ▸ admit_queued reg.queued r prompt params tenant,
        (scheduler ▸ admit_enrolls u.scheduler r prompt params tenant).filed reg.filed, fun x later => ?_⟩
      rw [spec.nextId] at later
      rw [others x (by rw [spec.id]; exact Nat.ne_of_gt later)]
      exact reg.fresh x (Nat.le_of_succ_le later)
    by_cases mine : r = rid
    · subst mine
      have sequences : e'.scheduler.sequencesOf r = [id] := by
        rw [spec.own, free rfl, spec.id]
        rfl
      have owed_ : e'.outstanding r = List.range (choicesOf params) := by
        unfold outstanding owed
        rw [sequences, List.flatMap_cons, List.flatMap_nil, List.append_nil, choice, Function.update_self, pending]
        obtain ⟨n, count⟩ := Nat.exists_eq_succ_of_ne_zero (Nat.ne_of_gt (choicesOf_pos params))
        rw [count, List.range_eq_range', List.range'_succ]
        cases n with
        | zero =>
          rw [if_neg (Nat.lt_irrefl 1), reg.fresh id (Nat.le_of_eq spec.id.symm)]
          rfl
        | succ n =>
          rw [if_pos (Nat.succ_lt_succ (Nat.succ_pos n)), Function.update_self]
          rfl
      refine ⟨⟨registered, ⟨fun x => ?_, fun x extra there _ => ?_, fun _ => ?_⟩, fun x there done => ?_⟩, ?_⟩
      · rw [owner, sequences, List.mem_singleton, Function.update_apply]
        by_cases here : x = id
        · simp [here]
        · rw [if_neg here, kept.booked.own, free rfl]
          simp [here]
      · rw [sequences] at there ⊢
        rw [List.mem_singleton.mp there]
      · rw [count, Function.update_self, owed_, List.length_range]
      · rw [sequences] at there
        rw [spec.finished] at done
        obtain ⟨seq, live, -⟩ := (reg.queued.mem .finished x).mp done
        have old := reg.queued.fresh x seq live
        rw [List.mem_singleton.mp there, spec.id] at old
        exact absurd old (Nat.lt_irrefl _)
      · rw [owed_, if_pos ⟨rfl, rfl⟩]
    · have steady : Steady rid u e' := kept.admitted_steady mine spec owner choice others count
      refine ⟨⟨registered, steady.booked kept.booked, fun x there done => ?_⟩, ?_⟩
      · rw [steady.sequences] at there
        rw [steady.pending x there]
        exact kept.settled x there (spec.finished ▸ done)
      · rw [steady.outstanding, if_neg fun ok => mine ok.1]

/-- A request that waits for no siblings may be cancelled. -/
theorem cancel_kept {r : RequestId} (kept : Kept rid e)
    (forked : r = rid → ∀ id ∈ e.scheduler.sequencesOf rid, e.pendingForks id = none) :
    Kept rid (e.cancel r).1 ∧ (e.cancel r).1.outstanding rid = e.outstanding rid := by
  have reg := kept.registered
  have ends := cancel_ends e.scheduler r
  have eq : (e.cancel r).1 = e.setScheduler (e.scheduler.cancel r).1 := rfl
  have steady : Steady rid e (e.setScheduler (e.scheduler.cancel r).1) := setScheduler_steady ends
  rw [eq]
  refine ⟨⟨reg.setScheduler ends (cancel_queued reg.queued r) ((cancel_enrolls e.scheduler r).filed reg.filed),
    steady.booked kept.booked, kept.settled.steady steady ends fun id mem ended => ?_⟩, steady.outstanding⟩
  by_cases mine : r = rid
  · exact forked mine id mem
  · obtain ⟨seq, live, its⟩ := (reg.filed.mem rid id).mp mem
    obtain ⟨seq', live', other⟩ := (reg.filed.mem r id).mp ended
    obtain rfl := Option.some.inj (live.symm.trans live')
    exact absurd (other.symm.trans its) mine

/-- A request with a sequence is named once for each. -/
theorem requests_count (reg : Registered e) (b : Booked rid e) :
    e.requests.count rid = (e.scheduler.sequencesOf rid).length := by
  unfold requests
  rw [List.count_filterMap, List.countP_eq_length_filter]
  apply List.Perm.length_eq
  apply (List.perm_ext_iff_of_nodup (List.nodup_range.filter _) (sequencesOf_nodup reg.filed rid)).mpr
  intro id
  rw [List.mem_filter, List.mem_range, beq_iff_eq, b.own]
  exact ⟨fun both => both.2, fun mem => ⟨reg.known mem, mem⟩⟩

/-- When all is failed nothing is left of a request, and no choice is told as done. -/
theorem failAll_kept (kept : Kept rid e) (message : String) :
    Kept rid (e.failAll message).1 ∧ (e.failAll message).1.scheduler.sequencesOf rid = [] ∧
      dones rid (e.failAll message).2.events = [] := by
  have reg := kept.registered
  have spec := cancels e.requests reg.queued reg.filed
  have named : e.scheduler.sequencesOf rid ≠ [] → rid ∈ e.requests := by
    intro some_
    rw [← List.one_le_count_iff, requests_count reg kept.booked]
    exact List.length_pos_iff.mpr some_
  unfold failAll
  dsimp only
  generalize e.requests.foldl (fun s r => (s.cancel r).1) e.scheduler = s at spec
  have left := drainFinished_sequencesOf spec.queued spec.filed rid
  have none : s.drainFinished.1.sequencesOf rid = [] := by
    apply List.Perm.eq_nil
    refine left.trans (.of_eq ?_)
    apply List.filter_eq_nil_iff.mpr
    intro id mem
    rw [spec.lists] at mem
    have done := spec.ends rid (named (List.ne_nil_of_mem mem)) id mem
    simpa using done
  refine ⟨⟨⟨drainFinished_queued spec.queued, (drainFinished_spec spec.queued).2.2.2 spec.filed, fun id later => ?_⟩,
    ⟨fun id => ?_, fun id extra there _ => ?_, fun some_ => absurd none some_⟩, fun id there _ => ?_⟩, none, ?_⟩
  · apply reg.fresh
    rw [← spec.nextId, ← (drainFinished_emptied s).nextId]
    exact later
  · change Option.none = some rid ↔ id ∈ s.drainFinished.1.sequencesOf rid
    rw [none]
    simp
  · change id ∈ s.drainFinished.1.sequencesOf rid at there
    rw [none] at there
    cases there
  · change id ∈ s.drainFinished.1.sequencesOf rid at there
    rw [none] at there
    cases there
  · apply dones_eq_nil
    intro event mem
    obtain ⟨r, -, rfl⟩ := List.mem_map.mp mem
    exact .inr rfl

/-- A request of at most one sequence is told once when all is failed, if it had one. -/
theorem failAll_tells (kept : Kept rid e) (message : String) (single : (e.scheduler.sequencesOf rid).length ≤ 1) :
    Tells rid e (e.failAll message).1 (e.failAll message).2 ∧ (e.failAll message).1.outstanding rid = [] ∧
      dones rid (e.failAll message).2.events = [] := by
  obtain ⟨kept', none, quiet⟩ := failAll_kept kept message
  have count := requests_count kept.registered kept.booked
  refine ⟨⟨kept'.registered, kept'.booked, kept'.settled, ?_, fun idle event mem => ?_⟩, outstanding_eq_nil.mpr none,
    quiet⟩
  · change e.requests.count rid + (if (e.failAll message).1.scheduler.sequencesOf rid = [] then 0 else 1) = _
    rw [if_pos none, count]
    unfold inFlight
    split
    · rename_i idle
      rw [idle]
      rfl
    · rename_i some_
      have := List.length_pos_iff.mpr some_
      omega
  · obtain ⟨r, there, rfl⟩ := List.mem_map.mp mem
    rintro rfl
    rw [idle] at count
    exact List.count_eq_zero.mp count there

end Calls

section Runs

variable [DecidableEq H] {l : Request H × Reply} {ls : List (Request H × Reply)}

/-- Whether a call admitted the request. -/
def admitted (rid : RequestId) : Request H × Reply → Nat
  | (.admitRequest r _ _ _ _, .admitted (.ok _)) => if r = rid then 1 else 0
  | _ => 0

omit [DecidableEq H] in
theorem admitted_eq_zero (completed : rid ∈ l.2.output.completed) : admitted rid l = 0 := by
  unfold admitted
  split
  · cases completed
  · rfl

/-- How often a request was admitted. -/
def admissions (rid : RequestId) (ls : List (Request H × Reply)) : Nat := (ls.map (admitted rid)).sum

/-- How often a request was completed. -/
def completions (rid : RequestId) (ls : List (Request H × Reply)) : Nat :=
    (ls.map fun l => l.2.output.completed.count rid).sum

/-- A call that minds the request's books: it is not admitted again while it
has a sequence, not cancelled while its leader waits for siblings, not failed
with several sequences, and its leader's row is read and its fork whole. -/
def Careful (rid : RequestId) (e : GenerationEngine B) (l : Request H × Reply) : Prop :=
  match l.1 with
  | .admitRequest r _ _ _ _ => r = rid → e.scheduler.sequencesOf rid = []
  | .cancel r => r = rid → ∀ id ∈ e.scheduler.sequencesOf rid, e.pendingForks id = none
  | .failAll _ => (e.scheduler.sequencesOf rid).length ≤ 1
  | .step draws =>
    (∀ p ∈ e.stepForks draws, p.1.seqToRequest p.2.leader = some rid → Whole p.1 p.2) ∧
      ∀ row ∈ e.stepRows draws, e.seqToRequest row.1 = some rid → e.pendingForks row.1 ≠ none → row.2.kind ≠ .token

instance (rid : RequestId) (e : GenerationEngine B) (l : Request H × Reply) : Decidable (Careful rid e l) :=
  match l with
  | (.admitRequest r _ _ _ _, _) => inferInstanceAs (Decidable (r = rid → e.scheduler.sequencesOf rid = []))
  | (.cancel r, _) =>
    inferInstanceAs (Decidable (r = rid → ∀ id ∈ e.scheduler.sequencesOf rid, e.pendingForks id = none))
  | (.failAll _, _) => inferInstanceAs (Decidable ((e.scheduler.sequencesOf rid).length ≤ 1))
  | (.step draws, _) =>
    inferInstanceAs (Decidable (
      (∀ p ∈ e.stepForks draws, p.1.seqToRequest p.2.leader = some rid → Whole p.1 p.2) ∧
        ∀ row ∈ e.stepRows draws, e.seqToRequest row.1 = some rid → e.pendingForks row.1 ≠ none → row.2.kind ≠ .token))

omit [DecidableEq H] in
theorem inFlight_le (e : GenerationEngine B) (rid : RequestId) : e.inFlight rid ≤ 1 := by
  unfold inFlight
  split
  · exact Nat.zero_le 1
  · exact Nat.le_refl 1

/-- What a careful call does to a request. -/
theorem step_kept (kept : Kept rid e) (careful : Careful rid e l) (step : e.Step l e') :
    Kept rid e' ∧ l.2.output.completed.count rid + e'.inFlight rid = e.inFlight rid + admitted rid l ∧
      (e.scheduler.sequencesOf rid = [] → ∀ event ∈ l.2.output.events, event.1 ≠ rid) := by
  obtain ⟨request, reply⟩ := l
  change e.exec request = some (e', reply) at step
  cases request with
  | admitRequest r prompt params tenant promote =>
    rcases entered : e.admitRequest r prompt params tenant promote with ⟨u, res⟩
    simp only [exec, entered, Option.some.injEq, Prod.mk.injEq] at step
    obtain ⟨rfl, rfl⟩ := step
    obtain ⟨kept', left⟩ := admitRequest_kept kept careful entered
    refine ⟨kept', ?_, fun _ _ mem => absurd mem List.not_mem_nil⟩
    change 0 + u.inFlight rid = _
    rw [Nat.zero_add, inFlight_eq, inFlight_eq]
    cases res with
    | error err =>
      rw [if_neg fun ok => Bool.noConfusion ok.2] at left
      rw [left]
      rfl
    | ok id =>
      by_cases mine : r = rid
      · rw [if_pos ⟨mine, rfl⟩] at left
        have none : e.outstanding rid = [] := outstanding_eq_nil.mpr (careful mine)
        rw [left, none, List.length_range, if_neg (Nat.ne_of_gt (choicesOf_pos params))]
        change 1 = 0 + if r = rid then 1 else 0
        rw [if_pos mine]
      · rw [if_neg fun ok => mine ok.1] at left
        rw [left]
        change _ = _ + if r = rid then 1 else 0
        rw [if_neg mine, Nat.add_zero]
  | cancel r =>
    simp only [exec, Option.some.injEq, Prod.mk.injEq] at step
    obtain ⟨rfl, rfl⟩ := step
    obtain ⟨kept', left⟩ := cancel_kept kept careful
    refine ⟨kept', ?_, fun _ _ mem => absurd mem List.not_mem_nil⟩
    change 0 + (e.cancel r).1.inFlight rid = e.inFlight rid + 0
    rw [Nat.zero_add, inFlight_eq, inFlight_eq, left, Nat.add_zero]
  | failAll message =>
    simp only [exec, Option.some.injEq, Prod.mk.injEq] at step
    obtain ⟨rfl, rfl⟩ := step
    obtain ⟨tells, -, -⟩ := failAll_tells kept message careful
    exact ⟨⟨tells.registered, tells.booked, tells.settled⟩, tells.completed, tells.quiet⟩
  | step draws =>
    obtain ⟨⟨u, r⟩, stepped, eq⟩ := Option.map_eq_some_iff.mp step
    obtain ⟨rfl, rfl⟩ := Prod.mk.inj eq
    obtain ⟨tells, -⟩ := step_tells kept.registered kept.booked kept.settled careful.1 careful.2 stepped
    exact ⟨⟨tells.registered, tells.booked, tells.settled⟩, tells.completed, tells.quiet⟩

/-- A run of careful calls completes a request as often as it admits it, but for
the one in flight. -/
theorem run_kept {start : GenerationEngine B} (kept : Kept rid start)
    (run : Run (Guarded (Careful rid) Step) start ls e) :
    Kept rid e ∧ completions rid ls + e.inFlight rid = start.inFlight rid + admissions rid ls := by
  induction run with
  | nil => exact ⟨kept, Nat.add_comm 0 _⟩
  | snoc _ step ih =>
    obtain ⟨kept', count⟩ := ih
    obtain ⟨kept'', count', -⟩ := step_kept kept' step.1 step.2
    refine ⟨kept'', ?_⟩
    unfold completions admissions at count ⊢
    rw [List.map_append, List.sum_append, List.map_append, List.sum_append, List.map_singleton, List.sum_singleton,
      List.map_singleton, List.sum_singleton]
    omega

/-- Until it is admitted again, nothing is told of a request that has no sequence. -/
theorem run_quiet {start : GenerationEngine B} (kept : Kept rid start) (idle : start.scheduler.sequencesOf rid = [])
    (run : Run (Guarded (Careful rid) Step) start ls e) (once : admissions rid ls = 0) :
    e.scheduler.sequencesOf rid = [] ∧
      ∀ l ∈ ls, rid ∉ l.2.output.completed ∧ ∀ event ∈ l.2.output.events, event.1 ≠ rid := by
  induction run with
  | nil => exact ⟨idle, fun _ mem => absurd mem List.not_mem_nil⟩
  | @snoc ls t u l run step ih =>
    unfold admissions at once
    rw [List.map_append, List.sum_append, List.map_singleton, List.sum_singleton] at once
    obtain ⟨idle', quiet⟩ := ih (Nat.eq_zero_of_add_eq_zero_right once)
    obtain ⟨kept', -⟩ := run_kept kept run
    obtain ⟨-, count, told⟩ := step_kept kept' step.1 step.2
    rw [Nat.eq_zero_of_add_eq_zero_left once] at count
    have none : t.inFlight rid = 0 := if_pos idle'
    rw [none, Nat.add_zero] at count
    constructor
    · by_contra some_
      have one : u.inFlight rid = 1 := if_neg some_
      omega
    · intro m mem
      rcases List.mem_append.mp mem with mem | mem
      · exact quiet m mem
      · rw [List.mem_singleton.mp mem]
        exact ⟨List.count_eq_zero.mp (Nat.eq_zero_of_add_eq_zero_right count), told idle'⟩

omit [DecidableEq H] in
theorem new_kept (rid : RequestId) (cfg : SchedulerConfig) (pool : BlockPool H) (ns : CacheNamespace B)
    (eos : List Token) (decode : List Nat → Text) (tokenId : Text → Option Nat)
    (compileFormat : ResponseFormat → Except Error Structured.Schema) (workerId : String) (spills : Bool) :
    Kept rid (new (Scheduler.new cfg pool ns eos) decode tokenId compileFormat workerId spills) := by
  have none : (Scheduler.new cfg pool ns eos).sequencesOf rid = [] := rfl
  refine ⟨⟨new_queued cfg pool ns eos, ⟨?_, ?_, ?_⟩, fun _ _ => rfl⟩, ⟨fun id => ?_, fun _ _ there => ?_,
    fun some_ => absurd none some_⟩,
    fun _ there => ?_⟩
  · intro id seq live
    cases live
  · intro requestId ids known
    cases known
  · intro requestId id
    constructor
    · intro mem
      cases mem
    · rintro ⟨seq, live, -⟩
      cases live
  · change Option.none = some rid ↔ id ∈ (Scheduler.new cfg pool ns eos).sequencesOf rid
    rw [none]
    simp
  · cases there
  · cases there

omit [DecidableEq H] in
/-- An idle engine holds no sequence. -/
theorem idle_sequencesOf (kept : Kept rid e) (idle : e.isIdle = true) : e.scheduler.sequencesOf rid = [] := by
  unfold isIdle at idle
  rw [Bool.and_eq_true, Bool.and_eq_true, decide_eq_true_eq, decide_eq_true_eq] at idle
  obtain ⟨⟨running, waiting⟩, finished⟩ := idle
  apply List.eq_nil_iff_forall_not_mem.mpr
  intro id mem
  obtain ⟨seq, live, -⟩ := (kept.registered.filed.mem rid id).mp mem
  have there := (kept.registered.queued.mem seq.status.place id).mpr ⟨seq, live, rfl⟩
  cases place : seq.status.place <;> rw [place] at there
  · change id ∈ e.scheduler.waiting at there
    rw [List.length_eq_zero_iff.mp waiting] at there
    cases there
  · change id ∈ e.scheduler.running at there
    rw [List.length_eq_zero_iff.mp running] at there
    cases there
  · change id ∈ e.scheduler.finished at there
    unfold Scheduler.hasFinished at finished
    rw [Bool.not_not, List.isEmpty_iff] at finished
    rw [finished] at there
    cases there

/-- Over every run of careful calls on a new engine: a request is completed as
often as it was admitted, but for the time it is in flight, and exactly so
when the engine is idle. When it is completed none of its sequences is left,
and until it is admitted again nothing more is told of it and it is not
completed again. -/
theorem completes_once {cfg : SchedulerConfig} {pool : BlockPool H} {ns : CacheNamespace B} {eos : List Token}
    {decode : List Nat → Text} {tokenId : Text → Option Nat}
    {compileFormat : ResponseFormat → Except Error Structured.Schema} {workerId : String} {spills : Bool}
    (run : Run (Guarded (Careful rid) Step) (new (Scheduler.new cfg pool ns eos) decode tokenId compileFormat workerId
    spills) ls e) :
    completions rid ls + e.inFlight rid = admissions rid ls ∧
    (e.isIdle = true → completions rid ls = admissions rid ls) ∧
    ∀ before l after, ls = before ++ l :: after → rid ∈ l.2.output.completed →
      ∃ u, Run (Guarded (Careful rid) Step) (new (Scheduler.new cfg pool ns eos) decode tokenId compileFormat workerId
      spills)
          (before ++ [l]) u ∧
        Run (Guarded (Careful rid) Step) u after e ∧
        l.2.output.completed.count rid = 1 ∧ u.scheduler.sequencesOf rid = [] ∧
        (admissions rid after = 0 →
          ∀ m ∈ after, rid ∉ m.2.output.completed ∧ ∀ event ∈ m.2.output.events, event.1 ≠ rid) := by
  have kept := new_kept rid cfg pool ns eos decode tokenId compileFormat workerId spills
  obtain ⟨kept', count⟩ := run_kept kept run
  have start : (new (Scheduler.new cfg pool ns eos) decode tokenId compileFormat workerId spills).inFlight rid = 0 :=
    rfl
  rw [start, Nat.zero_add] at count
  refine ⟨count, fun idle => ?_, fun before l after cut completed => ?_⟩
  · have none : e.inFlight rid = 0 := if_pos (idle_sequencesOf kept' idle)
    rw [none] at count
    exact count
  · rw [cut, List.append_cons] at run
    obtain ⟨u, first, second⟩ := run.split
    obtain ⟨t, upto, step⟩ := first.last
    obtain ⟨keptt, -⟩ := run_kept kept upto
    obtain ⟨keptu, counted, -⟩ := step_kept keptt step.1 step.2
    have some_ : 0 < l.2.output.completed.count rid := List.count_pos_iff.mpr completed
    have none : admitted rid l = 0 := admitted_eq_zero completed
    have most := inFlight_le t rid
    have idle : u.scheduler.sequencesOf rid = [] := by
      by_contra held
      have one : u.inFlight rid = 1 := if_neg held
      omega
    refine ⟨u, first, second, by omega, idle, fun once => (run_quiet keptu idle second once).2⟩

/-- Calls in turn, with their replies; none where one of them panics or is not allowed. -/
def serve (allow : GenerationEngine B → Request H × Reply → Prop) [∀ e l, Decidable (allow e l)] :
    List (Request H) → GenerationEngine B → Option (List (Request H × Reply) × GenerationEngine B)
  | [], e => some ([], e)
  | r :: rs, e => do
    let (u, reply) ← e.exec r
    if allow e (r, reply) then
      let (ls, v) ← serve allow rs u
      some ((r, reply) :: ls, v)
    else none

theorem serve_run {allow : GenerationEngine B → Request H × Reply → Prop} [∀ e l, Decidable (allow e l)]
    {rs : List (Request H)} (h : e.serve allow rs = some (ls, e')) : Run (Guarded allow Step) e ls e' := by
  induction rs generalizing e ls with
  | nil =>
    simp only [serve, Option.some.injEq, Prod.mk.injEq] at h
    obtain ⟨rfl, rfl⟩ := h
    exact .nil
  | cons r rs ih =>
    obtain ⟨⟨u, reply⟩, step, h⟩ := Option.bind_eq_some_iff.mp h
    by_cases allowed : allow e (r, reply)
    · simp only [if_pos allowed] at h
      obtain ⟨⟨ms, v⟩, rest, h⟩ := Option.bind_eq_some_iff.mp h
      simp only [Option.some.injEq, Prod.mk.injEq] at h
      obtain ⟨rfl, rfl⟩ := h
      exact .cons ⟨allowed, step⟩ (ih rest)
    · simp only [if_neg allowed] at h
      cases h

end Runs

section Two

/-- An engine with four blocks of four tokens. -/
def small : GenerationEngine Blake3.identity :=
  new (Scheduler.fresh { blockSize := 4, prefixCache := false } 4 0) (fun _ => []) (fun _ => none)
    (fun _ => .error (.engine "no format")) "w" false

/-- Two choices of two tokens each. -/
def two : Request (List UInt8) := .admitRequest ⟨"r"⟩ [1, 2] { n := 2, maxTokens := 2 } "t" fun pool => pool

/-- A step that forks it. -/
def forked : Request (List UInt8) := .step { rows := [{ token := 3, siblings := [4] }] }

/-- A request of two choices that is cancelled before its first step is never
completed, and one that is failed after its fork is completed twice. -/
theorem cancelled_unforked :
    (∃ ls e, Run Step small ls e ∧ e.isIdle = true ∧ admissions ⟨"r"⟩ ls = 1 ∧ completions ⟨"r"⟩ ls = 0) ∧
      ∃ ls e, Run Step small ls e ∧ e.isIdle = true ∧ admissions ⟨"r"⟩ ls = 1 ∧ completions ⟨"r"⟩ ls = 2 := by
  have lost : (small.serve (fun _ _ => True) [two, .cancel ⟨"r"⟩, .step {}]).map
      (fun r => (r.2.isIdle, admissions ⟨"r"⟩ r.1, completions ⟨"r"⟩ r.1)) = some (true, 1, 0) := by decide +kernel
  have twice : (small.serve (fun _ _ => True) [two, forked, .failAll "failed"]).map
      (fun r => (r.2.isIdle, admissions ⟨"r"⟩ r.1, completions ⟨"r"⟩ r.1)) = some (true, 1, 2) := by decide +kernel
  obtain ⟨⟨ls, e⟩, served, counts⟩ := Option.map_eq_some_iff.mp lost
  obtain ⟨⟨ms, u⟩, served', counts'⟩ := Option.map_eq_some_iff.mp twice
  simp only [Prod.mk.injEq] at counts counts'
  exact ⟨⟨ls, e, (serve_run served).mono fun _ _ _ step => step.2, counts⟩,
    ⟨ms, u, (serve_run served').mono fun _ _ _ step => step.2, counts'⟩⟩

/-- Served to its end, it is completed once. -/
theorem completes_once_two : ∃ ls e, Run (Guarded (Careful ⟨"r"⟩) Step) small ls e ∧ e.isIdle = true ∧
    admissions ⟨"r"⟩ ls = 1 ∧ completions ⟨"r"⟩ ls = admissions ⟨"r"⟩ ls := by
  have all : (small.serve (Careful ⟨"r"⟩) [two, forked, .step { rows := [{ token := 5 }, { token := 6 }] }]).map
      (fun r => (r.2.isIdle, admissions ⟨"r"⟩ r.1)) = some (true, 1) := by decide +kernel
  obtain ⟨⟨ls, e⟩, served, counts⟩ := Option.map_eq_some_iff.mp all
  simp only [Prod.mk.injEq] at counts
  obtain ⟨idle, admitted⟩ := counts
  exact ⟨ls, e, serve_run served, idle, admitted, (completes_once (serve_run served)).2.1 idle⟩

end Two

end GenerationEngine

end Vapi.Worker
