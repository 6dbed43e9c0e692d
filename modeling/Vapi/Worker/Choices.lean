import Vapi.Gateway.Awaited
import Vapi.Worker.Completes

/-!
# One last word for each choice

The choices the engine closes for a request are the ones the gateway waits
for, where nothing goes wrong with its fork and it is not a greedy request of
several choices.
-/

namespace Vapi.Worker

open Cache Engine Proto
open Gateway (StreamEvent Prepared Served CallReader OutputParser delivers finals Final)
open Transition (Run Guarded)

namespace GenerationEngine

variable {H : Type} {B : Blake3 H} {e e' u : GenerationEngine B} {rid : RequestId} {id : SeqId}
  {events : List (RequestId × Delta)}

section Generated

/-- What a generation is told in. -/
def Generated (events : List (RequestId × Delta)) : Prop := ∀ event ∈ events, delivers (.ofDelta event.2)

theorem Generated.append {more : List (RequestId × Delta)} (h : Generated events) (k : Generated more) :
    Generated (events ++ more) :=
  fun event mem => (List.mem_append.mp mem).elim (h event) (k event)

theorem Generated.map {α : Type} {xs : List α} {f : α → RequestId × Delta} (h : ∀ x, delivers (.ofDelta (f x).2)) :
    Generated (xs.map f) := by
  intro event mem
  obtain ⟨x, -, rfl⟩ := List.mem_map.mp mem
  exact h x

theorem Generated.nil : Generated [] := fun _ mem => absurd mem List.not_mem_nil

theorem startedBy_generated (e : GenerationEngine B) (plan : StepPlan) : Generated (e.startedBy plan) := by
  intro event mem
  obtain ⟨⟨id, cached⟩, -, started⟩ := List.mem_filterMap.mp mem
  obtain ⟨r, -, rfl⟩ := Option.map_eq_some_iff.mp started
  rfl

theorem emitRow_generated {x : Draw} {stopped : List SeqId} (h : e.emitRow id x = some (e', events, stopped)) :
    Generated events := by
  unfold emitRow at h
  split at h
  · simp only [Option.some.injEq, Prod.mk.injEq] at h
    obtain ⟨-, rfl, -⟩ := h
    exact .nil
  · split at h
    · obtain ⟨⟨text, detok⟩, -, h⟩ := Option.bind_eq_some_iff.mp h
      simp only [Option.some.injEq, Prod.mk.injEq] at h
      obtain ⟨-, rfl, -⟩ := h
      exact .map fun _ => rfl
    · simp only [Option.some.injEq, Prod.mk.injEq] at h
      obtain ⟨-, rfl, -⟩ := h
      exact .nil

theorem emitLoop_generated {rows : List (SeqId × Draw)} {stopped : List SeqId}
    (h : emitLoop rows e = some (e', events, stopped)) : Generated events := by
  induction rows generalizing e events stopped with
  | nil =>
    simp only [emitLoop, Option.some.injEq, Prod.mk.injEq] at h
    obtain ⟨-, rfl, -⟩ := h
    exact .nil
  | cons row rows ih =>
    obtain ⟨id, x⟩ := row
    rw [emitLoop] at h
    obtain ⟨⟨u, first, here⟩, one, h⟩ := Option.bind_eq_some_iff.mp h
    obtain ⟨⟨v, more, others⟩, rest, h⟩ := Option.bind_eq_some_iff.mp h
    simp only [Option.some.injEq, Prod.mk.injEq] at h
    obtain ⟨rfl, rfl, rfl⟩ := h
    exact (emitRow_generated one).append (ih rest)

theorem drainOne_generated (e : GenerationEngine B) (id : SeqId) (seq : Sequence) :
    Generated (e.drainOne id seq).2.1 := by
  unfold drainOne
  cases e.seqToRequest id with
  | none => exact .nil
  | some r =>
    refine Generated.append ?_ fun event mem => ?_
    · unfold release
      split
      · exact .nil
      · split
        · intro event mem
          rw [List.mem_singleton.mp mem]
          rfl
        · exact .nil
    · rw [List.mem_singleton.mp mem]
      rfl

theorem drainLoop_generated (l : List (SeqId × Sequence)) (e : GenerationEngine B) : Generated (drainLoop l e).2.1 := by
  induction l generalizing e with
  | nil => exact .nil
  | cons x l ih =>
    obtain ⟨id, seq⟩ := x
    exact (drainOne_generated e id seq).append (ih _)

theorem drain_generated (e : GenerationEngine B) : Generated e.drain.2.events := drainLoop_generated _ _

variable [DecidableEq H]

theorem seedSiblings_generated {prompt : List Token} {stop : StopCondition} {ids : List SeqId} {choice : Nat}
    {tokens : List Token} {all : Bool} (h : seedSiblings rid prompt stop ids choice tokens e = some (e', events, all)) :
    Generated events := by
  induction ids generalizing e choice tokens events with
  | nil =>
    simp only [seedSiblings, Option.some.injEq, Prod.mk.injEq] at h
    obtain ⟨-, rfl, -⟩ := h
    exact .nil
  | cons id ids ih =>
    cases tokens with
    | nil => cases h
    | cons token tokens =>
      rw [seedSiblings] at h
      rcases seeded : e.scheduler.seedFork id token with ⟨s, err | ⟨⟩⟩
      · simp only [seeded, Option.some.injEq, Prod.mk.injEq] at h
        obtain ⟨-, rfl, -⟩ := h
        exact .nil
      · simp only [seeded] at h
        obtain ⟨⟨text, detok⟩, -, h⟩ := Option.bind_eq_some_iff.mp h
        obtain ⟨⟨e₂, more, all₂⟩, rest, h⟩ := Option.bind_eq_some_iff.mp h
        simp only [Option.some.injEq, Prod.mk.injEq] at h
        obtain ⟨rfl, rfl, rfl⟩ := h
        exact Generated.append (.map fun _ => rfl) (ih rest)

theorem forkRequest_generated {f : ForkToMake} {made : Bool} (h : e.forkRequest f = some (e', events, made)) :
    Generated events := by
  unfold forkRequest at h
  split at h
  · simp only [Option.some.injEq, Prod.mk.injEq] at h
    obtain ⟨-, rfl, -⟩ := h
    exact .nil
  · split at h
    · simp only [Option.some.injEq, Prod.mk.injEq] at h
      obtain ⟨-, rfl, -⟩ := h
      exact .nil
    · split at h
      · simp only [Option.some.injEq, Prod.mk.injEq] at h
        obtain ⟨-, rfl, -⟩ := h
        exact .nil
      · exact seedSiblings_generated h

theorem makeFork_generated {f : ForkToMake} (h : e.makeFork f = some (e', events)) : Generated events := by
  rcases makeFork_cases h with ⟨-, -, rfl⟩ | ⟨u, told, made, -, request, ⟨-, -, rfl⟩ | ⟨-, -, rfl⟩⟩
  · exact .nil
  · exact forkRequest_generated request
  · refine (forkRequest_generated request).append ?_
    cases u.seqToRequest f.leader with
    | none => exact .nil
    | some r => exact .map fun _ => rfl

theorem forkLoop_generated {forks : List ForkToMake} (h : forkLoop forks e = some (e', events)) : Generated events := by
  induction forks generalizing e events with
  | nil =>
    simp only [forkLoop, Option.some.injEq, Prod.mk.injEq] at h
    obtain ⟨-, rfl⟩ := h
    exact .nil
  | cons f forks ih =>
    rw [forkLoop] at h
    obtain ⟨⟨u, first⟩, one, h⟩ := Option.bind_eq_some_iff.mp h
    obtain ⟨⟨v, more⟩, rest, h⟩ := Option.bind_eq_some_iff.mp h
    simp only [Option.some.injEq, Prod.mk.injEq] at h
    obtain ⟨rfl, rfl⟩ := h
    exact (makeFork_generated one).append (ih rest)

theorem runPlan_generated {plan : StepPlan} {draws : List Draw} (h : e.runPlan plan draws = some (e', events)) :
    Generated events := by
  unfold runPlan at h
  obtain ⟨⟨u, texts⟩, committed, h⟩ := Option.bind_eq_some_iff.mp h
  obtain ⟨⟨v, forked⟩, forks, h⟩ := Option.bind_eq_some_iff.mp h
  simp only [Option.some.injEq, Prod.mk.injEq] at h
  obtain ⟨-, rfl⟩ := h
  unfold commitPlan at committed
  obtain ⟨w, -, committed⟩ := Option.bind_eq_some_iff.mp committed
  obtain ⟨⟨x, told, stopped⟩, emitted, committed⟩ := Option.bind_eq_some_iff.mp committed
  obtain ⟨s, -, committed⟩ := Option.bind_eq_some_iff.mp committed
  simp only [Option.some.injEq, Prod.mk.injEq] at committed
  obtain ⟨-, rfl⟩ := committed
  exact (emitLoop_generated emitted).append (forkLoop_generated forks)

/-- A step tells of nothing but starts, tokens and last words. -/
theorem step_generated {draws : Draws} {r : Except Error StepOutput} (h : e.step draws = some (e', r)) :
    Generated (Reply.stepped r).output.events := by
  unfold step at h
  obtain ⟨⟨s, plan⟩, -, h⟩ := Option.bind_eq_some_iff.mp h
  have started := startedBy_generated (e.setScheduler s).spillEvicted plan
  simp only at h
  split at h
  · simp only [Option.some.injEq, Prod.mk.injEq] at h
    obtain ⟨-, rfl⟩ := h
    exact started.append (drain_generated _)
  · split at h
    · simp only [Option.some.injEq, Prod.mk.injEq] at h
      obtain ⟨-, rfl⟩ := h
      exact .nil
    · split at h
      · cases h
      · obtain ⟨⟨u, told⟩, ran, h⟩ := Option.bind_eq_some_iff.mp h
        simp only [Option.some.injEq, Prod.mk.injEq] at h
        obtain ⟨-, rfl⟩ := h
        exact (started.append (runPlan_generated ran)).append (drain_generated _)

end Generated

section Runs

variable [DecidableEq H] {l : Request H × Reply} {ls : List (Request H × Reply)}

/-- The deltas of a request, as its stream has them. -/
def told (rid : RequestId) (ls : List (Request H × Reply)) : List StreamEvent :=
  ls.flatMap fun l => l.2.output.events.filterMap fun event => if event.1 = rid then some (.ofDelta event.2) else none

/-- A call that leaves a request to itself: it is not cancelled or failed, nor
admitted again while it has a sequence; it is not greedy with several choices;
and its leader's row is read in full and its fork whole. -/
def Undisturbed (rid : RequestId) (e : GenerationEngine B) (l : Request H × Reply) : Prop :=
  match l.1 with
  | .admitRequest r _ params _ _ => r = rid → e.scheduler.sequencesOf rid = [] ∧ ¬(params.isGreedy ∧ 1 < params.n)
  | .cancel r => r ≠ rid
  | .failAll _ => e.scheduler.sequencesOf rid = []
  | .step draws =>
    (∀ p ∈ e.stepForks draws, p.1.seqToRequest p.2.leader = some rid → Whole p.1 p.2) ∧
      ∀ row ∈ e.stepRows draws, e.seqToRequest row.1 = some rid → e.pendingForks row.1 ≠ none → row.2.kind = .full

instance (rid : RequestId) (e : GenerationEngine B) (l : Request H × Reply) : Decidable (Undisturbed rid e l) :=
  match l with
  | (.admitRequest r _ params _ _, _) =>
    inferInstanceAs (Decidable (r = rid → e.scheduler.sequencesOf rid = [] ∧ ¬(params.isGreedy ∧ 1 < params.n)))
  | (.cancel r, _) => inferInstanceAs (Decidable (r ≠ rid))
  | (.failAll _, _) => inferInstanceAs (Decidable (e.scheduler.sequencesOf rid = []))
  | (.step draws, _) =>
    inferInstanceAs (Decidable (
      (∀ p ∈ e.stepForks draws, p.1.seqToRequest p.2.leader = some rid → Whole p.1 p.2) ∧
        ∀ row ∈ e.stepRows draws, e.seqToRequest row.1 = some rid → e.pendingForks row.1 ≠ none → row.2.kind = .full))

theorem Undisturbed.careful (h : Undisturbed rid e l) : Careful rid e l := by
  obtain ⟨request, reply⟩ := l
  cases request with
  | admitRequest r prompt params tenant promote => exact fun mine => (h mine).1
  | cancel r => exact fun mine => absurd mine h
  | failAll message =>
    change (e.scheduler.sequencesOf rid).length ≤ 1
    rw [show e.scheduler.sequencesOf rid = [] from h]
    exact Nat.zero_le 1
  | step draws =>
    refine ⟨h.1, fun row mem own waits => ?_⟩
    rw [h.2 row mem own waits]
    exact RowKind.noConfusion

omit [DecidableEq H] in
theorem told_append (rid : RequestId) (ls ms : List (Request H × Reply)) :
    told rid (ls ++ ms) = told rid ls ++ told rid ms :=
  List.flatMap_append

omit [DecidableEq H] in
theorem finals_told (rid : RequestId) (l : Request H × Reply) :
    (finals (told rid [l])).map Final.choice = dones rid l.2.output.events := by
  unfold told finals dones
  rw [List.flatMap_singleton, List.filterMap_filterMap, List.map_filterMap]
  apply List.filterMap_congr
  rintro ⟨r, delta⟩ -
  by_cases mine : r = rid
  · rw [if_pos mine, if_pos mine]
    cases delta <;> rfl
  · rw [if_neg mine, if_neg mine]
    rfl

/-- What a call that leaves a request to itself tells of it is no longer outstanding. -/
theorem step_conserves (kept : Kept rid e) (calm : Undisturbed rid e l) (step : e.Step l e') (again : admitted rid l = 0) :
    Conserves rid e e' l.2.output.events ∧ ∀ event ∈ told rid [l], delivers event := by
  obtain ⟨request, reply⟩ := l
  change e.exec request = some (e', reply) at step
  have shown : Generated reply.output.events → ∀ event ∈ told rid [(request, reply)], delivers event := by
    intro generated event mem
    unfold told at mem
    rw [List.flatMap_singleton] at mem
    obtain ⟨⟨r, delta⟩, there, mine⟩ := List.mem_filterMap.mp mem
    by_cases own : r = rid
    · rw [if_pos own] at mine
      obtain rfl := Option.some.inj mine
      exact generated _ there
    · rw [if_neg own] at mine
      cases mine
  cases request with
  | admitRequest r prompt params tenant promote =>
    rcases entered : e.admitRequest r prompt params tenant promote with ⟨u, res⟩
    simp only [exec, entered, Option.some.injEq, Prod.mk.injEq] at step
    obtain ⟨rfl, rfl⟩ := step
    obtain ⟨-, left⟩ := admitRequest_kept kept (fun mine => (calm mine).1) entered
    refine ⟨?_, shown .nil⟩
    have refused : ¬(r = rid ∧ res.isOk) := by
      rintro ⟨mine, ok⟩
      cases res with
      | error err => cases ok
      | ok id =>
        change (if r = rid then 1 else 0) = 0 at again
        rw [if_pos mine] at again
        cases again
    rw [if_neg refused] at left
    unfold Conserves
    rw [left]
    exact .refl _
  | cancel r =>
    simp only [exec, Option.some.injEq, Prod.mk.injEq] at step
    obtain ⟨rfl, rfl⟩ := step
    obtain ⟨-, left⟩ := cancel_kept kept fun mine => absurd mine calm
    refine ⟨?_, shown .nil⟩
    unfold Conserves
    rw [left]
    exact .refl _
  | failAll message =>
    simp only [exec, Option.some.injEq, Prod.mk.injEq] at step
    obtain ⟨rfl, rfl⟩ := step
    have idle : e.scheduler.sequencesOf rid = [] := calm
    obtain ⟨tells, left, none⟩ := failAll_tells kept message (idle ▸ Nat.zero_le 1)
    refine ⟨?_, fun event mem => ?_⟩
    · unfold Conserves
      change (dones rid (e.failAll message).2.events ++ _).Perm _
      rw [none, left, outstanding_eq_nil.mpr idle]
      exact .refl _
    · unfold told at mem
      rw [List.flatMap_singleton] at mem
      obtain ⟨pair, there, mine⟩ := List.mem_filterMap.mp mem
      rw [if_neg (tells.quiet idle pair there)] at mine
      cases mine
  | step draws =>
    obtain ⟨⟨u, r⟩, stepped, eq⟩ := Option.map_eq_some_iff.mp step
    obtain ⟨rfl, rfl⟩ := Prod.mk.inj eq
    have careful : Careful rid e (.step draws, .stepped r) := calm.careful
    obtain ⟨-, conserves⟩ := step_tells kept.registered kept.booked kept.settled careful.1 careful.2 stepped
    exact ⟨conserves calm.2, shown (step_generated stepped)⟩

/-- Until a request is admitted again, what has been told as done and what is
outstanding is what was outstanding. -/
theorem run_conserves {start : GenerationEngine B} (kept : Kept rid start)
    (run : Run (Guarded (Undisturbed rid) Step) start ls e) (once : admissions rid ls = 0) :
    ((finals (told rid ls)).map Final.choice ++ e.outstanding rid).Perm (start.outstanding rid) ∧
      ∀ event ∈ told rid ls, delivers event := by
  induction run with
  | nil => exact ⟨.refl _, fun _ mem => absurd mem List.not_mem_nil⟩
  | @snoc ls t u l run step ih =>
    unfold admissions at once
    rw [List.map_append, List.sum_append, List.map_singleton, List.sum_singleton] at once
    obtain ⟨before, shown⟩ := ih (Nat.eq_zero_of_add_eq_zero_right once)
    obtain ⟨kept', -⟩ := run_kept kept (run.mono fun _ _ _ step => ⟨step.1.careful, step.2⟩)
    obtain ⟨now, shown'⟩ := step_conserves kept' step.1 step.2 (Nat.eq_zero_of_add_eq_zero_left once)
    rw [told_append]
    constructor
    · rw [finals, List.filterMap_append, List.map_append, List.append_assoc]
      change ((finals (told rid ls)).map _ ++ ((finals (told rid [l])).map _ ++ _)).Perm _
      rw [finals_told]
      exact (now.append_left _).trans before
    · exact fun event mem => (List.mem_append.mp mem).elim (shown event) (shown' event)

/-- Over every run that leaves a request to itself: of a job of it, each choice
the gateway waits for is closed at most once and no other, and once it is
completed or the engine is idle each is closed once and both deliveries have
ended with every choice. -/
theorem choices_served {cfg : SchedulerConfig} {pool : BlockPool H} {ns : CacheNamespace B} {eos : List Token}
    {decode : List Nat → Text} {tokenId : Text → Option Nat}
    {compileFormat : ResponseFormat → Except Error Structured.Schema} {workerId : String} {spills : Bool} {before after : List (Request H × Reply)} {prompt : List Token}
    {params : SamplingParams} {tenant : String} {promote : BlockPool H → BlockPool H}
    (run : Run (Guarded (Undisturbed rid) Step)
      (new (Scheduler.new cfg pool ns eos) decode tokenId compileFormat workerId spills)
      (before ++ (.admitRequest rid prompt params tenant promote, .admitted (.ok id)) :: after) e)
    (once : admissions rid after = 0) (prepared : Prepared) (same : prepared.n = params.n) :
    (∃ left, ((finals (told rid after)).map Final.choice ++ left).Perm (List.range prepared.choices)) ∧
    (e.isIdle = true ∨ completions rid after ≠ 0 →
      ((finals (told rid after)).map Final.choice).Perm (List.range prepared.choices) ∧
      ∀ reader detokenize parser includeUsage, Served reader detokenize prepared parser includeUsage (told rid after)) := by
  rw [List.append_cons] at run
  obtain ⟨u, first, second⟩ := run.split
  obtain ⟨t, upto, calm, step⟩ := first.last
  have kept := new_kept rid cfg pool ns eos decode tokenId compileFormat workerId spills
  obtain ⟨keptt, -⟩ := run_kept kept (upto.mono fun _ _ _ step => ⟨step.1.careful, step.2⟩)
  obtain ⟨idle, several⟩ := calm rfl
  change t.exec _ = some (u, _) at step
  rcases entered : t.admitRequest rid prompt params tenant promote with ⟨u, res⟩
  simp only [exec, entered, Option.some.injEq, Prod.mk.injEq, Reply.admitted.injEq] at step
  obtain ⟨rfl, rfl⟩ := step
  obtain ⟨keptu, owes⟩ := admitRequest_kept keptt (fun _ => idle) entered
  rw [if_pos ⟨rfl, rfl⟩] at owes
  have agree : choicesOf params = prepared.choices := by
    unfold choicesOf Prepared.choices
    rw [same]
    split
    · rename_i greedy
      have one : params.n ≤ 1 := Nat.le_of_not_lt fun many => several ⟨greedy, many⟩
      exact (Nat.max_eq_right one).symm
    · rfl
  obtain ⟨conserved, shown⟩ := run_conserves keptu second once
  rw [owes, agree] at conserved
  refine ⟨⟨_, conserved⟩, fun ended => ?_⟩
  obtain ⟨kepte, count⟩ := run_kept keptu (second.mono fun _ _ _ step => ⟨step.1.careful, step.2⟩)
  have none : e.scheduler.sequencesOf rid = [] := by
    rcases ended with idle | completed
    · exact idle_sequencesOf kepte idle
    · have most := inFlight_le u rid
      by_contra held
      have one : e.inFlight rid = 1 := if_neg held
      omega
  rw [outstanding_eq_nil.mpr none, List.append_nil] at conserved
  exact ⟨conserved, fun _ _ _ _ => Gateway.served_of_once _ _ shown conserved⟩

end Runs

section Two

/-- Two greedy choices of one token. -/
def greedy : SamplingParams := { temperature := 0, n := 2, maxTokens := 1 }

/-- They pass the gateway's check, and the second is never closed: the gateway
is still waiting when the engine is idle. -/
theorem greedy_unserved : greedy.validate = .ok () ∧ ∃ after e,
    Run Step small ((.admitRequest ⟨"r"⟩ [1, 2] greedy "t" fun pool => pool, .admitted (.ok 0)) :: after) e ∧
      admissions ⟨"r"⟩ after = 0 ∧ e.isIdle = true ∧
      ¬((finals (told ⟨"r"⟩ after)).map Final.choice).Perm (List.range (Prepared.choices ⟨2, 2, false⟩)) ∧
      ¬Served ⟨fun _ _ => none, fun s => s⟩ (fun _ => []) ⟨2, 2, false⟩ none false (told ⟨"r"⟩ after) := by
  refine ⟨by decide +kernel, ?_⟩
  let start := small.admitRequest ⟨"r"⟩ [1, 2] greedy "t" fun pool => pool
  have entered : start.2 = .ok 0 := by decide +kernel
  have all : (start.1.serve (fun _ _ => True) [.step { rows := [{ token := 3 }] }]).map
      (fun r => (admissions ⟨"r"⟩ r.1, r.2.isIdle, told ⟨"r"⟩ r.1)) =
        some (0, true, [.started 0, .done 0 .length 2 1]) := by decide +kernel
  obtain ⟨⟨after, e⟩, served, counts⟩ := Option.map_eq_some_iff.mp all
  simp only [Prod.mk.injEq] at counts
  obtain ⟨once, idle, events⟩ := counts
  have first : small.Step (.admitRequest ⟨"r"⟩ [1, 2] greedy "t" fun pool => pool, .admitted (.ok 0)) start.1 := by
    change some (start.1, Reply.admitted start.2) = _
    rw [entered]
  refine ⟨after, e, .cons first ((serve_run served).mono fun _ _ _ step => step.2), once, idle, ?_, ?_⟩
  · rw [events]
    decide
  · rw [events]
    rintro ⟨⟨c, ended, -⟩, -⟩
    have waits := ended [.failed "closed"]
    change Except.error _ = Except.ok _ at waits
    cases waits

/-- Two choices that sample. -/
def sampled : SamplingParams := { n := 2, maxTokens := 2 }

theorem choices_served_two : ∃ after e,
    Run (Guarded (Undisturbed ⟨"r"⟩) Step) small
      ((.admitRequest ⟨"r"⟩ [1, 2] sampled "t" fun pool => pool, .admitted (.ok 0)) :: after) e ∧
      ((finals (told ⟨"r"⟩ after)).map Final.choice).Perm [0, 1] := by
  let start := small.admitRequest ⟨"r"⟩ [1, 2] sampled "t" fun pool => pool
  have entered : start.2 = .ok 0 := by decide +kernel
  have all : (start.1.serve (Undisturbed ⟨"r"⟩) [.step { rows := [{ token := 3, siblings := [4] }] },
      .step { rows := [{ token := 5 }, { token := 6 }] }]).map (fun r => (admissions ⟨"r"⟩ r.1, r.2.isIdle)) =
        some (0, true) := by decide +kernel
  obtain ⟨⟨after, e⟩, served, counts⟩ := Option.map_eq_some_iff.mp all
  simp only [Prod.mk.injEq] at counts
  obtain ⟨once, idle⟩ := counts
  have first : Guarded (Undisturbed ⟨"r"⟩) Step small
      (.admitRequest ⟨"r"⟩ [1, 2] sampled "t" fun pool => pool, .admitted (.ok 0)) start.1 := by
    refine ⟨by decide +kernel, ?_⟩
    change some (start.1, Reply.admitted start.2) = _
    rw [entered]
  have run : Run (Guarded (Undisturbed ⟨"r"⟩) Step) small ([] ++ _ :: after) e := .cons first (serve_run served)
  exact ⟨after, e, run, ((choices_served run once ⟨2, 2, false⟩ rfl).2 (.inl idle)).1⟩

end Two

end GenerationEngine

end Vapi.Worker
