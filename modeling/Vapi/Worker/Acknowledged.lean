import Vapi.Worker.Inflight
import Vapi.Worker.Hosted
import Vapi.Worker.Answers

/-!
# Acknowledgements and cancels

Whole runs of the worker: each message is acknowledged once, when it is due,
and a cancel that comes after its job reaches the engine after it.
-/

namespace Vapi.Worker

open Proto Transition

variable {E O M : Type} {Ok : E → Prop} {Held Live : E → RequestId → Prop} {w : WorkerEngine E O} {maxStepFailures : Nat}
  {decode : M → Option Job} {s t : Main E M} {l : Label O M}

/-- The request whose job a branch delivers. -/
def Label.delivers (decode : M → Option Job) : Label O M → List RequestId
  | .job m => ((decode m).map Job.requestId).toList
  | _ => []

/-- The request that a branch has a cancel for. -/
def Label.cancels : Label O M → Option RequestId
  | .cancel subject => named subject
  | _ => none

/-- What a step can do. -/
inductive Goes (w : WorkerEngine E O) (maxStepFailures : Nat) (decode : M → Option Job) (s : Main E M) :
    Label O M → Main E M → Prop
  | loops {l : Label O M} (loop : Loop) (draining : Bool) (nothing : l.delivers decode = [])
    (uncancelled : l.cancels = none) (empty : loop = .drained → s.inflight = []) : Goes w maxStepFailures decode s l { s with loop, draining }
  | fallen (exited : s.thread = .exited) : Goes w maxStepFailures decode s .report { s with loop := .failed }
  | deadline :
    Goes w maxStepFailures decode s .deadline ({ s with loop := .top }.send (.failAll "worker shutting down"))
  | cancelled {subject : String} (rid : RequestId) (names : named subject = some rid) :
    Goes w maxStepFailures decode s (.cancel subject) ({ s with loop := .top }.cancelled rid)
  | delivered {m : M} (job : Job) (decodes : decode m = some job) :
    Goes w maxStepFailures decode s (.job m) (s.delivered job m)
  | received (report : Report) (rest : List Report) (reports : s.reports = report :: rest) :
    Goes w maxStepFailures decode s .report ({ s with reports := rest, loop := .top }.completed report.completed)
  | took (report : Report) (cmd : Command) (rest : List Command) (takes : s.thread.takes = some report)
    (commands : s.commands = cmd :: rest) :
    Goes w maxStepFailures decode s .take { s with
      engine := (w.handle s.engine report cmd).1, thread := .taking (w.handle s.engine report cmd).2, commands := rest }
  | turned {o : O} (report : Report) (takes : s.thread.takes = some report) (commands : s.commands = []) :
    Goes w maxStepFailures decode s (.turn o) (s.turned w maxStepFailures report o)
  | exits (report : Report) (sending : s.thread = .sending report true) :
    Goes w maxStepFailures decode s .send { s with reports := s.reports ++ [report], thread := .exited }
  | sent (report : Report) (sending : s.thread = .sending report false) :
    Goes w maxStepFailures decode s .send
      { s with reports := s.reports ++ [report], thread := .top, headroom := w.headroom s.engine }

theorem Loop.runs_of_selects {loop : Loop} (selects : loop.selects = true) : loop.runs = true := by
  cases loop <;> first | rfl | cases selects

theorem Loop.runs_of_wantsWork {loop : Loop} (wants : loop.wantsWork = true) : loop.runs = true := by
  cases loop <;> first | rfl | cases wants

theorem Thread.exited_of {thread : Thread} (exited : thread.hasExited = true) : thread = .exited := by
  cases thread <;> first | rfl | cases exited

theorem step_cases (step : s.Step w maxStepFailures decode l t) :
    s.loop.runs = true ∧ Goes w maxStepFailures decode s l t := by
  unfold Main.Step Main.exec at step
  cases l with
  | top =>
    dsimp only at step
    split at step
    · rename_i at_
      refine ⟨by rw [at_]; rfl, ?_⟩
      split at step
      · rename_i done
        obtain rfl := Option.some.inj step
        exact .loops .drained s.draining rfl rfl fun _ => List.isEmpty_iff.mp (Bool.and_eq_true_iff.mp done).2
      · obtain rfl := Option.some.inj step
        exact .loops _ s.draining rfl rfl fun is => by cases is
    · cases step
  | shutdown =>
    obtain ⟨guard, is⟩ := Option.ite_none_right_eq_some.mp step
    obtain rfl := Option.some.inj is
    exact ⟨Loop.runs_of_selects (Bool.and_eq_true_iff.mp guard).1, .loops .top true rfl rfl fun is => by cases is⟩
  | deadline =>
    obtain ⟨guard, is⟩ := Option.ite_none_right_eq_some.mp step
    obtain rfl := Option.some.inj is
    exact ⟨Loop.runs_of_selects (Bool.and_eq_true_iff.mp guard).1, .deadline⟩
  | cancel subject =>
    obtain ⟨guard, is⟩ := Option.ite_none_right_eq_some.mp step
    refine ⟨Loop.runs_of_selects guard, ?_⟩
    split at is
    · rename_i none
      obtain rfl := Option.some.inj is
      exact .loops .top s.draining rfl none fun is => by cases is
    · rename_i rid names
      obtain rfl := Option.some.inj is
      exact .cancelled rid names
  | job m =>
    obtain ⟨guard, is⟩ := Option.ite_none_right_eq_some.mp step
    refine ⟨Loop.runs_of_wantsWork guard, ?_⟩
    split at is
    · rename_i none
      obtain rfl := Option.some.inj is
      exact .loops .top s.draining (by rw [Label.delivers, none]; rfl) rfl fun is => by cases is
    · rename_i job decodes
      obtain rfl := Option.some.inj is
      exact .delivered job decodes
  | heartbeat =>
    obtain ⟨guard, is⟩ := Option.ite_none_right_eq_some.mp step
    obtain rfl := Option.some.inj is
    exact ⟨Loop.runs_of_selects guard, .loops .top s.draining rfl rfl fun is => by cases is⟩
  | report =>
    obtain ⟨guard, is⟩ := Option.ite_none_right_eq_some.mp step
    refine ⟨Loop.runs_of_selects guard, ?_⟩
    split at is
    · obtain ⟨exited, is⟩ := Option.ite_none_right_eq_some.mp is
      obtain rfl := Option.some.inj is
      exact .fallen (Thread.exited_of exited)
    · rename_i report rest reports
      obtain rfl := Option.some.inj is
      exact .received report rest reports
  | take =>
    obtain ⟨runs, is⟩ := Option.ite_none_right_eq_some.mp step
    refine ⟨runs, ?_⟩
    split at is
    · rename_i report cmd rest takes commands
      obtain rfl := Option.some.inj is
      exact .took report cmd rest takes commands
    · cases is
  | turn o =>
    obtain ⟨guard, is⟩ := Option.ite_none_right_eq_some.mp step
    obtain ⟨runs, empty⟩ := Bool.and_eq_true_iff.mp guard
    refine ⟨runs, ?_⟩
    split at is
    · rename_i at_
      obtain ⟨-, is⟩ := Option.ite_none_left_eq_some.mp is
      obtain rfl := Option.some.inj is
      exact .turned {} (by rw [at_]; rfl) (List.isEmpty_iff.mp empty)
    · rename_i report at_
      obtain rfl := Option.some.inj is
      exact .turned report (by rw [at_]; rfl) (List.isEmpty_iff.mp empty)
    · cases is
  | send =>
    obtain ⟨runs, is⟩ := Option.ite_none_right_eq_some.mp step
    refine ⟨runs, ?_⟩
    split at is
    · rename_i report last sending
      split at is
      · rename_i isLast
        obtain rfl := Option.some.inj is
        exact .exits report (isLast ▸ sending)
      · rename_i goesOn
        obtain rfl := Option.some.inj is
        exact .sent report (Bool.eq_false_iff.mpr goesOn ▸ sending)
    · cases is

theorem Inv.running (inv : Inv Ok Held s) (runs : s.loop.runs = true) : Flow Held s := by
  refine inv.flow.resolve_left fun stopped => ?_
  rw [runs] at stopped
  cases stopped.1

theorem takes_pending {thread : Thread} {report : Report} (takes : thread.takes = some report) :
    thread.pending = report.completed ∧ thread ≠ .exited := by
  cases thread <;> cases takes <;> exact ⟨rfl, fun is => by cases is⟩

/-- The engine after the first command of the queue. -/
theorem Inv.handled (laws : Lawful w Ok Held Live) (inv : Inv Ok Held s) (flow : Flow Held s) (report : Report)
    {cmd : Command} {rest : List Command} (commands : s.commands = cmd :: rest) :
    ∃ completed, (w.handle s.engine report cmd).2.completed = report.completed ++ completed ∧
      Moves Ok Held Live (· ∈ queued [cmd]) (fun rid => .cancel rid ∈ [cmd]) s.engine (w.handle s.engine report cmd).1
        completed := by
  have new : ∀ rid ∈ cmd.admitted, ¬Held s.engine rid := by
    intro rid mem held
    obtain ⟨taken, order, early, -⟩ := flow.order
    have nodup := inv.nodup
    rw [order, commands] at nodup
    exact (List.nodup_append.mp nodup).2.2 rid (early rid held) rid (List.mem_append_left _ mem) rfl
  obtain ⟨completed, reported, moves⟩ := laws.handle inv.ok report cmd new
  have takes : (· ∈ queued [cmd]) = (· ∈ cmd.admitted) := by
    rw [show queued [cmd] = cmd.admitted from List.append_nil _]
  have drops : (fun rid => Command.cancel rid ∈ [cmd]) = cmd.drops :=
    funext fun rid => propext (List.mem_singleton.trans eq_comm)
  rw [takes, drops]
  exact ⟨completed, reported, moves⟩

/-- The engine after a turn, for which nothing was taken. -/
theorem Inv.turned (laws : Lawful w Ok Held Live) (inv : Inv Ok Held s) (maxStepFailures : Nat) (report : Report) (o : O) :
    ∃ completed, (w.turn maxStepFailures s.engine s.failuresInARow report o).report.completed =
        report.completed ++ completed ∧
      Moves Ok Held Live (· ∈ queued []) (fun rid => Command.cancel rid ∈ []) s.engine
        (w.turn maxStepFailures s.engine s.failuresInARow report o).engine completed ∧
      ((w.turn maxStepFailures s.engine s.failuresInARow report o).last = true →
        ∀ rid, ¬Held (w.turn maxStepFailures s.engine s.failuresInARow report o).engine rid) := by
  obtain ⟨completed, reported, moves, last⟩ := laws.turn inv.ok maxStepFailures s.failuresInARow report o
  have takes : (· ∈ queued []) = Nobody := funext fun rid => propext (iff_false_intro (List.not_mem_nil))
  have drops : (fun rid => Command.cancel rid ∈ []) = Nobody :=
    funext fun rid => propext (iff_false_intro (List.not_mem_nil))
  rw [takes, drops]
  exact ⟨completed, reported, moves, last⟩

/-- One step, of which a job it brings is a new one. -/
theorem Inv.step (laws : Lawful w Ok Held Live) (inv : Inv Ok Held s) (runs : s.loop.runs = true)
    (goes : Goes w maxStepFailures decode s l t) (fresh : ∀ rid ∈ l.delivers decode, rid ∉ deliveredIds s.log) :
    Inv Ok Held t := by
  have flow := inv.running runs
  cases goes with
  | loops loop draining => exact (inv.set flow loop draining s.headroom).1
  | fallen exited => exact ⟨inv.ok, inv.nodup, inv.split, inv.justified, inv.ended, .inl ⟨rfl, exited⟩⟩
  | deadline =>
    obtain ⟨inv', flow'⟩ := inv.set flow .top s.draining s.headroom
    exact (inv'.send flow' rfl fun rid is => by cases is).1
  | cancelled rid =>
    obtain ⟨inv', flow'⟩ := inv.set flow .top s.draining s.headroom
    exact inv'.cancelled flow' rid
  | delivered job decodes =>
    refine inv.delivered flow _ (fresh _ ?_)
    rw [Label.delivers, decodes]
    exact List.mem_singleton.mpr rfl
  | received report rest reports => exact inv.receive flow reports .top
  | took report cmd rest takes commands =>
    obtain ⟨pending, goes⟩ := takes_pending takes
    obtain ⟨completed, reported, moves⟩ := inv.handled laws flow report commands
    have first : s.commands = [cmd] ++ rest := commands
    refine inv.moves flow first (Nat.le_refl 1) moves _ ?_ goes ?_ s.failuresInARow
    · rw [pending]
      exact reported
    · exact fun is => by cases is
  | turned report takes commands =>
    obtain ⟨pending, goes⟩ := takes_pending takes
    obtain ⟨completed, reported, moves, last⟩ := inv.turned laws maxStepFailures report _
    have empty : s.commands = [] ++ s.commands := rfl
    refine inv.moves flow empty (Nat.zero_le 1) moves (.sending _ _) ?_ goes last _
    rw [pending]
    exact reported
  | exits report sending => exact inv.sent flow sending s.headroom rfl rfl
  | sent report sending => exact inv.sent flow sending _ rfl rfl

theorem late_concat {log : List (Event M)} {ev : Event M} {rid : RequestId} (late : Late rid (log ++ [ev])) :
    Late rid log ∨ (ev = .cancelled rid ∧ rid ∈ deliveredIds log) := by
  obtain ⟨before, after, split, mem⟩ := late
  rcases concat_split split with ⟨rest, -, earlier⟩ | ⟨-, is, rfl⟩
  · exact .inl ⟨before, rest, earlier, mem⟩
  · exact .inr ⟨is.symm, mem⟩

theorem late_ack {rid k : RequestId} (late : Late rid (s.ack k).log) : Late rid s.log := by
  unfold Main.ack at late
  split at late
  · exact late
  · exact (late_concat late).resolve_right fun is => by cases is.1

theorem late_completed {rid : RequestId} (rids : List RequestId) (s : Main E M)
    (late : Late rid (s.completed rids).log) : Late rid s.log := by
  induction rids generalizing s with
  | nil => exact late
  | cons k rest ih => exact (late_concat (late_ack (ih _ late))).resolve_right fun is => by cases is.1

theorem Late.delivered {log : List (Event M)} {rid : RequestId} (late : Late rid log) : rid ∈ deliveredIds log := by
  obtain ⟨before, after, rfl, mem⟩ := late
  rw [deliveredIds, Worker.delivered, List.filterMap_append, List.map_append]
  exact List.mem_append_left _ mem

theorem Dropped.send {rid : RequestId} (dropped : Dropped Live s rid) {cmd : Command} (other : rid ∉ cmd.admitted) :
    Dropped Live (s.send cmd) rid := by
  unfold Main.send
  split
  · exact dropped
  have single : queued [cmd] = cmd.admitted := List.append_nil _
  rcases dropped with ⟨before, after, split, absent⟩ | ⟨absent, gone⟩ | exited
  · refine .inl ⟨before, after ++ [cmd], ?_, ?_⟩
    · dsimp only
      rw [split, List.append_assoc, List.cons_append]
    · rw [queued_append, single]
      exact fun mem => (List.mem_append.mp mem).elim absent other
  · refine .inr (.inl ⟨?_, gone⟩)
    dsimp only
    rw [queued_append, single]
    exact fun mem => (List.mem_append.mp mem).elim absent other
  · exact .inr (.inr exited)

theorem Dropped.same {rid : RequestId} (dropped : Dropped Live s rid) (engine : t.engine = s.engine)
    (commands : t.commands = s.commands) (thread : s.thread = .exited → t.thread = .exited) : Dropped Live t rid := by
  rw [Dropped, engine, commands]
  exact dropped.imp_right (Or.imp_right thread)

/-- The engine is behind by what the thread took. -/
theorem Dropped.moves {rid : RequestId} (dropped : Dropped Live s rid) {taken rest : List Command}
    (commands : s.commands = taken ++ rest) (few : taken.length ≤ 1) {e : E} {completed : List RequestId}
    (moves : Moves Ok Held Live (· ∈ queued taken) (fun rid => .cancel rid ∈ taken) s.engine e completed)
    (goes : s.thread ≠ .exited) (engine : t.engine = e) (left : t.commands = rest) : Dropped Live t rid := by
  rw [Dropped, engine, left]
  rcases dropped with ⟨before, after, split, absent⟩ | ⟨absent, gone⟩ | exited
  · rcases taken with _ | ⟨cmd, _ | ⟨_, _⟩⟩
    · exact .inl ⟨before, after, commands.symm.trans split, absent⟩
    · rw [commands] at split
      rcases before with _ | ⟨first, before⟩
      · obtain ⟨rfl, rfl⟩ := List.cons.inj split
        exact .inr (.inl ⟨absent, fun live => (moves.live rid live).2 (List.mem_singleton.mpr rfl)⟩)
      · exact .inl ⟨before, after, (List.cons.inj split).2, absent⟩
    · simp at few
  · rw [commands, queued_append, List.mem_append, not_or] at absent
    exact .inr (.inl ⟨absent.2, fun live => ((moves.live rid live).1).elim gone absent.1⟩)
  · exact absurd exited goes

theorem Dropped.step (laws : Lawful w Ok Held Live) (inv : Inv Ok Held s) (runs : s.loop.runs = true)
    (goes : Goes w maxStepFailures decode s l t) (fresh : ∀ rid ∈ l.delivers decode, rid ∉ deliveredIds s.log)
    (all : ∀ rid, Late rid s.log → Dropped Live s rid) : ∀ rid, Late rid t.log → Dropped Live t rid := by
  intro rid late
  have flow := inv.running runs
  cases goes with
  | loops => exact all rid late
  | fallen => exact all rid late
  | deadline =>
    have same : ({ s with loop := Loop.top }.send (.failAll "worker shutting down")).log = s.log := by
      unfold Main.send
      split <;> rfl
    rw [same] at late
    exact Dropped.send (s := { s with loop := .top }) (all rid late) (List.not_mem_nil)
  | cancelled k =>
    let noted : Main E M := { s with loop := .top, log := s.log ++ [.cancelled k] }
    have same : (noted.send (.cancel k)).log = s.log ++ [.cancelled k] := by
      unfold Main.send
      split <;> rfl
    obtain ⟨engine, thread, commands, -⟩ := ack_same (s := noted.send (.cancel k)) k
    refine Dropped.same (s := noted.send (.cancel k)) ?_ engine commands fun exited => thread.trans exited
    have late : Late rid (noted.send (.cancel k)).log := late_ack late
    rw [same] at late
    rcases late_concat late with late | ⟨is, -⟩
    · exact Dropped.send (s := noted) (all rid late) (List.not_mem_nil)
    · obtain rfl := Event.cancelled.inj is
      unfold Main.send
      split
      · rename_i exited
        exact .inr (.inr (Thread.exited_of exited))
      · exact .inl ⟨s.commands, [], rfl, List.not_mem_nil⟩
  | delivered job decodes =>
    have new : job.requestId ∉ deliveredIds s.log := by
      refine fresh _ ?_
      rw [Label.delivers, decodes]
      exact List.mem_singleton.mpr rfl
    unfold Main.delivered at late ⊢
    dsimp only at late ⊢
    split at late
    · rename_i exited
      rw [if_pos exited]
      exact .inr (.inr (Thread.exited_of exited))
    · rename_i runs
      rw [if_neg runs]
      unfold Main.send at late
      rw [if_neg runs] at late
      have late : Late rid s.log := (late_concat late).resolve_right fun is => by cases is.1
      refine Dropped.send (s := { s with
        inflight := (job.requestId, _) :: s.inflight.filter (·.1 ≠ job.requestId),
        log := s.log ++ [.delivered job.requestId _] }) (all rid late) ?_
      exact fun mem => new (List.mem_singleton.mp mem ▸ late.delivered)
  | received report rest reports =>
    obtain ⟨engine, thread, commands, -⟩ := completed_same report.completed { s with reports := rest, loop := .top }
    have dropped := all rid (late_completed report.completed { s with reports := rest, loop := .top } late)
    exact dropped.same engine commands fun exited => thread.trans exited
  | took report cmd rest takes commands =>
    obtain ⟨completed, -, moves⟩ := inv.handled laws flow report commands
    have first : s.commands = [cmd] ++ rest := commands
    exact (all rid late).moves first (Nat.le_refl 1) moves (takes_pending takes).2 rfl rfl
  | turned report takes commands =>
    obtain ⟨completed, -, moves, -⟩ := inv.turned laws maxStepFailures report _
    have empty : s.commands = [] ++ s.commands := rfl
    exact (all rid late).moves empty (Nat.zero_le 1) moves (takes_pending takes).2 rfl rfl
  | exits report sending => exact (all rid late).same rfl rfl fun _ => rfl
  | sent report sending =>
    refine (all rid late).same rfl rfl fun exited => ?_
    rw [sending] at exited
    cases exited

theorem ids_concat (log : List (Event M)) (ev : Event M) :
    deliveredIds (log ++ [ev]) = deliveredIds log ++ (ev.delivery?.map Prod.fst).toList := by
  rw [deliveredIds, delivered_concat, List.map_append]
  cases ev <;> rfl

theorem ids_ack (rid : RequestId) : deliveredIds (s.ack rid).log = deliveredIds s.log := by
  unfold Main.ack
  split
  · rfl
  · exact (ids_concat _ _).trans (List.append_nil _)

theorem ids_completed (rids : List RequestId) (s : Main E M) :
    deliveredIds (s.completed rids).log = deliveredIds s.log := by
  induction rids generalizing s with
  | nil => rfl
  | cons rid rest ih => exact (ih _).trans ((ids_ack rid).trans ((ids_concat _ _).trans (List.append_nil _)))

theorem send_log (cmd : Command) : (s.send cmd).log = s.log := by
  unfold Main.send
  split <;> rfl

theorem ids_step (goes : Goes w maxStepFailures decode s l t) :
    deliveredIds t.log = deliveredIds s.log ++ l.delivers decode := by
  cases goes with
  | loops loop draining nothing => rw [nothing, List.append_nil]
  | deadline =>
    rw [send_log]
    exact (List.append_nil _).symm
  | cancelled rid =>
    rw [Main.cancelled, ids_ack, send_log]
    exact ids_concat _ _
  | @delivered m job decodes =>
    have same : (s.delivered job m).log = s.log ++ [.delivered job.requestId m] := by
      unfold Main.delivered
      dsimp only
      split
      · rfl
      · exact send_log _
    rw [same, ids_concat, Label.delivers, decodes]
    rfl
  | received report rest reports =>
    rw [ids_completed]
    exact (List.append_nil _).symm
  | fallen | took | turned | exits | sent => exact (List.append_nil _).symm

/-- The requests whose jobs the branches deliver. -/
def jobsOf (decode : M → Option Job) (labels : List (Label O M)) : List RequestId :=
  labels.flatMap (Label.delivers decode)

theorem drained_empty (goes : Goes w maxStepFailures decode s l t) (runs : s.loop.runs = true)
    (drained : t.loop = .drained) : t.inflight = [] := by
  have running : s.loop ≠ .drained := by
    intro is
    rw [is] at runs
    cases runs
  cases goes with
  | loops loop draining nothing uncancelled empty => exact empty drained
  | fallen => cases drained
  | deadline =>
    unfold Main.send at drained
    split at drained <;> cases drained
  | cancelled rid =>
    rw [Main.cancelled, (ack_same rid).2.2.2.2] at drained
    unfold Main.send at drained
    split at drained <;> cases drained
  | delivered job =>
    unfold Main.delivered at drained
    dsimp only at drained
    split at drained <;> cases drained
  | received report rest =>
    rw [completed_with] at drained
    cases drained
  | took | turned | exits | sent => exact absurd drained running

variable {labels : List (Label O M)} {e : E}

theorem run_inv (laws : Lawful w Ok Held Live) (ok : Ok e) (idle : ∀ rid, ¬Held e rid)
    (run : Run (Main.Step w maxStepFailures decode) (.start w e) labels s) (distinct : (jobsOf decode labels).Nodup) :
    Inv Ok Held s ∧ (∀ rid, Late rid s.log → Dropped Live s rid) ∧ deliveredIds s.log = jobsOf decode labels ∧
      (s.loop = .drained → s.inflight = []) := by
  induction run with
  | nil =>
    refine ⟨⟨ok, List.nodup_nil, List.Perm.refl _, ?_, ?_, .inr ⟨⟨[], rfl, ?_, ?_⟩, ?_, ?_, ?_⟩⟩, ?_, rfl, ?_⟩
    · intro before x after split
      exact absurd split (by simp [Main.start])
    · exact fun is => by cases is
    · exact fun rid held => (idle rid held).elim
    · exact fun rid mem => absurd mem (List.not_mem_nil)
    · exact fun rid mem => absurd mem (List.not_mem_nil)
    · exact fun rid held => held.elim (fun held => (idle rid held).elim) fun mem => absurd mem (List.not_mem_nil)
    · exact fun rid mem => absurd mem (List.not_mem_nil)
    · rintro rid ⟨before, after, split, -⟩
      exact absurd split (by simp [Main.start])
    · exact fun is => by cases is
  | @snoc labels a b l run step ih =>
    have whole : jobsOf decode (labels ++ [l]) = jobsOf decode labels ++ l.delivers decode := by
      rw [jobsOf, List.flatMap_append, List.flatMap_singleton]
      rfl
    rw [whole] at distinct ⊢
    obtain ⟨before, -, apart⟩ := List.nodup_append.mp distinct
    obtain ⟨inv, dropped, ids, -⟩ := ih before
    obtain ⟨runs, goes⟩ := step_cases step
    have fresh : ∀ rid ∈ l.delivers decode, rid ∉ deliveredIds a.log := by
      intro rid mem known
      rw [ids] at known
      exact apart rid known rid mem rfl
    exact ⟨inv.step laws runs goes fresh, Dropped.step laws inv runs goes fresh dropped,
      (ids_step goes).trans (by rw [ids]), drained_empty goes runs⟩

/-- Over any run of the worker in which no two jobs are of one request: each
message is acknowledged at most once, and not before its request was reported
or cancelled; with the queues empty and the engine idle, none is left over; the
loop is left with nothing in the engine but what was cancelled; and a job and a
cancel that came after it leave nothing running. -/
theorem jobs_acknowledged (laws : Lawful w Ok Held Live) (ok : Ok e) (empty : ∀ rid, ¬Held e rid)
    (run : Run (Main.Step w maxStepFailures decode) (.start w e) labels s) (distinct : (jobsOf decode labels).Nodup) :
    ((acked s.log).map Prod.fst).Nodup ∧ Each Justified s.log ∧
      (s.commands = [] → s.pending = [] → s.thread ≠ .exited → w.isIdle s.engine = true →
        ∀ rid m, .delivered rid m ∈ s.log → (rid, m) ∈ acked s.log) ∧
      (s.loop = .drained → ∀ rid, Held s.engine rid → .cancelled rid ∈ s.log) ∧
      ∀ rid, Late rid s.log → s.commands = [] → ¬Live s.engine rid := by
  obtain ⟨inv, dropped, -, drained⟩ := run_inv laws ok empty run distinct
  refine ⟨?_, inv.justified, ?_, ?_, ?_⟩
  · have all := (inv.split.map Prod.fst).nodup_iff.mp inv.nodup
    rw [List.map_append] at all
    exact (List.nodup_append.mp all).1
  · intro commands pending alive idle rid m mem
    have flow : Flow Held s := inv.flow.resolve_left fun stopped => alive stopped.2
    refine (List.mem_append.mp (inv.split.mem_iff.mp (mem_delivered.mpr mem))).resolve_right fun waiting => ?_
    rcases flow.waits rid (List.mem_map_of_mem waiting) with exited | queued | held | reported
    · exact alive exited
    · rw [commands] at queued
      exact absurd queued (List.not_mem_nil)
    · exact laws.idle s.engine inv.ok idle rid held
    · rw [pending] at reported
      exact absurd reported (List.not_mem_nil)
  · intro left rid held
    rcases inv.flow with ⟨-, exited⟩ | flow
    · exact absurd held (inv.ended (by rw [exited]; rfl) rid)
    · refine (flow.known rid (.inl held)).resolve_left fun mem => ?_
      rw [Main.keys, drained left] at mem
      exact absurd mem (List.not_mem_nil)
  · intro rid late commands live
    rcases dropped rid late with ⟨before, after, split, -⟩ | ⟨-, gone⟩ | exited
    · rw [commands] at split
      exact absurd split.symm (by simp)
    · exact gone live
    · exact inv.ended (by rw [exited]; rfl) rid (laws.live s.engine rid inv.ok live)

section Example

/-- A message is a request's id, and asks one question. -/
def posted (id : String) : Option Job := some (askingOf id [3])

def hosted : Hosted := (DecisionEngine.new 512 8 2 4096 "w", fun _ => {})

/-- Two jobs, of which one is cancelled, and a shutdown. -/
def twoJobs : List (Label Forward String) :=
  [.top, .job "a", .top, .job "b", .take, .take, .turn answering, .top, .cancel "vapi.cancel.a", .send, .top, .report,
    .top, .shutdown, .top]

theorem jobs_acknowledged_two : ∃ s : Main Hosted String,
    Run (Main.Step decisionWorker 3 posted) (.start decisionWorker hosted) twoJobs s ∧
      (s.log = [.delivered ⟨"a"⟩ "a", .delivered ⟨"b"⟩ "b", .cancelled ⟨"a"⟩, .acked ⟨"a"⟩ "a", .completed ⟨"a"⟩,
        .completed ⟨"b"⟩, .acked ⟨"b"⟩ "b"]) ∧
      ((acked s.log).map Prod.fst).Nodup ∧ Each Justified s.log ∧
      (s.commands = [] → s.pending = [] → s.thread ≠ .exited → decisionWorker.isIdle s.engine = true →
        ∀ rid m, .delivered rid m ∈ s.log → (rid, m) ∈ acked s.log) ∧
      (s.loop = .drained → ∀ rid, InQueue s.engine rid → .cancelled rid ∈ s.log) ∧
      ∀ rid, Late rid s.log → s.commands = [] → ¬InQueue s.engine rid := by
  have ran : (follow (Main.exec · decisionWorker 3 posted) twoJobs (.start decisionWorker hosted)).any (fun s => s.log =
      [.delivered ⟨"a"⟩ "a", .delivered ⟨"b"⟩ "b", .cancelled ⟨"a"⟩, .acked ⟨"a"⟩ "a", .completed ⟨"a"⟩,
        .completed ⟨"b"⟩, .acked ⟨"b"⟩ "b"]) = true := by decide +kernel
  obtain ⟨s, reached, log⟩ := (Option.any_eq_true _ _).mp ran
  have run := follow_iff.mp reached
  exact ⟨s, run, of_decide_eq_true log, jobs_acknowledged decisionWorker_lawful (e := hosted) List.nodup_nil
    (fun rid mem => by cases mem) run (by decide +kernel)⟩

/-- A cancel that is there before its job is forgotten, and the job is taken up. -/
theorem cancel_before_job : ∃ s : Main Hosted String,
    Run (Main.Step decisionWorker 3 posted) (.start decisionWorker hosted)
        [.top, .cancel "vapi.cancel.a", .top, .job "a", .take, .take] s ∧
      s.log = [.cancelled ⟨"a"⟩, .delivered ⟨"a"⟩ "a"] ∧ s.commands.isEmpty = true ∧ InQueue s.engine ⟨"a"⟩ := by
  have ran : (follow (Main.exec · decisionWorker 3 posted) [.top, .cancel "vapi.cancel.a", .top, .job "a", .take, .take]
      (.start decisionWorker hosted)).any (fun s => s.log = [.cancelled ⟨"a"⟩, .delivered ⟨"a"⟩ "a"] ∧
        s.commands.isEmpty = true ∧ ⟨"a"⟩ ∈ queueIds s.engine.1) = true := by decide +kernel
  obtain ⟨s, reached, facts⟩ := (Option.any_eq_true _ _).mp ran
  obtain ⟨log, empty, held⟩ := of_decide_eq_true facts
  exact ⟨s, follow_iff.mp reached, log, empty, held⟩

end Example

end Vapi.Worker
