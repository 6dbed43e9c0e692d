import Vapi.Worker.Select
import Mathlib.Data.List.Nodup

/-!
# Requests in flight

Every delivered message is in flight or acknowledged, and a request in flight
is queued, held by the engine, or in a report.
-/

namespace Vapi.Worker

open Proto Transition

variable {E O M : Type}

/-- What a log has of an event is there because of what came before it. -/
def Each {A : Type} (P : List A → A → Prop) (log : List A) : Prop :=
  ∀ before x after, log = before ++ x :: after → P before x

theorem concat_split {A : Type} {log before after : List A} {x y : A} (split : log ++ [y] = before ++ x :: after) :
    (∃ rest, after = rest ++ [y] ∧ log = before ++ x :: rest) ∨ (after = [] ∧ x = y ∧ log = before) := by
  rcases List.eq_nil_or_concat after with rfl | ⟨rest, last, rfl⟩
  · obtain ⟨same, last⟩ := List.append_inj' split rfl
    exact .inr ⟨rfl, (List.singleton_inj.mp last).symm, same⟩
  · rw [List.concat_eq_append, ← List.cons_append, ← List.append_assoc] at split
    obtain ⟨same, last'⟩ := List.append_inj' split rfl
    obtain rfl := List.singleton_inj.mp last'
    exact .inl ⟨rest, List.concat_eq_append .., same⟩

theorem Each.concat {A : Type} {P : List A → A → Prop} {log : List A} {x : A} (each : Each P log) (holds : P log x) :
    Each P (log ++ [x]) := by
  intro before y after split
  rcases concat_split split with ⟨rest, -, earlier⟩ | ⟨-, rfl, rfl⟩
  · exact each before y rest earlier
  · exact holds

namespace Event

def delivery? : Event M → Option (RequestId × M)
  | .delivered rid m => some (rid, m)
  | _ => none

def ack? : Event M → Option (RequestId × M)
  | .acked rid m => some (rid, m)
  | _ => none

end Event

/-- The messages that a log has as delivered, each with its request. -/
def delivered (log : List (Event M)) : List (RequestId × M) := log.filterMap Event.delivery?

def acked (log : List (Event M)) : List (RequestId × M) := log.filterMap Event.ack?

def deliveredIds (log : List (Event M)) : List RequestId := (delivered log).map Prod.fst

/-- A message is acknowledged after it came, and after its request was reported or cancelled. -/
def Justified (before : List (Event M)) : Event M → Prop
  | .acked rid m => .delivered rid m ∈ before ∧ (.completed rid ∈ before ∨ .cancelled rid ∈ before)
  | _ => True

/-- A cancel came for a request whose job was there. -/
def Late (rid : RequestId) (log : List (Event M)) : Prop :=
  ∃ before after, log = before ++ .cancelled rid :: after ∧ rid ∈ deliveredIds before

def queued (commands : List Command) : List RequestId := commands.flatMap Command.admitted

def Thread.pending : Thread → List RequestId
  | .taking report => report.completed
  | .sending report _ => report.completed
  | _ => []

/-- The thread has made its last report. -/
def Thread.ends : Thread → Bool
  | .sending _ last => last
  | .exited => true
  | _ => false

namespace Main

/-- What is reported and not received yet. -/
def pending (s : Main E M) : List RequestId := s.thread.pending ++ s.reports.flatMap Report.completed

def keys (s : Main E M) : List RequestId := s.inflight.map Prod.fst

end Main

section Invariant

variable (Ok : E → Prop) (Held Live : E → RequestId → Prop)

/-- Where the requests are: the engine has had the first of them, the commands
have the others, in their order. -/
structure Flow (s : Main E M) : Prop where
  order : ∃ taken, deliveredIds s.log = taken ++ queued s.commands ∧ (∀ rid, Held s.engine rid → rid ∈ taken) ∧
    ∀ rid ∈ s.pending, rid ∈ taken ∧ ¬Held s.engine rid
  waits : ∀ rid ∈ s.keys, s.thread = .exited ∨ rid ∈ queued s.commands ∨ Held s.engine rid ∨ rid ∈ s.pending
  known : ∀ rid, Held s.engine rid ∨ rid ∈ queued s.commands → rid ∈ s.keys ∨ .cancelled rid ∈ s.log
  /-- A cancel that is queued for a request in flight came before its job. -/
  early : ∀ rid ∈ s.keys, ∀ before after, s.commands = before ++ .cancel rid :: after → rid ∈ queued after

structure Inv (s : Main E M) : Prop where
  ok : Ok s.engine
  nodup : (deliveredIds s.log).Nodup
  split : (delivered s.log).Perm (acked s.log ++ s.inflight)
  justified : Each Justified s.log
  ended : s.thread.ends = true → ∀ rid, ¬Held s.engine rid
  flow : (s.loop.runs = false ∧ s.thread = .exited) ∨ Flow Held s

/-- A cancelled request is on its way out of the engine, or not in it. -/
def Dropped (s : Main E M) (rid : RequestId) : Prop :=
  (∃ before after, s.commands = before ++ .cancel rid :: after ∧ rid ∉ queued after) ∨
    (rid ∉ queued s.commands ∧ ¬Live s.engine rid) ∨ s.thread = .exited

end Invariant

variable {Ok : E → Prop} {Held Live : E → RequestId → Prop} {s : Main E M}

theorem queued_append (xs ys : List Command) : queued (xs ++ ys) = queued xs ++ queued ys := List.flatMap_append

theorem delivered_concat (log : List (Event M)) (ev : Event M) :
    delivered (log ++ [ev]) = delivered log ++ ev.delivery?.toList := by
  cases ev <;> simp [delivered, Event.delivery?]

theorem acked_concat (log : List (Event M)) (ev : Event M) : acked (log ++ [ev]) = acked log ++ ev.ack?.toList := by
  cases ev <;> simp [acked, Event.ack?]

theorem mem_delivered {log : List (Event M)} {rid : RequestId} {m : M} :
    (rid, m) ∈ delivered log ↔ .delivered rid m ∈ log := by
  constructor
  · intro mem
    obtain ⟨ev, there, is⟩ := List.mem_filterMap.mp mem
    cases ev with
    | delivered rid' m' =>
      obtain ⟨rfl, rfl⟩ := Prod.mk.inj (Option.some.inj is)
      exact there
    | cancelled | completed | acked => cases is
  · intro mem
    exact List.mem_filterMap.mpr ⟨_, mem, rfl⟩

/-- No two messages in flight are for one request. -/
theorem Inv.keys_nodup (inv : Inv Ok Held s) : s.keys.Nodup := by
  have all := (inv.split.map Prod.fst).nodup_iff.mp inv.nodup
  rw [List.map_append] at all
  exact (List.nodup_append.mp all).2.1

theorem ack_none {rid : RequestId} (absent : rid ∉ s.keys) : s.ack rid = s := by
  have none : s.inflight.find? (·.1 = rid) = none := by
    refine List.find?_eq_none.mpr fun x mem same => absent ?_
    exact List.mem_map.mpr ⟨x, mem, of_decide_eq_true same⟩
  unfold Main.ack
  rw [none]

theorem ack_some {rid : RequestId} (nodup : s.keys.Nodup) (present : rid ∈ s.keys) :
    ∃ m rest, s.inflight.Perm ((rid, m) :: rest) ∧ (∀ k, k ∈ rest.map Prod.fst ↔ k ∈ s.keys ∧ k ≠ rid) ∧
      s.ack rid = { s with inflight := rest, log := s.log ++ [.acked rid m] } := by
  obtain ⟨x, mem, is⟩ := List.mem_map.mp present
  obtain ⟨⟨rid', m⟩, found⟩ : ∃ y, s.inflight.find? (·.1 = rid) = some y :=
    Option.isSome_iff_exists.mp (List.find?_isSome.mpr ⟨x, mem, decide_eq_true is⟩)
  obtain ⟨same, before, after, whole, -⟩ := List.find?_eq_some_iff_append.mp found
  obtain rfl : rid' = rid := of_decide_eq_true same
  have others : s.inflight.filter (·.1 ≠ rid') = before ++ after := by
    rw [Main.keys, whole, List.map_append, List.map_cons] at nodup
    have left := (List.nodup_cons.mp (List.perm_middle.nodup_iff.mp nodup)).1
    have differ : ∀ y ∈ before ++ after, decide (y.1 ≠ rid') = true := by
      intro y mem
      refine decide_eq_true fun same => left ?_
      rw [← List.map_append]
      exact List.mem_map.mpr ⟨y, mem, same⟩
    rw [whole, List.filter_append, List.filter_cons_of_neg (by simp), ← List.filter_append]
    exact List.filter_eq_self.mpr differ
  refine ⟨m, s.inflight.filter (·.1 ≠ rid'), ?_, fun k => by simp [Main.keys], by unfold Main.ack; rw [found]⟩
  rw [others, whole]
  exact List.perm_middle

/-- The fields of the loop that the acknowledgement of a message leaves alone. -/
theorem ack_same (rid : RequestId) : (s.ack rid).engine = s.engine ∧ (s.ack rid).thread = s.thread ∧
    (s.ack rid).commands = s.commands ∧ (s.ack rid).reports = s.reports ∧ (s.ack rid).loop = s.loop := by
  unfold Main.ack
  split <;> exact ⟨rfl, rfl, rfl, rfl, rfl⟩

section Steps

/-- A request is acknowledged that is reported or cancelled, and that the engine
is not going to have, or may be told to drop. -/
theorem Inv.ack (inv : Inv Ok Held s) (flow : Flow Held s) {rid : RequestId}
    (reason : .completed rid ∈ s.log ∨ .cancelled rid ∈ s.log)
    (known : Held s.engine rid ∨ rid ∈ queued s.commands → .cancelled rid ∈ s.log) :
    Inv Ok Held (s.ack rid) ∧ Flow Held (s.ack rid) ∧ rid ∉ (s.ack rid).keys ∧ ∀ k ∈ (s.ack rid).keys, k ∈ s.keys := by
  by_cases present : rid ∈ s.keys
  · obtain ⟨m, rest, perm, keys, acked⟩ := ack_some inv.keys_nodup present
    have there : .delivered rid m ∈ s.log := by
      have mem : (rid, m) ∈ delivered s.log :=
        inv.split.mem_iff.mpr (List.mem_append_right _ (perm.mem_iff.mpr List.mem_cons_self))
      exact mem_delivered.mp mem
    have same : delivered (s.log ++ [.acked rid m]) = delivered s.log := by
      rw [delivered_concat]
      exact List.append_nil _
    have flow' : Flow Held (s.ack rid) := by
      rw [acked]
      refine ⟨?_, ?_, ?_, ?_⟩
      · rw [deliveredIds, same]
        exact flow.order
      · exact fun k mem => flow.waits k ((keys k).mp mem).1
      · intro k held
        by_cases own : k = rid
        · exact .inr (List.mem_append_left _ (own ▸ known (own ▸ held)))
        · exact (flow.known k held).imp (fun mem => (keys k).mpr ⟨mem, own⟩) (List.mem_append_left _)
      · exact fun k mem => flow.early k ((keys k).mp mem).1
    refine ⟨?_, flow', ?_, ?_⟩
    · refine ⟨?_, ?_, ?_, ?_, ?_, .inr flow'⟩
      all_goals rw [acked]
      · exact inv.ok
      · rw [deliveredIds, same]
        exact inv.nodup
      · rw [same, acked_concat, List.append_assoc]
        exact inv.split.trans (perm.append_left _)
      · exact inv.justified.concat ⟨there, reason⟩
      · exact inv.ended
    · rw [acked]
      exact fun mem => ((keys rid).mp mem).2 rfl
    · rw [acked]
      exact fun k mem => ((keys k).mp mem).1
  · rw [ack_none present]
    exact ⟨inv, flow, present, fun _ => id⟩

/-- What the loop is at, and what is no part of a request's way, is no matter. -/
theorem Inv.set (inv : Inv Ok Held s) (flow : Flow Held s) (loop : Loop) (draining : Bool) (headroom : Nat) :
    Inv Ok Held { s with loop, draining, headroom } ∧ Flow Held { s with loop, draining, headroom } := by
  have flow' : Flow Held { s with loop, draining, headroom } := ⟨flow.order, flow.waits, flow.known, flow.early⟩
  exact ⟨⟨inv.ok, inv.nodup, inv.split, inv.justified, inv.ended, .inr flow'⟩, flow'⟩

/-- A cancel or a report is noted. -/
theorem Inv.note (inv : Inv Ok Held s) (flow : Flow Held s) (ev : Event M) (delivery : ev.delivery? = none)
    (ack : ev.ack? = none) :
    Inv Ok Held { s with log := s.log ++ [ev] } ∧ Flow Held { s with log := s.log ++ [ev] } := by
  have same : delivered (s.log ++ [ev]) = delivered s.log := by
    rw [delivered_concat, delivery]
    exact List.append_nil _
  have flow' : Flow Held { s with log := s.log ++ [ev] } := by
    refine ⟨?_, flow.waits, ?_, flow.early⟩
    · rw [deliveredIds, same]
      exact flow.order
    · exact fun rid held => (flow.known rid held).imp_right (List.mem_append_left _)
  refine ⟨⟨inv.ok, ?_, ?_, ?_, inv.ended, .inr flow'⟩, flow'⟩
  · rw [deliveredIds, same]
    exact inv.nodup
  · rw [same, acked_concat, ack]
    exact (List.append_nil (acked s.log)).symm ▸ inv.split
  · refine inv.justified.concat ?_
    cases ev with
    | acked => cases ack
    | delivered | cancelled | completed => trivial

theorem completed_same (rids : List RequestId) (s : Main E M) :
    (s.completed rids).engine = s.engine ∧ (s.completed rids).thread = s.thread ∧
      (s.completed rids).commands = s.commands ∧ (s.completed rids).reports = s.reports := by
  induction rids generalizing s with
  | nil => exact ⟨rfl, rfl, rfl, rfl⟩
  | cons rid rest ih =>
    obtain ⟨engine, thread, commands, reports⟩ := ih ({ s with log := s.log ++ [Event.completed rid] }.ack rid)
    obtain ⟨engine', thread', commands', reports', -⟩ :=
      ack_same (s := { s with log := s.log ++ [Event.completed rid] }) rid
    exact ⟨engine.trans engine', thread.trans thread', commands.trans commands', reports.trans reports'⟩

/-- What is reported is not in the engine, and is not going to be. -/
theorem Inv.gone (inv : Inv Ok Held s) (flow : Flow Held s) {rid : RequestId} (reported : rid ∈ s.pending) :
    ¬Held s.engine rid ∧ rid ∉ queued s.commands := by
  obtain ⟨taken, ids, -, past⟩ := flow.order
  obtain ⟨mem, gone⟩ := past rid reported
  refine ⟨gone, fun waiting => ?_⟩
  have nodup := inv.nodup
  rw [ids] at nodup
  exact (List.nodup_append.mp nodup).2.2 rid mem rid waiting rfl

/-- Reported requests are acknowledged one after the other. -/
theorem Inv.completed (inv : Inv Ok Held s) (flow : Flow Held s) {rids : List RequestId}
    (reported : ∀ rid ∈ rids, rid ∈ s.pending) :
    Inv Ok Held (s.completed rids) ∧ Flow Held (s.completed rids) ∧ (∀ rid ∈ rids, rid ∉ (s.completed rids).keys) ∧
      ∀ k ∈ (s.completed rids).keys, k ∈ s.keys := by
  induction rids generalizing s with
  | nil => exact ⟨inv, flow, by simp, fun _ => id⟩
  | cons rid rest ih =>
    have gone := inv.gone flow (reported rid List.mem_cons_self)
    obtain ⟨noted, flow₁⟩ := inv.note flow (.completed rid) rfl rfl
    have here : Event.completed rid ∈ s.log ++ [Event.completed rid] :=
      List.mem_append_right _ (List.mem_singleton.mpr rfl)
    obtain ⟨inv₂, flow₂, absent, fewer⟩ := noted.ack flow₁ (.inl here) fun held => held.elim gone.1.elim gone.2.elim
    have same : ({ s with log := s.log ++ [Event.completed rid] }.ack rid).pending = s.pending := by
      obtain ⟨-, thread, -, reports, -⟩ := ack_same (s := { s with log := s.log ++ [Event.completed rid] }) rid
      rw [Main.pending, thread, reports]
      rfl
    obtain ⟨inv₃, flow₃, absent', fewer'⟩ := ih inv₂ flow₂ fun k mem => by
      rw [same]
      exact reported k (List.mem_cons_of_mem _ mem)
    refine ⟨inv₃, flow₃, ?_, fun k mem => fewer k (fewer' k mem)⟩
    intro k mem here
    rcases List.mem_cons.mp mem with rfl | mem
    · exact absent (fewer' k here)
    · exact absent' k mem here

theorem completed_with (rids : List RequestId) (s : Main E M) (reports : List Report) (loop : Loop) :
    { s with reports, loop }.completed rids = { s.completed rids with reports, loop } := by
  induction rids generalizing s with
  | nil => rfl
  | cons rid rest ih =>
    have ack : { s with reports, loop, log := s.log ++ [Event.completed rid] }.ack rid =
        { ({ s with log := s.log ++ [Event.completed rid] }.ack rid) with reports, loop } := by
      unfold Main.ack
      dsimp only
      split <;> rfl
    exact (congrArg (Main.completed · rest) ack).trans (ih _)

/-- A report is received: its requests are acknowledged, and it is off the queue. -/
theorem Inv.receive (inv : Inv Ok Held s) (flow : Flow Held s) {report : Report} {rest : List Report}
    (reports : s.reports = report :: rest) (loop : Loop) :
    Inv Ok Held ({ s with reports := rest, loop }.completed report.completed) := by
  have reported : ∀ rid ∈ report.completed, rid ∈ s.pending := by
    intro rid mem
    refine List.mem_append_right _ (List.mem_flatMap.mpr ⟨report, ?_, mem⟩)
    rw [reports]
    exact List.mem_cons_self
  obtain ⟨inv', flow', absent, -⟩ := inv.completed flow reported
  have same : (s.completed report.completed).reports = report :: rest := (completed_same _ s).2.2.2.trans reports
  rw [completed_with]
  generalize s.completed report.completed = t at *
  have split : ∀ rid, rid ∈ t.pending ↔
      rid ∈ report.completed ∨ rid ∈ Main.pending { t with reports := rest, loop } := by
    intro rid
    simp only [Main.pending, same, List.flatMap_cons, List.mem_append]
    exact or_left_comm
  have flow'' : Flow Held { t with reports := rest, loop } := by
    refine ⟨?_, ?_, flow'.known, flow'.early⟩
    · obtain ⟨taken, ids, held, past⟩ := flow'.order
      exact ⟨taken, ids, held, fun rid mem => past rid ((split rid).mpr (.inr mem))⟩
    · intro rid mem
      rcases flow'.waits rid mem with exited | waiting | held | reported
      · exact .inl exited
      · exact .inr (.inl waiting)
      · exact .inr (.inr (.inl held))
      · rcases (split rid).mp reported with here | later
        · exact absurd mem (absent rid here)
        · exact .inr (.inr (.inr later))
  exact ⟨inv'.ok, inv'.nodup, inv'.split, inv'.justified, inv'.ended, .inr flow''⟩

/-- A command that admits nothing goes behind the others. -/
theorem Inv.send (inv : Inv Ok Held s) (flow : Flow Held s) {cmd : Command} (nothing : cmd.admitted = [])
    (absent : ∀ rid, cmd = .cancel rid → rid ∉ s.keys) : Inv Ok Held (s.send cmd) ∧ Flow Held (s.send cmd) := by
  unfold Main.send
  split
  · exact ⟨inv, flow⟩
  have same : queued (s.commands ++ [cmd]) = queued s.commands := by
    rw [queued_append]
    simp [queued, nothing]
  have flow' : Flow Held { s with commands := s.commands ++ [cmd] } := by
    refine ⟨?_, ?_, ?_, ?_⟩
    · dsimp only
      rw [same]
      exact flow.order
    · dsimp only
      rw [same]
      exact flow.waits
    · dsimp only
      rw [same]
      exact flow.known
    · intro rid mem before after split
      rcases concat_split split with ⟨rest, rfl, earlier⟩ | ⟨-, is, -⟩
      · rw [queued_append]
        exact List.mem_append_left _ (flow.early rid mem before rest earlier)
      · exact absurd mem (absent rid is.symm)
  exact ⟨⟨inv.ok, inv.nodup, inv.split, inv.justified, inv.ended, .inr flow'⟩, flow'⟩

theorem ack_send (s : Main E M) (cmd : Command) (rid : RequestId) : (s.send cmd).ack rid = (s.ack rid).send cmd := by
  have thread := (ack_same (s := s) rid).2.1
  unfold Main.send
  rw [thread]
  split
  · rfl
  · unfold Main.ack
    dsimp only
    split <;> rfl

theorem Inv.cancelled (inv : Inv Ok Held s) (flow : Flow Held s) (rid : RequestId) : Inv Ok Held (s.cancelled rid) := by
  obtain ⟨noted, flow₁⟩ := inv.note flow (.cancelled rid) rfl rfl
  have here : Event.cancelled rid ∈ s.log ++ [Event.cancelled rid] :=
    List.mem_append_right _ (List.mem_singleton.mpr rfl)
  obtain ⟨inv₂, flow₂, absent, -⟩ := noted.ack flow₁ (.inr here) fun _ => here
  rw [Main.cancelled, ack_send]
  refine (inv₂.send flow₂ rfl ?_).1
  intro k is
  exact Command.cancel.inj is ▸ absent

/-- A request that is new gets its message in flight and its job into the queue. -/
theorem Inv.delivered (inv : Inv Ok Held s) (flow : Flow Held s) {job : Job} (m : M)
    (fresh : job.requestId ∉ deliveredIds s.log) : Inv Ok Held (s.delivered job m) := by
  have new : job.requestId ∉ s.keys := by
    intro mem
    refine fresh ((inv.split.map Prod.fst).mem_iff.mpr ?_)
    rw [List.map_append]
    exact List.mem_append_right _ mem
  have others : s.inflight.filter (·.1 ≠ job.requestId) = s.inflight := by
    refine List.filter_eq_self.mpr fun x mem => decide_eq_true fun same => new ?_
    exact List.mem_map.mpr ⟨x, mem, same⟩
  have now : Worker.delivered (s.log ++ [.delivered job.requestId m]) =
      Worker.delivered s.log ++ [(job.requestId, m)] := delivered_concat _ _
  have ids : deliveredIds (s.log ++ [.delivered job.requestId m]) = deliveredIds s.log ++ [job.requestId] := by
    rw [deliveredIds, now, List.map_append]
    rfl
  have nodup : (deliveredIds (s.log ++ [.delivered job.requestId m])).Nodup := by
    rw [ids]
    exact List.nodup_append.mpr ⟨inv.nodup, List.nodup_singleton _, fun k mem k' mem' same =>
      fresh (List.mem_singleton.mp mem' ▸ same ▸ mem)⟩
  have split : (Worker.delivered (s.log ++ [.delivered job.requestId m])).Perm
      (acked (s.log ++ [.delivered job.requestId m]) ++ ((job.requestId, m) :: s.inflight)) := by
    rw [now, acked_concat]
    refine ((inv.split.append_right _).trans (List.perm_append_singleton _ _)).trans ?_
    rw [show Event.ack? (.delivered job.requestId m) = none from rfl, Option.toList_none, List.append_nil]
    exact List.perm_middle.symm
  have justified : Each Justified (s.log ++ [.delivered job.requestId m]) := inv.justified.concat trivial
  unfold Main.delivered
  dsimp only
  rw [others]
  split
  · rename_i exited
    have gone : s.thread = .exited := by
      cases is : s.thread <;> simp [is, Thread.hasExited] at exited ⊢
    exact ⟨inv.ok, nodup, split, justified, inv.ended, .inl ⟨rfl, gone⟩⟩
  · rename_i runs
    unfold Main.send
    rw [if_neg runs]
    refine ⟨inv.ok, nodup, split, justified, inv.ended, .inr ⟨?_, ?_, ?_, ?_⟩⟩
    · obtain ⟨taken, order, held, past⟩ := flow.order
      refine ⟨taken, ?_, held, past⟩
      dsimp only
      rw [ids, order, queued_append, List.append_assoc]
      rfl
    · intro rid mem
      dsimp only
      rw [queued_append]
      rcases List.mem_cons.mp mem with rfl | mem
      · exact .inr (.inl (List.mem_append_right _ (List.mem_singleton.mpr rfl)))
      · exact (flow.waits rid mem).imp_right (Or.imp_left (List.mem_append_left _))
    · intro rid held
      dsimp only at held ⊢
      rw [queued_append, List.mem_append, ← or_assoc] at held
      rcases held with held | mem
      · exact (flow.known rid held).imp (List.mem_cons_of_mem _) (List.mem_append_left _)
      · exact .inl (List.mem_cons.mpr (.inl (List.mem_singleton.mp mem)))
    · intro rid mem before after split
      rcases concat_split split with ⟨rest, rfl, earlier⟩ | ⟨-, is, -⟩
      · rw [queued_append]
        rcases List.mem_cons.mp mem with rfl | mem
        · exact List.mem_append_right _ (List.mem_singleton.mpr rfl)
        · exact List.mem_append_left _ (flow.early rid mem before rest earlier)
      · cases is

/-- What the thread takes from the queue, the engine takes up or drops, and
what it completes is in the report. -/
theorem Inv.moves (inv : Inv Ok Held s) (flow : Flow Held s) {taken rest : List Command}
    (commands : s.commands = taken ++ rest) (few : taken.length ≤ 1) {e : E} {completed : List RequestId}
    (moves : Moves Ok Held Live (· ∈ queued taken) (fun rid => .cancel rid ∈ taken) s.engine e completed)
    (thread : Thread) (pending : thread.pending = s.thread.pending ++ completed) (goes : s.thread ≠ .exited)
    (ends : thread.ends = true → ∀ rid, ¬Held e rid) (failuresInARow : Nat) :
    Inv Ok Held { s with engine := e, commands := rest, thread, failuresInARow } := by
  have queue : queued s.commands = queued taken ++ queued rest := by rw [commands, queued_append]
  have reports : ∀ rid, rid ∈ Main.pending { s with engine := e, commands := rest, thread, failuresInARow } ↔
      rid ∈ s.pending ∨ rid ∈ completed := by
    intro rid
    simp only [Main.pending, pending, List.mem_append]
    exact or_right_comm
  have flow' : Flow Held { s with engine := e, commands := rest, thread, failuresInARow } := by
    obtain ⟨had, order, held, past⟩ := flow.order
    rw [queue, ← List.append_assoc] at order
    refine ⟨⟨had ++ queued taken, order, ?_, ?_⟩, ?_, ?_, ?_⟩
    · intro rid is
      exact List.mem_append.mpr ((moves.held rid is).imp_left (held rid))
    · intro rid mem
      rcases (reports rid).mp mem with mem | mem
      · obtain ⟨early, gone⟩ := past rid mem
        have nodup := inv.nodup
        rw [order, List.append_assoc] at nodup
        refine ⟨List.mem_append_left _ early, fun is => ?_⟩
        rcases moves.held rid is with was | took
        · exact gone was
        · exact (List.nodup_append.mp nodup).2.2 rid early rid (List.mem_append_left _ took) rfl
      · obtain ⟨gone, was⟩ := moves.reported rid mem
        exact ⟨List.mem_append.mpr (was.imp_left (held rid)), gone⟩
    · intro rid mem
      have was : Held s.engine rid ∨ rid ∈ queued taken ∨ rid ∈ queued rest ∨ rid ∈ s.pending := by
        rcases flow.waits rid mem with exited | waiting | held | reported
        · exact absurd exited goes
        · rw [queue] at waiting
          rcases List.mem_append.mp waiting with took | later
          · exact .inr (.inl took)
          · exact .inr (.inr (.inl later))
        · exact .inl held
        · exact .inr (.inr (.inr reported))
      rw [← or_assoc] at was
      rcases was with was | later | reported
      · rcases moves.kept rid was with held | done | dropped
        · exact .inr (.inr (.inl held))
        · exact .inr (.inr (.inr ((reports rid).mpr (.inr done))))
        · -- the cancel came before the job, which is still in the queue
          obtain ⟨cmd, rfl⟩ : ∃ cmd, taken = [cmd] := by
            rcases taken with _ | ⟨cmd, _ | ⟨_, _⟩⟩
            · cases dropped
            · exact ⟨cmd, rfl⟩
            · simp at few
          obtain rfl := List.mem_singleton.mp dropped
          exact .inr (.inl (flow.early rid mem [] rest commands))
      · exact .inr (.inl later)
      · exact .inr (.inr (.inr ((reports rid).mpr (.inl reported))))
    · intro rid is
      refine flow.known rid ?_
      rw [queue, List.mem_append]
      rcases is with held | later
      · exact (moves.held rid held).imp_right .inl
      · exact .inr (.inr later)
    · intro rid mem before after split
      exact flow.early rid mem (taken ++ before) after (by rw [commands, List.append_assoc]; exact congrArg _ split)
  exact ⟨moves.ok, inv.nodup, inv.split, inv.justified, ends, .inr flow'⟩

/-- A report is sent. -/
theorem Inv.sent (inv : Inv Ok Held s) (flow : Flow Held s) {report : Report} {last : Bool}
    (sending : s.thread = .sending report last) (headroom : Nat) {thread : Thread} (none : thread.pending = [])
    (ends : thread.ends = last) : Inv Ok Held { s with reports := s.reports ++ [report], thread, headroom } := by
  have same : ∀ rid, rid ∈ Main.pending { s with reports := s.reports ++ [report], thread, headroom } ↔
      rid ∈ s.pending := by
    intro rid
    have was : s.thread.pending = report.completed := by rw [sending]; rfl
    simp only [Main.pending, none, was, List.flatMap_append, List.mem_append, List.flatMap_cons, List.flatMap_nil,
      List.append_nil, List.not_mem_nil, false_or]
    exact or_comm
  have over_ : s.thread.ends = last := by rw [sending]; rfl
  have flow' : Flow Held { s with reports := s.reports ++ [report], thread, headroom } := by
    refine ⟨?_, ?_, flow.known, flow.early⟩
    · obtain ⟨taken, order, held, past⟩ := flow.order
      exact ⟨taken, order, held, fun rid mem => past rid ((same rid).mp mem)⟩
    · intro rid mem
      refine .inr ((flow.waits rid mem).resolve_left ?_ |>.imp_right (Or.imp_right (same rid).mpr))
      rw [sending]
      exact fun is => by cases is
  have ended : thread.ends = true → ∀ rid, ¬Held s.engine rid := fun is => inv.ended (over_.trans (ends.symm.trans is))
  exact ⟨inv.ok, inv.nodup, inv.split, inv.justified, ended, .inr flow'⟩

end Steps

end Vapi.Worker
