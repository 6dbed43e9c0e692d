import Vapi.Worker.Outstanding

/-!
# Drains and what is outstanding

A drain tells of what has finished, one choice for each sequence, and of the
request when nothing of it is left.
-/

namespace Vapi.Worker

open Cache Engine Proto

namespace GenerationEngine

variable {H : Type} {B : Blake3 H} {e e' u : GenerationEngine B} {rid : RequestId} {id : SeqId}
  {l : List (SeqId × Sequence)} {events : List (RequestId × Delta)} {completed : List RequestId}

/-- The request's sequences among these. -/
def mine (e : GenerationEngine B) (rid : RequestId) (l : List (SeqId × Sequence)) : List SeqId :=
  (l.map Prod.fst).filter fun id => e.seqToRequest id = some rid

/-- What telling of sequences that are done comes to for a request. -/
structure Drained (rid : RequestId) (l : List (SeqId × Sequence)) (e e' : GenerationEngine B)
    (events : List (RequestId × Delta)) (completed : List RequestId) : Prop where
  scheduler : e'.scheduler = e.scheduler
  owner : ∀ id, e'.seqToRequest id = if id ∈ l.map Prod.fst then none else e.seqToRequest id
  choice : ∀ id, id ∉ l.map Prod.fst → e'.choiceOf id = e.choiceOf id
  pending : ∀ id, e'.pendingForks id = if id ∈ l.map Prod.fst then none else e.pendingForks id
  told : dones rid events = (e.mine rid l).map fun id => (e.choiceOf id).getD 0
  idle : e.mine rid l = [] → rid ∉ completed ∧ e'.openChoices rid = e.openChoices rid
  quiet : e.mine rid l = [] → ∀ event ∈ events, event.1 ≠ rid
  counted : ∀ n, e.openChoices rid = some n → e.mine rid l ≠ [] → (e.mine rid l).length ≤ n →
    completed.count rid = (if (e.mine rid l).length = n then 1 else 0) ∧
      ((e.mine rid l).length ≠ n → e'.openChoices rid = some (n - (e.mine rid l).length))

theorem release_mem {st : Option Stream} {r : RequestId} {choice : Nat} {reason : FinishReason} :
    ∀ event ∈ release st r choice reason, event.1 = r ∧ doneChoice event.2 = none := by
  intro event mem
  unfold release at mem
  cases st with
  | none => cases mem
  | some st =>
    simp only at mem
    split at mem
    · rw [List.mem_singleton.mp mem]
      exact ⟨rfl, rfl⟩
    · cases mem

/-- What telling of one sequence leaves of the others. -/
theorem drainOne_fixed (e : GenerationEngine B) (id : SeqId) (seq : Sequence) :
    (e.drainOne id seq).1.scheduler = e.scheduler ∧
      (e.drainOne id seq).1.seqToRequest = Function.update e.seqToRequest id none ∧
      (e.drainOne id seq).1.choiceOf = Function.update e.choiceOf id none ∧
      (e.drainOne id seq).1.pendingForks = Function.update e.pendingForks id none := by
  unfold drainOne
  cases served : e.seqToRequest id with
  | none =>
    refine ⟨rfl, ?_, rfl, rfl⟩
    change e.seqToRequest = _
    rw [← served, Function.update_eq_self]
  | some r => exact ⟨rfl, rfl, rfl, rfl⟩

theorem drainOne_other (seq : Sequence) (other : e.seqToRequest id ≠ some rid) :
    (∀ event ∈ (e.drainOne id seq).2.1, event.1 ≠ rid) ∧ rid ∉ (e.drainOne id seq).2.2 ∧
      (e.drainOne id seq).1.openChoices rid = e.openChoices rid := by
  unfold drainOne
  cases served : e.seqToRequest id with
  | none => exact ⟨fun _ mem => absurd mem List.not_mem_nil, List.not_mem_nil, rfl⟩
  | some r =>
    have ne : rid ≠ r := by
      rintro rfl
      exact other served
    refine ⟨fun event mem => ?_, ?_, ?_⟩
    · have its : event.1 = r := by
        rcases List.mem_append.mp mem with held | done
        · exact (release_mem event held).1
        · rw [List.mem_singleton.mp done]
      rw [its]
      exact ne.symm
    · simp only
      split
      · exact fun mem => ne (List.mem_singleton.mp mem)
      · exact List.not_mem_nil
    · change Function.update e.openChoices r _ rid = _
      rw [Function.update_of_ne ne]

theorem drainOne_told (seq : Sequence) (own : e.seqToRequest id = some rid) :
    dones rid (e.drainOne id seq).2.1 = [(e.choiceOf id).getD 0] := by
  unfold drainOne
  rw [own]
  simp only
  rw [dones_append, dones_eq_nil fun event mem => .inr (release_mem event mem).2, List.nil_append]
  exact List.filterMap_cons_some (if_pos rfl)

theorem drainOne_own (seq : Sequence) (own : e.seqToRequest id = some rid) {n : Nat} (due : e.openChoices rid = some (n + 1)) :
    (e.drainOne id seq).2.2 = (if n = 0 then [rid] else []) ∧
      (e.drainOne id seq).1.openChoices rid = (if n = 0 then none else some n) := by
  unfold drainOne
  rw [own]
  simp only [due, Option.elim_some, Nat.add_sub_cancel]
  refine ⟨trivial, ?_⟩
  change Function.update e.openChoices rid _ rid = _
  rw [Function.update_self]

theorem mine_cons (p : SeqId × Sequence) (l : List (SeqId × Sequence)) :
    e.mine rid (p :: l) = if e.seqToRequest p.1 = some rid then p.1 :: e.mine rid l else e.mine rid l := by
  unfold mine
  rw [List.map_cons, List.filter_cons]
  simp only [decide_eq_true_eq]

theorem mine_cons_eq_nil {seq : Sequence} (none : e.mine rid ((id, seq) :: l) = []) :
    e.seqToRequest id ≠ some rid ∧ e.mine rid l = [] := by
  rw [mine_cons] at none
  split at none
  · cases none
  · rename_i other
    exact ⟨other, none⟩

theorem drainLoop_drained (nodup : (l.map Prod.fst).Nodup) (h : drainLoop l e = (e', events, completed)) :
    Drained rid l e e' events completed := by
  induction l generalizing e events completed with
  | nil =>
    simp only [drainLoop, Prod.mk.injEq] at h
    obtain ⟨rfl, rfl, rfl⟩ := h
    exact ⟨rfl, fun _ => rfl, fun _ _ => rfl, fun _ => rfl, rfl, fun _ => ⟨List.not_mem_nil, rfl⟩,
      fun _ _ mem => absurd mem List.not_mem_nil, fun _ _ some_ => absurd rfl some_⟩
  | cons p l ih =>
    obtain ⟨id, seq⟩ := p
    rw [List.map_cons] at nodup
    obtain ⟨out, nodup⟩ := List.nodup_cons.mp nodup
    change id ∉ l.map Prod.fst at out
    obtain ⟨scheduler, owner, choice, pending⟩ := drainOne_fixed e id seq
    unfold drainLoop at h
    rcases one : e.drainOne id seq with ⟨v, first, done⟩
    rcases rest : drainLoop l v with ⟨w, more, others⟩
    simp only [one, rest, Prod.mk.injEq] at h scheduler owner choice pending
    obtain ⟨rfl, rfl, rfl⟩ := h
    have spec := ih nodup rest
    have same : v.mine rid l = e.mine rid l := by
      unfold mine
      apply List.filter_congr
      intro x mem
      rw [owner, Function.update_of_ne (ne_of_mem_of_not_mem mem out)]
    have told : (v.mine rid l).map (fun x => (v.choiceOf x).getD 0) = (e.mine rid l).map fun x => (e.choiceOf x).getD 0 := by
      rw [same]
      apply List.map_congr_left
      intro x mem
      rw [choice, Function.update_of_ne (ne_of_mem_of_not_mem (List.mem_filter.mp mem).1 out)]
    have gone : ∀ x : SeqId, x ∈ ((id, seq) :: l).map Prod.fst ↔ x = id ∨ x ∈ l.map Prod.fst := by
      intro x
      rw [List.map_cons, List.mem_cons]
    refine ⟨spec.scheduler.trans scheduler, fun x => ?_, fun x absent => ?_, fun x => ?_, ?_, fun none => ?_,
      fun none event mem => ?_, fun n due some_ fits => ?_⟩
    · rw [spec.owner, owner, Function.update_apply]
      by_cases here : x = id
      · simp only [gone, here, true_or, if_true, ite_self]
      · simp only [gone, here, false_or, if_false]
    · rw [gone, not_or] at absent
      rw [spec.choice x absent.2, choice, Function.update_of_ne absent.1]
    · rw [spec.pending, pending, Function.update_apply]
      by_cases here : x = id
      · simp only [gone, here, true_or, if_true, ite_self]
      · simp only [gone, here, false_or, if_false]
    · rw [dones_append, spec.told, told, mine_cons]
      by_cases own : e.seqToRequest id = some rid
      · have first_ := drainOne_told seq own
        rw [one] at first_
        rw [if_pos own, first_]
        rfl
      · have quiet := (drainOne_other seq own).1
        rw [one] at quiet
        rw [if_neg own, dones_eq_nil fun event mem => .inl (quiet event mem), List.nil_append]
    · obtain ⟨other, none⟩ := mine_cons_eq_nil none
      obtain ⟨-, quiet, count⟩ := drainOne_other seq other
      rw [one] at quiet count
      obtain ⟨others_, count'⟩ := spec.idle (same.trans none)
      exact ⟨fun mem => (List.mem_append.mp mem).elim quiet others_, count'.trans count⟩
    · obtain ⟨other, none⟩ := mine_cons_eq_nil none
      have quiet := (drainOne_other seq other).1
      rw [one] at quiet
      exact (List.mem_append.mp mem).elim (quiet event) (spec.quiet (same.trans none) event)
    · by_cases own : e.seqToRequest id = some rid
      · rw [mine_cons, if_pos own, List.length_cons] at fits ⊢
        obtain ⟨k, rfl⟩ : ∃ k, n = k + 1 := ⟨n - 1, by omega⟩
        obtain ⟨completes, count⟩ := drainOne_own seq own due
        rw [one] at completes count
        simp only at completes count
        rw [completes, List.count_append]
        by_cases last : k = 0
        · have none : v.mine rid l = [] := by
            rw [same]
            exact List.length_eq_zero_iff.mp (by omega)
          obtain ⟨quiet, -⟩ := spec.idle none
          rw [if_pos last, List.count_eq_zero_of_not_mem quiet, ← same, none, last]
          exact ⟨by simp, fun other => absurd rfl other⟩
        · rw [if_neg last] at count
          by_cases none : v.mine rid l = []
          · obtain ⟨quiet, count'⟩ := spec.idle none
            rw [if_neg last, List.count_eq_zero_of_not_mem quiet, ← same, none]
            refine ⟨?_, fun _ => count'.trans count⟩
            exact (if_neg fun one => last (Nat.succ.inj one).symm).symm
          · obtain ⟨counts, count'⟩ := spec.counted k count none (by rw [same]; omega)
            rw [if_neg last, List.count_nil, Nat.zero_add, counts, same]
            refine ⟨by simp, fun other => ?_⟩
            rw [count' (by rw [same]; omega), same]
            congr 1
            omega
      · rw [mine_cons, if_neg own] at some_ fits ⊢
        obtain ⟨-, quiet, count⟩ := drainOne_other seq own
        rw [one] at quiet count
        rw [List.count_append, List.count_eq_zero_of_not_mem quiet, Nat.zero_add]
        rw [← same] at some_ fits ⊢
        exact spec.counted n (count.trans due) some_ fits

/-- Whether a request has a sequence. -/
def inFlight (e : GenerationEngine B) (rid : RequestId) : Nat := if e.scheduler.sequencesOf rid = [] then 0 else 1

theorem outstanding_eq_nil : e.outstanding rid = [] ↔ e.scheduler.sequencesOf rid = [] := by
  unfold outstanding
  rw [List.flatMap_eq_nil_iff]
  constructor
  · intro none
    apply List.eq_nil_iff_forall_not_mem.mpr
    intro id mem
    exact List.cons_ne_nil _ _ (none id mem)
  · intro none
    rw [none]
    exact fun id mem => absurd mem List.not_mem_nil

theorem inFlight_eq (e : GenerationEngine B) (rid : RequestId) :
    e.inFlight rid = if (e.outstanding rid).length = 0 then 0 else 1 := by
  unfold inFlight
  apply if_congr _ rfl rfl
  rw [← outstanding_eq_nil, List.length_eq_zero_iff]

/-- What a call that told of a request comes to, which entered no sequence of it. -/
structure Tells (rid : RequestId) (e e' : GenerationEngine B) (out : StepOutput) : Prop where
  registered : Registered e'
  booked : Booked rid e'
  settled : Settled rid e'
  completed : out.completed.count rid + e'.inFlight rid = e.inFlight rid
  quiet : e.scheduler.sequencesOf rid = [] → ∀ event ∈ out.events, event.1 ≠ rid

/-- What is outstanding when a call begins is told in it, or is outstanding when it ends. -/
def Conserves (rid : RequestId) (e e' : GenerationEngine B) (events : List (RequestId × Delta)) : Prop :=
  (dones rid events ++ e'.outstanding rid).Perm (e.outstanding rid)

theorem sequencesOf_nodup {s : Scheduler B} (f : Filed s) (rid : RequestId) : (s.sequencesOf rid).Nodup := by
  unfold Scheduler.sequencesOf
  cases known : s.byRequest rid with
  | none => exact List.nodup_nil
  | some ids => exact (f.list rid ids known).2

theorem drain_tells {out : StepOutput} (reg : Registered e) (b : Booked rid e) (settled : Settled rid e)
    (h : e.drain = (e', out)) : Tells rid e e' out ∧ Conserves rid e e' out.events := by
  unfold drain at h
  obtain ⟨ids, -, -, filed⟩ := drainFinished_spec reg.queued
  have queued := drainFinished_queued reg.queued
  have left := drainFinished_sequencesOf reg.queued reg.filed rid
  have finished := drainFinished_finished reg.queued
  have nextId := (drainFinished_emptied e.scheduler).nextId
  rcases drained : e.scheduler.drainFinished with ⟨s, l⟩
  rw [drained] at ids filed queued left finished nextId
  simp only [drained] at h
  rcases loop : drainLoop l (e.setScheduler s) with ⟨v, events, completed⟩
  simp only [loop, Prod.mk.injEq] at h
  obtain ⟨rfl, rfl⟩ := h
  simp only at ids filed queued left finished nextId
  have spec : Drained rid l (e.setScheduler s) v events completed :=
    drainLoop_drained (ids ▸ reg.queued.nodup .finished) loop
  have scheduler : v.scheduler = s := spec.scheduler
  rw [← scheduler] at left finished
  have owner := spec.owner
  have pending := spec.pending
  have choice := spec.choice
  have counted := spec.counted
  have idle := spec.idle
  have told := spec.told
  rw [ids] at owner pending choice
  change ∀ id, v.seqToRequest id = if id ∈ e.scheduler.finished then none else e.seqToRequest id at owner
  change ∀ id, v.pendingForks id = if id ∈ e.scheduler.finished then none else e.pendingForks id at pending
  have mem : ∀ id, id ∈ v.scheduler.sequencesOf rid ↔ id ∈ e.scheduler.sequencesOf rid ∧ id ∉ e.scheduler.finished := by
    intro id
    rw [left.mem_iff, List.mem_filter, decide_eq_true_eq]
  -- the request's sequences that were drained
  have mine_ : ((e.setScheduler s).mine rid l).Perm ((e.scheduler.sequencesOf rid).filter (· ∈ e.scheduler.finished)) := by
    unfold mine
    rw [ids]
    apply (List.perm_ext_iff_of_nodup ((reg.queued.nodup .finished).filter _) ((sequencesOf_nodup reg.filed rid).filter _)).mpr
    intro id
    rw [List.mem_filter, List.mem_filter, decide_eq_true_eq, decide_eq_true_eq]
    change id ∈ e.scheduler.finished ∧ e.seqToRequest id = some rid ↔ _
    rw [b.own, and_comm]
  have kept : Conserves rid e v events := by
    have gone : (((e.setScheduler s).mine rid l).map fun id => (e.choiceOf id).getD 0).Perm
        (((e.scheduler.sequencesOf rid).filter (· ∈ e.scheduler.finished)).flatMap e.owed) := by
      refine (mine_.map _).trans (.of_eq ?_)
      rw [List.map_eq_flatMap]
      apply List.flatMap_congr
      intro id there
      obtain ⟨here, done⟩ := List.mem_filter.mp there
      unfold owed
      rw [settled id here (of_decide_eq_true done)]
      rfl
    have stays : (v.outstanding rid).Perm
        (((e.scheduler.sequencesOf rid).filter (· ∉ e.scheduler.finished)).flatMap e.owed) := by
      refine (left.flatMap_right _).trans (.of_eq ?_)
      apply List.flatMap_congr
      intro id there
      obtain ⟨here, live⟩ := List.mem_filter.mp there
      have live := of_decide_eq_true live
      unfold owed
      rw [choice id live, pending id, if_neg live]
      rfl
    unfold Conserves
    rw [told]
    refine (gone.append stays).trans ?_
    rw [← List.flatMap_append]
    refine List.Perm.flatMap_right _ ?_
    have parts := List.filter_append_perm (fun id => decide (id ∈ e.scheduler.finished)) (e.scheduler.sequencesOf rid)
    simpa using parts
  have total := kept.length_eq
  rw [told, List.length_append, List.length_map] at total
  have counts : completed.count rid + v.inFlight rid = e.inFlight rid ∧
      (v.scheduler.sequencesOf rid ≠ [] → v.openChoices rid = some (v.outstanding rid).length) := by
    rw [inFlight_eq, inFlight_eq]
    by_cases none : (e.setScheduler s).mine rid l = []
    · obtain ⟨quiet, same⟩ := idle none
      rw [none, List.length_nil, Nat.zero_add] at total
      rw [List.count_eq_zero_of_not_mem quiet, Nat.zero_add, total]
      refine ⟨rfl, fun some_ => ?_⟩
      rw [same]
      apply b.due
      rw [Ne, ← outstanding_eq_nil, ← List.length_eq_zero_iff, ← total, List.length_eq_zero_iff, outstanding_eq_nil]
      exact some_
    · have some_ : 0 < ((e.setScheduler s).mine rid l).length := List.length_pos_iff.mpr none
      have live : e.scheduler.sequencesOf rid ≠ [] := by
        rw [Ne, ← outstanding_eq_nil, ← List.length_eq_zero_iff]
        omega
      obtain ⟨count, open_⟩ := counted _ (b.due live) none (by omega)
      rw [count]
      constructor
      · by_cases last : ((e.setScheduler s).mine rid l).length = (e.outstanding rid).length
        · rw [if_pos last, if_pos (by omega), if_neg (by omega)]
        · rw [if_neg last, if_neg (by omega), if_neg (by omega)]
      · intro more
        rw [Ne, ← outstanding_eq_nil, ← List.length_eq_zero_iff] at more
        rw [open_ (by omega)]
        congr 1
        omega
  refine ⟨⟨⟨scheduler ▸ queued, scheduler ▸ filed reg.filed, fun id later => ?_⟩,
    ⟨fun id => ?_, fun id extra there waiting => ?_, counts.2⟩, fun id _ done => ?_, counts.1, fun none => spec.quiet ?_⟩, kept⟩
  · rw [scheduler, nextId] at later
    rw [pending]
    split
    · rfl
    · exact reg.fresh id later
  · rw [owner, mem, ← b.own]
    by_cases done : id ∈ e.scheduler.finished <;> simp [done]
  · obtain ⟨here, live⟩ := (mem id).mp there
    rw [pending, if_neg live] at waiting
    rw [b.alone id extra here waiting, List.filter_singleton, decide_eq_true live] at left
    exact List.perm_singleton.mp left
  · rw [finished] at done
    cases done
  · apply List.Perm.eq_nil
    rw [none] at mine_
    exact mine_

end GenerationEngine

end Vapi.Worker
