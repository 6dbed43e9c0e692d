import Vapi.Worker.Answering

/-!
# Last words

A drain tells each choice that has ended as done, with the text that was held
back for a stop string that never came.
-/

namespace Vapi.Worker

open Cache Engine Proto

namespace GenerationEngine

variable {H : Type} {B : Blake3 H} {J : ChoiceJob} {e e' : GenerationEngine B} {rid : RequestId} {id y : SeqId}
  {k : Nat} {es events : List (RequestId × Delta)} {l : List (SeqId × Sequence)}

section Drains

variable {st : Stream}

/-- What is told of a sequence that is done is read off what is kept of it alone. -/
theorem drainOne_congr {v : GenerationEngine B} (seq : Sequence) (stream : v.streams id = e.streams id)
    (choice : v.choiceOf id = e.choiceOf id) (owner : v.seqToRequest id = e.seqToRequest id) :
    (v.drainOne id seq).2.1 = (e.drainOne id seq).2.1 := by
  unfold drainOne
  rw [stream, choice, owner]
  cases e.seqToRequest id <;> rfl

theorem drainOne_untouched (e : GenerationEngine B) (id : SeqId) (seq : Sequence) :
    Untouched (· ≠ id) e (e.drainOne id seq).1 := by
  unfold drainOne
  cases e.seqToRequest id <;>
    exact ⟨rfl, rfl, rfl, fun _ _ => rfl, fun _ other => Function.update_of_ne other ..,
      fun _ other => Function.update_of_ne other ..⟩

theorem drainLoop_untouched (l : List (SeqId × Sequence)) (e : GenerationEngine B) :
    Untouched (· ∉ l.map Prod.fst) e (drainLoop l e).1 := by
  induction l generalizing e with
  | nil => exact .refl e
  | cons p l ih =>
    obtain ⟨id, seq⟩ := p
    refine ((drainOne_untouched e id seq).mono fun x out => ?_).trans ((ih _).mono fun x out => ?_)
    · exact List.ne_of_not_mem_cons out
    · exact List.not_mem_of_not_mem_cons out

/-- Each sequence is told of as if it were drained first. -/
theorem drainLoop_events (nodup : (l.map Prod.fst).Nodup) (e : GenerationEngine B) :
    (drainLoop l e).2.1 = l.flatMap fun p => (e.drainOne p.1 p.2).2.1 := by
  induction l generalizing e with
  | nil => rfl
  | cons p l ih =>
    obtain ⟨id, seq⟩ := p
    obtain ⟨out, nodup⟩ := List.nodup_cons.mp nodup
    change (e.drainOne id seq).2.1 ++ (drainLoop l (e.drainOne id seq).1).2.1 = _
    rw [ih nodup, List.flatMap_cons]
    congr 1
    apply List.flatMap_congr
    rintro ⟨y, seq'⟩ mem
    have other : y ≠ id := ne_of_mem_of_not_mem (List.mem_map_of_mem mem) out
    have untouched := drainOne_untouched e id seq
    refine drainOne_congr seq' (untouched.streams y other) (untouched.choice y other) ?_
    rw [(drainOne_fixed e id seq).2.1, Function.update_of_ne other]

theorem flatMap_of_mem {g : SeqId × Sequence → Text} {p : SeqId × Sequence} (nodup : (l.map Prod.fst).Nodup)
    (mem : p ∈ l) (others : ∀ q ∈ l, q.1 ≠ p.1 → g q = []) : l.flatMap g = g p := by
  obtain ⟨before, after, rfl⟩ := List.append_of_mem mem
  rw [List.map_append, List.map_cons] at nodup
  obtain ⟨-, later, apart⟩ := List.nodup_append.mp nodup
  have first : before.flatMap g = [] := List.flatMap_eq_nil_iff.mpr fun q there =>
    others q (List.mem_append_left _ there) (apart q.1 (List.mem_map_of_mem there) p.1 List.mem_cons_self)
  have last : after.flatMap g = [] := List.flatMap_eq_nil_iff.mpr fun q there =>
    others q (List.mem_append_right _ (List.mem_cons_of_mem p there))
      (ne_of_mem_of_not_mem (List.mem_map_of_mem there) (List.nodup_cons.mp later).1)
  rw [List.flatMap_append, List.flatMap_cons, first, last, List.append_nil, List.nil_append]

/-- The last words of a sequence of the request. -/
theorem drainOne_said (own : e.seqToRequest id = some rid) (stream : e.streams id = some st) (seq : Sequence) :
    (∀ k, choiceText rid k (e.drainOne id seq).2.1 =
      if (e.choiceOf id).getD 0 = k ∧ reasonOf seq ≠ .cancelled then st.text.held else []) ∧
    ∀ k reason p n, (rid, Delta.done k reason p n) ∈ (e.drainOne id seq).2.1 →
      k = (e.choiceOf id).getD 0 ∧ reason = reasonOf seq ∧ p = seq.promptLen ∧ n = seq.numGenerated := by
  have told : (e.drainOne id seq).2.1 = release (some st) rid ((e.choiceOf id).getD 0) (reasonOf seq) ++
      [(rid, .done ((e.choiceOf id).getD 0) (reasonOf seq) seq.promptLen seq.numGenerated)] := by
    unfold drainOne
    rw [own, stream]
  rw [told]
  constructor
  · intro k
    have done : choiceText rid k
        [(rid, Delta.done ((e.choiceOf id).getD 0) (reasonOf seq) seq.promptLen seq.numGenerated)] = [] :=
      choiceText_eq_nil fun event mem _ => by
        rw [List.mem_singleton.mp mem]
        rfl
    rw [choiceText_append, done, List.append_nil]
    unfold release
    dsimp only
    by_cases some_ : st.text.held ≠ [] ∧ reasonOf seq ≠ .cancelled
    · rw [if_pos some_]
      refine (choiceText_tokens rid k (some st.text.held) _ _ _ _).trans ?_
      simp only [some_.2, ne_eq, not_false_eq_true, and_true, Option.getD_some]
    · rw [if_neg some_]
      split
      · rename_i both
        rw [not_and, not_not] at some_
        by_cases held : st.text.held = []
        · exact held.symm
        · exact absurd (some_ held) both.2
      · rfl
  · intro k reason p n mem
    rcases List.mem_append.mp mem with mem | mem
    · cases (release_mem _ mem).2
    · cases List.mem_singleton.mp mem
      exact ⟨rfl, rfl, rfl, rfl⟩

variable (rid) in
/-- What a drain tells and leaves, sequence by sequence. -/
structure Drains (e e' : GenerationEngine B) (l : List (SeqId × Sequence)) (events : List (RequestId × Delta)) :
    Prop where
  ids : l.map Prod.fst = e.scheduler.finished
  given : ∀ p ∈ l, e.scheduler.seqs p.1 = some p.2
  events : events = l.flatMap fun p => (e.drainOne p.1 p.2).2.1
  untouched : Untouched (· ∉ e.scheduler.finished) e e'
  pending : ∀ id, id ∉ e.scheduler.finished → e'.pendingForks id = e.pendingForks id
  left : ∀ id, id ∈ e'.scheduler.sequencesOf rid ↔ id ∈ e.scheduler.sequencesOf rid ∧ id ∉ e.scheduler.finished

theorem drain_drains {out : StepOutput} (reg : Registered e) (drained : e.drain = (e', out)) :
    ∃ l, Drains rid e e' l out.events := by
  obtain ⟨ids, given, left, -⟩ := drainFinished_spec reg.queued
  have sequences := drainFinished_sequencesOf reg.queued reg.filed rid
  have emptied := drainFinished_emptied e.scheduler
  have eos := drainFinished_eos e.scheduler
  have nodup : (e.scheduler.drainFinished.2.map Prod.fst).Nodup := by
    rw [ids]
    exact reg.queued.nodup .finished
  rcases finished : e.scheduler.drainFinished with ⟨s, l⟩
  unfold drain at drained
  rw [finished] at ids given left sequences emptied eos nodup drained
  obtain ⟨rfl, rfl⟩ := Prod.mk.inj drained
  have spec : Drained rid l (e.setScheduler s) _ _ _ := drainLoop_drained nodup rfl
  refine ⟨l, ids, given, ?_, ?_, fun id live => ?_, fun id => ?_⟩
  · refine (drainLoop_events nodup (e.setScheduler s)).trans ?_
    exact List.flatMap_congr fun p _ => drainOne_congr p.2 rfl rfl rfl
  · have first : Untouched (· ∉ e.scheduler.finished) e (e.setScheduler s) :=
      ⟨rfl, eos, emptied.cfg, fun id live => (left id).trans (if_neg live), fun _ _ => rfl, fun _ _ => rfl⟩
    exact first.trans ((drainLoop_untouched l (e.setScheduler s)).mono fun id live => ids ▸ live)
  · refine (spec.pending id).trans ?_
    change (if id ∈ l.map Prod.fst then none else e.pendingForks id) = _
    rw [show l.map Prod.fst = e.scheduler.finished from ids, if_neg live]
  · rw [spec.scheduler]
    change id ∈ s.sequencesOf rid ↔ _
    rw [sequences.mem_iff, List.mem_filter, decide_eq_true_eq]

theorem Drains.ended (d : Drains rid e e' l events) {p : SeqId × Sequence} (mem : p ∈ l) : p.1 ∈ e.scheduler.finished :=
  d.ids ▸ List.mem_map_of_mem mem

theorem Drains.said (d : Drains rid e e' l events) (k : Nat) :
    choiceText rid k events = l.flatMap fun p => choiceText rid k (e.drainOne p.1 p.2).2.1 := by
  rw [d.events]
  exact List.flatMap_assoc

end Drains

namespace Answering

/-- Nothing is said for another choice than that of the sequence that is told of. -/
theorem drainOne_quiet (h : Answering J rid es e) (b : Booked rid e) (seq : Sequence)
    (other : id ∈ e.scheduler.sequencesOf rid → (e.choiceOf id).getD 0 ≠ k) :
    choiceText rid k (e.drainOne id seq).2.1 = [] := by
  by_cases mine : e.seqToRequest id = some rid
  · have there := (b.own id).mp mine
    obtain ⟨a, -, shown, -⟩ := h.live id there
    rw [(drainOne_said mine shown.stream seq).1, if_neg fun both => other there both.1]
  · exact choiceText_other (drainOne_other seq mine).1

/-- Nothing is said for a choice that has not ended. -/
theorem drain_quiet (h : Answering J rid es e) (b : Booked rid e) (d : Drains rid e e' l events)
    (absent : ∀ y ∈ e.scheduler.sequencesOf rid, y ∈ e.scheduler.finished → (e.choiceOf y).getD 0 ≠ k) :
    choiceText rid k events = [] := by
  rw [d.said]
  exact List.flatMap_eq_nil_iff.mpr fun p mem => h.drainOne_quiet b p.2 fun there => absent p.1 there (d.ended mem)

/-- A choice that is told as done has said all that it says alone. -/
theorem drain_told (h : Answering J rid es e) (reg : Registered e) (b : Booked rid e) (d : Drains rid e e' l events)
    {reason : FinishReason} {p n : Nat} (mem : (rid, Delta.done k reason p n) ∈ events) :
    J.Told (choiceText rid k (es ++ events)) reason p n := by
  rw [d.events] at mem
  obtain ⟨⟨id, seq⟩, there, mem⟩ := List.mem_flatMap.mp mem
  have mine : e.seqToRequest id = some rid := by
    by_contra other
    exact (drainOne_other seq other).1 _ mem rfl
  have held := (b.own id).mp mine
  obtain ⟨a, alone, shown, text⟩ := h.live id held
  obtain ⟨last, closing⟩ := drainOne_said mine shown.stream seq
  obtain ⟨rfl, rfl, rfl, rfl⟩ := closing k reason p n mem
  obtain ⟨seq', live, runs⟩ := shown.seq
  obtain rfl := Option.some.inj (live.symm.trans (d.given _ there))
  have one : choiceText rid ((e.choiceOf id).getD 0) events = if reasonOf seq' ≠ .cancelled then a.stream.text.held else
    [] := by
    rw [d.said, flatMap_of_mem (d.ids.symm ▸ reg.queued.nodup .finished) there fun q _ other => ?_, last]
    · simp only [true_and]
    · exact h.drainOne_quiet b q.2 fun owned => h.separate b held q.1 other ((b.own q.1).mpr owned)
  have reason : reasonOf seq' = a.finish.getD .cancelled := by
    obtain ⟨seq₀, known, place⟩ := (reg.queued.mem .finished id).mp (d.ended there)
    obtain rfl := Option.some.inj (live.symm.trans known)
    unfold reasonOf
    cases status : seq'.status with
    | finished r => exact runs.finished r status
    | _ => rw [status] at place; cases place
  refine ⟨a, alone, ?_, reason, runs.promptLen, runs.generated⟩
  rw [choiceText_append, text, one, reason]
  unfold Answer.output
  cases finish : a.finish with
  | none => rfl
  | some r =>
    have served : r ≠ .cancelled := by
      rintro rfl
      exact alone.finish_ne finish
    rw [Option.getD_some, if_pos served]
    rfl

/-- A drain tells each sequence that has ended as done. -/
theorem drain {out : StepOutput} (h : Answering J rid es e) (reg : Registered e) (b : Booked rid e)
    (settled : Settled rid e)
    (drained : e.drain = (e', out)) : Answering J rid (es ++ out.events) e' := by
  obtain ⟨-, conserves⟩ := drain_tells reg b settled drained
  obtain ⟨l, d⟩ : ∃ l, Drains rid e e' l out.events := drain_drains reg drained
  -- a choice of a sequence that is left is not said
  have silent : ∀ id k, id ∈ e.scheduler.sequencesOf rid → id ∉ e.scheduler.finished → k ∈ e.owed id →
      choiceText rid k out.events = [] := by
    intro id k mem live owes
    refine h.drain_quiet b d fun y there done same => ?_
    exact live (owed_apart h.owes mem there owes (same ▸ choice_owed e y) ▸ done)
  refine ⟨d.untouched.agrees h.agrees, fun id mem => ?_, fun id mem extra waits k later => ?_, ?_,
    h.tells (fun k done => ?_) fun k reason p n mem _ => h.drain_told reg b d mem⟩
  · obtain ⟨mem, live⟩ := (d.left id).mp mem
    obtain ⟨a, alone, shown, text⟩ := h.live id mem
    refine ⟨a, alone, d.untouched.shows live shown, ?_⟩
    rw [d.untouched.choice id live, choiceText_append, silent id _ mem live (choice_owed e id), List.append_nil]
    exact text
  · obtain ⟨mem, live⟩ := (d.left id).mp mem
    rw [d.pending id live] at waits
    have owes : k ∈ e.owed id := by
      unfold owed
      rw [waits]
      exact List.mem_cons_of_mem _ later
    rw [choiceText_append, h.waiting id mem extra waits k later, silent id k mem live owes]
    rfl
  · rw [dones_append, List.append_assoc]
    exact (conserves.append_left _).nodup_iff.mpr h.once
  · exact h.drain_quiet b d fun y there _ same => h.apart done there (same ▸ choice_owed e y)

end Answering

end GenerationEngine

end Vapi.Worker
