import Vapi.Worker.Said

/-!
# Choices in flight

Every choice of a request says what a job of a single choice says: a commit
takes each of its sequences one token further, and a fork whose first tokens
end nothing gives each sibling its own.
-/

namespace Vapi.Worker

open Cache Engine Proto

/-- All that is told of a choice, once it has ended. -/
def Answer.output (a : Answer) : Text := a.text ++ if a.finish.isSome then a.stream.text.held else []

namespace ChoiceJob

/-- What a choice that is told as done comes to. -/
def Told (J : ChoiceJob) (said : Text) (reason : FinishReason) (promptTokens completionTokens : Nat) : Prop :=
  ∃ a, J.Alone a ∧ said = a.output ∧ reason = a.finish.getD .cancelled ∧ promptTokens = J.prompt.length ∧
    completionTokens = a.generated.length

theorem check_ne {J : ChoiceJob} {generated : List Token} : J.check generated ≠ some .cancelled := by
  intro same
  unfold check at same
  repeat' split at same
  all_goals cases same

theorem Alone.finish_ne {J : ChoiceJob} {a : Answer} (h : J.Alone a) : a.finish ≠ some .cancelled := by
  intro same
  cases h with
  | start => cases same
  | take before goes allowed h =>
    obtain ⟨stream, out, stopped, -, rfl⟩ := take_eq h
    cases stopped with
    | false => exact check_ne same
    | true => cases same

end ChoiceJob

namespace GenerationEngine

variable {H : Type} {B : Blake3 H} {J : ChoiceJob} {e e' u : GenerationEngine B} {rid : RequestId} {id y : SeqId}
  {k : Nat} {es events : List (RequestId × Delta)} {f : ForkToMake}

section Owed

variable [DecidableEq H] in
/-- A fork that is whole, and draws for each sibling it makes a first token that ends nothing. -/
def Fair (J : ChoiceJob) (e : GenerationEngine B) (f : ForkToMake) : Prop :=
  Whole e f ∧ ((e.scheduler.fork f.leader f.extra).2.isOk → ∀ t ∈ f.draw.siblings.take f.extra, J.Plain t)

variable [DecidableEq H] in
instance (J : ChoiceJob) (e : GenerationEngine B) (f : ForkToMake) : Decidable (Fair J e f) :=
  -- along the list: `UInt32` is finite, and going through all its values never ends
  letI : Decidable (∀ t ∈ f.draw.siblings.take f.extra, J.Plain t) := List.decidableBAll _ _
  inferInstanceAs (Decidable (Whole e f ∧
    ((e.scheduler.fork f.leader f.extra).2.isOk → ∀ t ∈ f.draw.siblings.take f.extra, J.Plain t)))

theorem choice_owed (e : GenerationEngine B) (id : SeqId) : (e.choiceOf id).getD 0 ∈ e.owed id := List.mem_cons_self

theorem owed_outstanding (mem : id ∈ e.scheduler.sequencesOf rid) (owes : k ∈ e.owed id) : k ∈ e.outstanding rid :=
  List.mem_flatMap.mpr ⟨id, mem, owes⟩

/-- No choice is told through two sequences. -/
theorem owed_apart (once : (e.outstanding rid).Nodup) (mem : id ∈ e.scheduler.sequencesOf rid)
    (there : y ∈ e.scheduler.sequencesOf rid) (owes : k ∈ e.owed id) (too : k ∈ e.owed y) : y = id := by
  by_contra other
  have : Std.Symm (Function.onFun List.Disjoint e.owed) := ⟨fun _ _ apart => apart.symm⟩
  exact (List.nodup_flatMap.mp once).2.forall there mem other too owes

theorem done_mem {reason : FinishReason} {p n : Nat} (mem : (rid, Delta.done k reason p n) ∈ es) : k ∈ dones rid es :=
  List.mem_filterMap.mpr ⟨_, mem, if_pos rfl⟩

end Owed

/-- Every choice of a request has said what a run of its own says, and each has
been told as done at most once. -/
structure Answering (J : ChoiceJob) (rid : RequestId) (es : List (RequestId × Delta)) (e : GenerationEngine B) :
    Prop where
  agrees : Agrees J e
  live : ∀ id ∈ e.scheduler.sequencesOf rid, ∃ a, J.Alone a ∧ Shows J e id a ∧
    choiceText rid ((e.choiceOf id).getD 0) es = a.text
  waiting : ∀ id ∈ e.scheduler.sequencesOf rid, ∀ extra, e.pendingForks id = some extra →
    ∀ k ∈ List.range' 1 extra, choiceText rid k es = []
  once : (dones rid es ++ e.outstanding rid).Nodup
  told : ∀ k reason p n, (rid, Delta.done k reason p n) ∈ es → reason ≠ .error → J.Told (choiceText rid k es) reason p n

namespace Answering

theorem owes (h : Answering J rid es e) : (e.outstanding rid).Nodup := (List.nodup_append.mp h.once).2.1

/-- A choice that has been told as done is not outstanding. -/
theorem apart (h : Answering J rid es e) (done : k ∈ dones rid es) (mem : id ∈ e.scheduler.sequencesOf rid) :
    k ∉ e.owed id :=
  fun owes => (List.nodup_append.mp h.once).2.2 k done k (owed_outstanding mem owes) rfl

/-- What has been told stays told when nothing more is said of it. -/
theorem tells (h : Answering J rid es e) (quiet : ∀ k ∈ dones rid es, choiceText rid k events = [])
    (fresh : ∀ k reason p n, (rid, Delta.done k reason p n) ∈ events → reason ≠ .error →
      J.Told (choiceText rid k (es ++ events)) reason p n) :
    ∀ k reason p n, (rid, Delta.done k reason p n) ∈ es ++ events → reason ≠ .error →
      J.Told (choiceText rid k (es ++ events)) reason p n := by
  intro k reason p n mem served
  rcases List.mem_append.mp mem with before | now
  · rw [choiceText_append, quiet k (done_mem before), List.append_nil]
    exact h.told k reason p n before served
  · exact fresh k reason p n now served

/-- A call that tells nothing of a request and leaves its sequences as they are,
but for ending some. -/
theorem calm (h : Answering J rid es e) (same : Steady rid e e') (agrees : Agrees J e')
    (shows_ : ∀ id ∈ e.scheduler.sequencesOf rid, ∀ a, Shows J e id a → Shows J e' id a)
    (quiet : ∀ k, choiceText rid k events = []) (none : dones rid events = []) : Answering J rid (es ++ events) e' where
  agrees := agrees
  live id mem := by
    rw [same.sequences] at mem
    obtain ⟨a, alone, shown, text⟩ := h.live id mem
    refine ⟨a, alone, shows_ id mem a shown, ?_⟩
    rw [same.choice id mem, choiceText_append, quiet, List.append_nil]
    exact text
  waiting id mem extra waits k later := by
    rw [same.sequences] at mem
    rw [same.pending id mem] at waits
    rw [choiceText_append, quiet, List.append_nil]
    exact h.waiting id mem extra waits k later
  once := by
    rw [dones_append, none, List.append_nil, same.outstanding]
    exact h.once
  told := h.tells (fun k _ => quiet k) fun k reason p n mem => by
    have done := done_mem mem
    rw [none] at done
    cases done

/-- Nothing is left of a request. -/
theorem gone (h : Answering J rid es e) (agrees : Agrees J e') (empty : e'.scheduler.sequencesOf rid = [])
    (quiet : ∀ k, choiceText rid k events = []) (none : dones rid events = []) : Answering J rid (es ++ events) e' where
  agrees := agrees
  live id mem := by
    rw [empty] at mem
    cases mem
  waiting id mem := by
    rw [empty] at mem
    cases mem
  once := by
    rw [dones_append, none, List.append_nil, outstanding_eq_nil.mpr empty, List.append_nil]
    exact (List.nodup_append.mp h.once).1
  told := h.tells (fun k _ => quiet k) fun k reason p n mem => by
    have done := done_mem mem
    rw [none] at done
    cases done

theorem separate (h : Answering J rid es e) (b : Booked rid e) (mem : id ∈ e.scheduler.sequencesOf rid) :
    ∀ y, y ≠ id → e.seqToRequest y = some rid → (e.choiceOf y).getD 0 ≠ (e.choiceOf id).getD 0 := by
  intro y other own same
  exact other (owed_apart h.owes mem ((b.own y).mp own) (choice_owed e id) (same ▸ choice_owed e y))

variable [DecidableEq H]

/-- A commit takes each sequence of the request one token further, or leaves it. -/
theorem commit {plan : StepPlan} {draws : List Draw} (h : Answering J rid es e) (free : J.constraint = none)
    (reg : Registered e) (b : Booked rid e) (nodup : plan.sampledSeqs.Nodup)
    (running : ∀ y ∈ plan.sampledSeqs, y ∈ e.scheduler.running) (length : draws.length = plan.sampledSeqs.length)
    (committed : e.commitPlan plan draws = some (e', events)) : Answering J rid (es ++ events) e' := by
  have spec : Commits rid plan e e' events := commitPlan_commits reg committed
  have same := spec.steady
  obtain ⟨agrees, quiet⟩ := commitPlan_agrees rid h.agrees nodup committed
  have none : dones rid events = [] := dones_eq_nil fun event mem => .inr (spec.told event mem).2
  -- what is not the choice of a sequence is not said
  have silent : ∀ k, (∀ y ∈ e.scheduler.sequencesOf rid, (e.choiceOf y).getD 0 ≠ k) → choiceText rid k events = [] :=
    fun k absent => quiet k fun y own => absent y ((b.own y).mp own)
  refine ⟨agrees, fun id mem => ?_, fun id mem extra waits k later => ?_, ?_,
    h.tells (fun k done => ?_) fun k reason p n mem => ?_⟩
  · rw [same.sequences] at mem
    obtain ⟨a, alone, shown, text⟩ := h.live id mem
    obtain ⟨b', shown', text', taken⟩ :=
      commitPlan_said h.agrees reg.queued nodup running length ((b.own id).mpr mem) shown
      (alone.unconstrained free) (h.separate b mem) committed
    refine ⟨b', ?_, shown', ?_⟩
    · rcases taken with rfl | ⟨goes, t, taken⟩
      · exact alone
      · refine .take alone goes (fun c held => ?_) taken
        rw [alone.unconstrained free] at held
        cases held
    · rw [same.choice id mem, choiceText_append, text, text']
  · rw [same.sequences] at mem
    rw [same.pending id mem] at waits
    have pending : k ∈ e.owed id := by
      unfold owed
      rw [waits]
      exact List.mem_cons_of_mem _ later
    rw [choiceText_append, h.waiting id mem extra waits k later, silent k fun y there at_ => ?_]
    · rfl
    · obtain rfl := owed_apart h.owes mem there pending (at_ ▸ choice_owed e y)
      have own := (List.nodup_flatMap.mp h.owes).1 y mem
      unfold owed at own
      rw [waits] at own
      exact (List.nodup_cons.mp own).1 (at_.symm ▸ later)
  · rw [dones_append, none, List.append_nil, same.outstanding]
    exact h.once
  · exact silent k fun y there at_ => h.apart done there (at_ ▸ choice_owed e y)
  · have done := done_mem mem
    rw [none] at done
    cases done

/-- A fork of another request. -/
theorem fork_other (h : Answering J rid es e) (reg : Registered e) (b : Booked rid e)
    (other : e.seqToRequest f.leader ≠ some rid)
    (made : e.makeFork f = some (e', events)) : Answering J rid (es ++ events) e' := by
  have spec := makeFork_other reg b other True made
  have untouched := makeFork_untouched made
  have quiet := fun k => choiceText_other (k := k) (spec.quiet other)
  refine ⟨untouched.agrees h.agrees, fun id mem => ?_, fun id mem extra waits k later => ?_, ?_,
    h.tells (fun k _ => quiet k) fun k reason p n mem => absurd rfl (spec.quiet other _ mem)⟩
  · rw [spec.same other] at mem
    obtain ⟨a, alone, shown, text⟩ := h.live id mem
    refine ⟨a, alone, untouched.shows (reg.known mem) shown, ?_⟩
    rw [untouched.choice id (reg.known mem), choiceText_append, quiet, List.append_nil]
    exact text
  · rw [spec.same other] at mem
    have apart : id ≠ f.leader := by
      rintro rfl
      exact other ((b.own f.leader).mpr mem)
    rw [spec.pending, Function.update_of_ne apart] at waits
    rw [choiceText_append, quiet, List.append_nil]
    exact h.waiting id mem extra waits k later
  · rw [dones_append, List.append_assoc]
    exact ((spec.told trivial).append_left _).nodup_iff.mpr h.once

/-- What a whole fork of a job's leader tells, and what its siblings have come to. -/
theorem makeFork_said (h : Answering J rid es e) (free : J.constraint = none) (reg : Registered e) (b : Booked rid e)
    (own : e.seqToRequest f.leader = some rid) (whole : Whole e f) (params : f.params = J.params)
    (plain : (e.scheduler.fork f.leader f.extra).2.isOk → ∀ t ∈ f.draw.siblings.take f.extra, J.Plain t)
    (made : e.makeFork f = some (e', events)) :
    (∀ k, k ∉ List.range' 1 f.extra → choiceText rid k events = []) ∧
    (∀ k reason p n, (rid, Delta.done k reason p n) ∈ events → reason = .error) ∧
    ∀ id ∈ e'.scheduler.sequencesOf rid, e.scheduler.nextId ≤ id → (e'.choiceOf id).getD 0 ∈ List.range' 1 f.extra ∧
      ∃ a, J.Alone a ∧ Shows J e' id a ∧ choiceText rid ((e'.choiceOf id).getD 0) events = a.text := by
  have mem := (b.own f.leader).mp own
  rcases makeFork_cases made with ⟨-, rfl, rfl⟩ | ⟨u, told, all, some_, request, ends⟩
  · refine ⟨fun _ _ => rfl, fun _ _ _ _ mem => absurd mem List.not_mem_nil, fun id there later => ?_⟩
    change id ∈ (e.shut f.leader).scheduler.sequencesOf rid at there
    rw [(shut_fixed e f.leader).1] at there
    exact absurd later (Nat.not_le.mpr (reg.known there))
  · obtain ⟨n, branches, quiet, outcome⟩ := forkRequest_branches rid reg request
    have sequences := branches.sequences reg mem
    rcases outcome whole own with ⟨rfl, rfl, rfl⟩ | ⟨rfl, rfl, -, choices⟩
    · obtain ⟨-, rfl, rfl⟩ := ends.resolve_left fun made => Bool.noConfusion made.1
      refine ⟨fun k _ => ?_, fun k reason p n there => ?_, fun id there later => ?_⟩
      · rw [List.nil_append]
        cases u.seqToRequest f.leader with
        | none => rfl
        | some r => exact choiceText_closeSiblings rid r k f.extra
      · rw [List.nil_append] at there
        cases served : u.seqToRequest f.leader with
        | none =>
          rw [served] at there
          cases there
        | some r =>
          rw [served] at there
          obtain ⟨choice, -, same⟩ := List.mem_map.mp there
          cases same
          rfl
      · change id ∈ (u.shut f.leader).scheduler.sequencesOf rid at there
        rw [(shut_fixed u f.leader).1, sequences, List.range'_zero, List.append_nil] at there
        exact absurd later (Nat.not_le.mpr (reg.known there))
    · obtain ⟨-, rfl, rfl⟩ := ends.resolve_right fun unmade => Bool.noConfusion unmade.1
      obtain ⟨a, -, shown, -⟩ := h.live f.leader mem
      obtain ⟨seq, live, runs⟩ := shown.seq
      obtain ⟨ok, silent, said⟩ := forkRequest_said h.agrees own params live (reg.known mem) runs request
      refine ⟨silent, fun k reason p n there => ?_, fun id there later => ?_⟩
      · cases (quiet _ there).2
      · change id ∈ u.scheduler.sequencesOf rid at there
        rw [sequences] at there
        have new := (List.mem_append.mp there).resolve_left fun old => absurd later (Nat.not_le.mpr (reg.known old))
        refine ⟨choices ▸ List.mem_map_of_mem new, ?_⟩
        obtain ⟨t, drawn, a, seeded, shows_, text⟩ := said id new
        have closing : Untouched (fun _ => True) u (u.setPending f.leader none) := .closing (.inl rfl)
        refine ⟨a, (ChoiceJob.seeded_alone (fun c held => ?_) seeded).mpr (plain ok t drawn),
          closing.shows trivial shows_, text⟩
        rw [show J.start.stream.constraint = none from free] at held
        cases held

/-- A fork of the request itself. -/
theorem fork_own (h : Answering J rid es e) (free : J.constraint = none) (reg : Registered e) (b : Booked rid e)
    (own : e.seqToRequest f.leader = some rid) (waits : e.pendingForks f.leader = some f.extra) (whole : Whole e f)
    (params : f.params = J.params)
    (plain : (e.scheduler.fork f.leader f.extra).2.isOk → ∀ t ∈ f.draw.siblings.take f.extra, J.Plain t)
    (made : e.makeFork f = some (e', events)) : Answering J rid (es ++ events) e' := by
  have spec := makeFork_own reg b own waits (.inr rfl) whole made
  have untouched := makeFork_untouched made
  obtain ⟨quiet, closed, children⟩ := makeFork_said h free reg b own whole params plain made
  have mem := (b.own f.leader).mp own
  have alone := b.alone f.leader f.extra mem waits
  have owes : e.owed f.leader = (e.choiceOf f.leader).getD 0 :: List.range' 1 f.extra := by
    unfold owed
    rw [waits]
    rfl
  refine ⟨untouched.agrees h.agrees, fun id there => ?_, fun id there extra waiting => ?_, ?_,
    h.tells (fun k done => ?_) fun k reason p n there served => absurd (closed k reason p n there) served⟩
  · rcases spec.old id there with old | new
    · obtain ⟨a, alone_, shown, text⟩ := h.live id old
      refine ⟨a, alone_, untouched.shows (reg.known old) shown, ?_⟩
      rw [untouched.choice id (reg.known old), choiceText_append, quiet, List.append_nil]
      · exact text
      · rw [alone, List.mem_singleton] at old
        have once := (List.nodup_flatMap.mp h.owes).1 f.leader mem
        rw [owes] at once
        exact old ▸ (List.nodup_cons.mp once).1
    · obtain ⟨at_, a, alone_, shown, text⟩ := children id there new
      refine ⟨a, alone_, shown, ?_⟩
      rw [choiceText_append, h.waiting f.leader mem f.extra waits _ at_, List.nil_append]
      exact text
  · rw [spec.pending] at waiting
    rcases spec.old id there with old | new
    · rw [alone, List.mem_singleton] at old
      rw [old, Function.update_self] at waiting
      cases waiting
    · have other : id ≠ f.leader := by
        rintro rfl
        exact absurd new (Nat.not_le.mpr (reg.known mem))
      rw [Function.update_of_ne other, reg.fresh id new] at waiting
      cases waiting
  · rw [dones_append, List.append_assoc]
    exact ((spec.told rfl).append_left _).nodup_iff.mpr h.once
  · apply quiet
    intro later
    exact h.apart done mem (owes ▸ List.mem_cons_of_mem _ later)

/-- A request's rows and forks are its own job's, and its forks give each sibling a first token that ends nothing. -/
theorem forks {forks : List ForkToMake} (h : Answering J rid es e) (free : J.constraint = none) (reg : Registered e)
    (b : Booked rid e) (nodup : (forks.map ForkToMake.leader).Nodup)
    (asked : ∀ f ∈ forks, ∃ extra, e.pendingForks f.leader = some extra ∧ (f.extra = 0 ∨ f.extra = extra))
    (own : ∀ f ∈ forks, e.seqToRequest f.leader = some rid →
      e.pendingForks f.leader = some f.extra ∧ f.params = J.params)
    (fair : ∀ p ∈ forkPoints forks e, p.1.seqToRequest p.2.leader = some rid → Fair J p.1 p.2)
    (made : forkLoop forks e = some (e', events)) : Answering J rid (es ++ events) e' := by
  induction forks generalizing e es events with
  | nil =>
    simp only [forkLoop, Option.some.injEq, Prod.mk.injEq] at made
    obtain ⟨rfl, rfl⟩ := made
    rw [List.append_nil]
    exact h
  | cons f forks ih =>
    rw [forkLoop] at made
    obtain ⟨⟨u, first⟩, one, made⟩ := Option.bind_eq_some_iff.mp made
    obtain ⟨⟨v, more⟩, rest, made⟩ := Option.bind_eq_some_iff.mp made
    simp only [Option.some.injEq, Prod.mk.injEq] at made
    obtain ⟨rfl, rfl⟩ := made
    rw [List.map_cons] at nodup
    obtain ⟨out, nodup⟩ := List.nodup_cons.mp nodup
    obtain ⟨extra, waits, some_⟩ := asked f List.mem_cons_self
    have forking := makeFork_forking reg b waits some_ (fun mine => (fair (e, f) List.mem_cons_self mine).1) one
    have next : Answering J rid (es ++ first) u := by
      by_cases mine : e.seqToRequest f.leader = some rid
      · obtain ⟨waits, params⟩ := own f List.mem_cons_self mine
        obtain ⟨whole, plain⟩ := fair (e, f) List.mem_cons_self mine
        exact h.fork_own free reg b mine waits whole params plain one
      · exact h.fork_other reg b mine one
    have still : ∀ g ∈ forks, u.pendingForks g.leader = e.pendingForks g.leader := by
      intro g mem
      rw [forking.pending]
      exact Function.update_of_ne (ne_of_mem_of_not_mem (List.mem_map_of_mem mem) out) ..
    rw [← List.append_assoc]
    refine ih next forking.registered forking.booked nodup (fun g mem => still g mem ▸ asked g
      (List.mem_cons_of_mem f mem))
      (fun g mem mine => ?_) (fun p mem => fair p (List.mem_cons_of_mem _ (by rw [one]; exact mem))) rest
    obtain ⟨more, waits, -⟩ := asked g (List.mem_cons_of_mem f mem)
    rw [still g mem]
    exact own g (List.mem_cons_of_mem f mem) (forking.owned reg b waits mine)

end Answering

end GenerationEngine

end Vapi.Worker
