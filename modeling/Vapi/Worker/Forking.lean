import Vapi.Worker.Outstanding

/-!
# Forks and what is outstanding

A fork makes all the children it was asked for, each with its token, or none:
then what is outstanding of a request is, before and after, what was told and
what is left.
-/

namespace Vapi.Worker

open Cache Engine Proto

namespace GenerationEngine

variable {H : Type} {B : Blake3 H} {e e' u : GenerationEngine B} {rid : RequestId} {id : SeqId}

section Forks

variable [DecidableEq H] {f : ForkToMake} {events : List (RequestId × Delta)}

/-- A fork whose copies were made and whose children all get their tokens, or
one that was refused before a child was made. -/
def Whole (e : GenerationEngine B) (f : ForkToMake) : Prop :=
  match e.scheduler.fork f.leader f.extra with
  | (s, .error _) => s.nextId = e.scheduler.nextId
  | (s, .ok fork) => (fork.copies = [] ∨ f.draw.copies) ∧ (seedAll (fork.ids.zip f.draw.siblings) s).2 = true

instance (e : GenerationEngine B) (f : ForkToMake) : Decidable (Whole e f) :=
  match eq : e.scheduler.fork f.leader f.extra with
  | (s, .error _) => decidable_of_iff (s.nextId = e.scheduler.nextId) (by rw [Whole, eq])
  | (s, .ok fork) =>
    decidable_of_iff ((fork.copies = [] ∨ f.draw.copies) ∧ (seedAll (fork.ids.zip f.draw.siblings) s).2 = true)
      (by rw [Whole, eq])

/-- What giving the siblings their tokens comes to. -/
structure Seeded (rid : RequestId) (ids : List SeqId) (choice : Nat) (tokens : List Token) (e e' : GenerationEngine B)
    (events : List (RequestId × Delta)) (all : Bool) : Prop where
  complete : all = (seedAll (ids.zip tokens) e.scheduler).2
  grows : ∀ q, Grows q 0 e.scheduler e'.scheduler
  queued : Queued e'.scheduler
  enrolls : Enrolls e.scheduler e'.scheduler
  pending : e'.pendingForks = e.pendingForks
  count : e'.openChoices = e.openChoices
  owner : ∀ id, e'.seqToRequest id = e.seqToRequest id ∨ id ∈ ids ∧ e'.seqToRequest id = some rid
  others : ∀ id, id ∉ ids → e'.choiceOf id = e.choiceOf id
  told : ∀ event ∈ events, event.1 = rid ∧ doneChoice event.2 = none
  enrolled : all = true → ids.Nodup →
    (∀ id ∈ ids, e'.seqToRequest id = some rid) ∧
      ids.map (fun id => (e'.choiceOf id).getD 0) = List.range' choice ids.length

theorem seedSiblings_seeded {prompt : List Token} {stop : StopCondition} {ids : List SeqId} {choice : Nat}
    {tokens : List Token} {all : Bool} (queued : Queued e.scheduler) (run : ∀ id ∈ ids, id ∈ e.scheduler.running)
    (h : seedSiblings rid prompt stop ids choice tokens e = some (e', events, all)) :
    Seeded rid ids choice tokens e e' events all := by
  induction ids generalizing e choice tokens events with
  | nil =>
    rw [seedSiblings] at h
    simp only [Option.some.injEq, Prod.mk.injEq] at h
    obtain ⟨rfl, rfl, rfl⟩ := h
    exact ⟨rfl, fun q => .none rfl rfl rfl rfl, queued, .refl _, rfl, rfl, fun _ => .inl rfl, fun _ _ => rfl,
      fun _ mem => absurd mem List.not_mem_nil, fun _ _ => ⟨fun _ mem => absurd mem List.not_mem_nil, rfl⟩⟩
  | cons id ids ih =>
    cases tokens with
    | nil =>
      rw [seedSiblings] at h
      cases h
    | cons token tokens =>
      have here := run id List.mem_cons_self
      have queued' := seedFork_queued queued here token
      have grows : ∀ q, Grows q 0 e.scheduler (e.scheduler.seedFork id token).1 := fun q => seedFork_grows _ _ _
      have enrolls := seedFork_enrolls e.scheduler id token
      rw [seedSiblings] at h
      rcases seeded : e.scheduler.seedFork id token with ⟨s, err | ⟨⟩⟩
      · simp only [seeded] at h queued' grows enrolls
        simp only [Option.some.injEq, Prod.mk.injEq] at h
        obtain ⟨rfl, rfl, rfl⟩ := h
        refine ⟨?_, grows, queued', enrolls, rfl, rfl, fun _ => .inl rfl, fun _ _ => rfl,
          fun _ mem => absurd mem List.not_mem_nil, fun no => Bool.noConfusion no⟩
        rw [List.zip_cons_cons, seedAll, seeded]
      · simp only [seeded] at h queued' grows enrolls
        obtain ⟨⟨text, detok⟩, -, h⟩ := Option.bind_eq_some_iff.mp h
        generalize first : (if token ∈ (e.setScheduler s).scheduler.eosTokenIds then (({} : StreamState), none)
          else emitWithStopStrings {} stop text) = emitted at h
        obtain ⟨left, out⟩ := emitted
        obtain ⟨⟨e₂, more, all₂⟩, rest, h⟩ := Option.bind_eq_some_iff.mp h
        simp only [Option.some.injEq, Prod.mk.injEq] at h
        obtain ⟨rfl, rfl, rfl⟩ := h
        have running' : s.running = e.scheduler.running := by rw [(grows rid).running]; simp
        have spec := ih queued' (fun x mem => running' ▸ run x (List.mem_cons_of_mem id mem)) rest
        refine ⟨?_, fun q => (grows q).trans (spec.grows q), spec.queued, enrolls.trans spec.enrolls, spec.pending,
          spec.count, fun x => ?_, fun x out => ?_, fun event mem => ?_, fun whole nodup => ?_⟩
        · rw [List.zip_cons_cons, seedAll, seeded]
          exact spec.complete
        · rcases spec.owner x with same | ⟨mem, own⟩
          · rw [same]
            change Function.update e.seqToRequest id (some rid) x = _ ∨ _
            by_cases at_ : x = id
            · subst at_
              exact .inr ⟨List.mem_cons_self, Function.update_self ..⟩
            · exact .inl (Function.update_of_ne at_ ..)
          · exact .inr ⟨List.mem_cons_of_mem id mem, own⟩
        · rw [List.mem_cons, not_or] at out
          rw [spec.others x out.2]
          exact Function.update_of_ne out.1 ..
        · rcases List.mem_append.mp mem with mine | later
          · obtain ⟨text, -, rfl⟩ := List.mem_map.mp mine
            exact ⟨rfl, rfl⟩
          · exact spec.told event later
        · obtain ⟨out, nodup⟩ := List.nodup_cons.mp nodup
          obtain ⟨owned, choices⟩ := spec.enrolled whole nodup
          have mine : e₂.choiceOf id = some choice := (spec.others id out).trans (Function.update_self ..)
          constructor
          · intro x mem
            rcases List.mem_cons.mp mem with rfl | mem
            · rcases spec.owner x with same | ⟨-, own⟩
              · exact same.trans (Function.update_self ..)
              · exact own
            · exact owned x mem
          · rw [List.map_cons, mine, choices]
            rfl

/-- What a fork comes to that made `n` children, whether or not they are served. -/
structure Branches (f : ForkToMake) (n : Nat) (e e' : GenerationEngine B) : Prop where
  registered : Registered e'
  grows : ∃ q, Grows q n e.scheduler e'.scheduler ∧
    (n = 0 ∨ ∃ seq, e.scheduler.seqs f.leader = some seq ∧ seq.requestId = q)
  pending : e'.pendingForks = e.pendingForks
  count : e'.openChoices = e.openChoices
  owner : ∀ id, e'.seqToRequest id = e.seqToRequest id ∨
    id ∈ List.range' e.scheduler.nextId n ∧ e'.seqToRequest id = e.seqToRequest f.leader
  choice : ∀ id, id < e.scheduler.nextId → e'.choiceOf id = e.choiceOf id

omit [DecidableEq H] in
theorem Registered.grow {e' : GenerationEngine B} (reg : Registered e) {q : RequestId} {n : Nat}
    (grows : Grows q n e.scheduler e'.scheduler) (queued : Queued e'.scheduler)
    (enrolls : Enrolls e.scheduler e'.scheduler) (pending : e'.pendingForks = e.pendingForks) : Registered e' where
  queued := queued
  filed := enrolls.filed reg.filed
  fresh id later := by
    rw [pending]
    exact reg.fresh id (Nat.le_trans (Nat.le.intro grows.nextId.symm) later)

variable (rid) in
/-- The children of a fork that is refused are none where it is whole. Those of
one that is not refused are the next choices of its request. -/
theorem forkRequest_branches (reg : Registered e) {made : Bool} (h : e.forkRequest f = some (e', events, made)) :
    ∃ n, Branches f n e e' ∧
      (∀ event ∈ events, e.seqToRequest f.leader = some event.1 ∧ doneChoice event.2 = none) ∧
      (Whole e f → e.seqToRequest f.leader = some rid →
        made = false ∧ n = 0 ∧ events = [] ∨ made = true ∧ n = f.extra ∧
          (∀ id ∈ List.range' e.scheduler.nextId n, e'.seqToRequest id = some rid) ∧
          (List.range' e.scheduler.nextId n).map (fun id => (e'.choiceOf id).getD 0) = List.range' 1 n) := by
  unfold forkRequest at h
  cases served : e.seqToRequest f.leader with
  | none =>
    simp only [served, Option.some.injEq, Prod.mk.injEq] at h
    obtain ⟨rfl, rfl, rfl⟩ := h
    refine ⟨0, ⟨reg, ⟨rid, .none rfl rfl rfl rfl, .inl rfl⟩, rfl, rfl, fun _ => .inl rfl, fun _ _ => rfl⟩,
      fun _ mem => absurd mem List.not_mem_nil, fun _ own => ?_⟩
    cases own
  | some r =>
    simp only [served] at h
    have queued := fork_queued reg.queued f.leader f.extra
    have enrolls := fork_enrolls e.scheduler f.leader f.extra
    have grown : ∃ q n, Grows q n e.scheduler (e.scheduler.fork f.leader f.extra).1 ∧
        (n = 0 ∨ ∃ seq, e.scheduler.seqs f.leader = some seq ∧ seq.requestId = q) ∧
        ∀ fork, (e.scheduler.fork f.leader f.extra).2 = .ok fork →
          n = f.extra ∧ fork.ids = List.range' e.scheduler.nextId f.extra := by
      cases live : e.scheduler.seqs f.leader with
      | none =>
        unfold Scheduler.fork
        rw [live]
        refine ⟨rid, 0, .none rfl rfl rfl rfl, .inl rfl, fun fork ok => ?_⟩
        cases ok
      | some seq =>
        obtain ⟨n, grows, ids⟩ := fork_grows live f.extra
        exact ⟨seq.requestId, n, grows, .inr ⟨seq, rfl, rfl⟩, ids⟩
    obtain ⟨q, n, grows, source, ids⟩ := grown
    unfold Whole
    rcases forked : e.scheduler.fork f.leader f.extra with ⟨s, err | fork⟩ <;>
      simp only [forked] at h queued enrolls grows ids ⊢
    · simp only [Option.some.injEq, Prod.mk.injEq] at h
      obtain ⟨rfl, rfl, rfl⟩ := h
      refine ⟨n, ⟨reg.grow grows queued enrolls rfl, ⟨q, grows, source⟩, rfl, rfl, fun _ => .inl rfl, fun _ _ => rfl⟩,
        fun _ mem => absurd mem List.not_mem_nil, fun clean _ => .inl ⟨rfl, ?_, rfl⟩⟩
      exact Nat.add_eq_left.mp (grows.nextId.symm.trans clean)
    · obtain ⟨rfl, children⟩ := ids fork rfl
      split at h
      · rename_i uncopied
        simp only [Option.some.injEq, Prod.mk.injEq] at h
        obtain ⟨rfl, rfl, rfl⟩ := h
        refine ⟨f.extra, ⟨reg.grow grows queued enrolls rfl, ⟨q, grows, source⟩, rfl, rfl, fun _ => .inl rfl,
          fun _ _ => rfl⟩,
          fun _ mem => absurd mem List.not_mem_nil, fun clean _ => ?_⟩
        exact absurd clean.1 (by simpa using uncopied)
      · have run : ∀ id ∈ fork.ids, id ∈ s.running := by
          intro id mem
          rw [grows.running, ← children]
          exact List.mem_append_right _ mem
        have spec := seedSiblings_seeded (e := e.setScheduler s) queued run h
        have all : Grows q (f.extra + 0) e.scheduler e'.scheduler := grows.trans (spec.grows q)
        refine ⟨f.extra, ⟨reg.grow all spec.queued (enrolls.trans spec.enrolls) spec.pending, ⟨q, all, source⟩,
          spec.pending, spec.count, fun id => ?_, fun id old => ?_⟩, fun event mem => ?_, fun clean own => ?_⟩
        · rcases spec.owner id with same | ⟨mem, own⟩
          · exact .inl same
          · exact .inr ⟨children ▸ mem, own.trans served.symm⟩
        · apply spec.others
          rw [children, List.mem_range'_1]
          exact fun mem => absurd mem.1 (Nat.not_le.mpr old)
        · obtain ⟨mine, quiet⟩ := spec.told event mem
          exact ⟨congrArg some mine.symm, quiet⟩
        · obtain rfl := Option.some.inj own
          have whole : made = true := spec.complete.trans clean.2
          obtain ⟨owned, choices⟩ := spec.enrolled whole (children ▸ List.nodup_range')
          rw [children] at owned choices
          refine .inr ⟨whole, rfl, owned, ?_⟩
          rw [choices, List.length_range']

/-- What a fork comes to for a request. `full` says that the leader's siblings are those it waited for. -/
structure Forking (rid : RequestId) (f : ForkToMake) (full : Prop) (e e' : GenerationEngine B)
    (events : List (RequestId × Delta)) : Prop where
  registered : Registered e'
  booked : Booked rid e'
  pending : e'.pendingForks = Function.update e.pendingForks f.leader none
  finished : e'.scheduler.finished = e.scheduler.finished
  lives : e'.scheduler.sequencesOf rid = [] ↔ e.scheduler.sequencesOf rid = []
  old : ∀ id ∈ e'.scheduler.sequencesOf rid, id ∈ e.scheduler.sequencesOf rid ∨ e.scheduler.nextId ≤ id
  told : full → (dones rid events ++ e'.outstanding rid).Perm (e.outstanding rid)
  quiet : e.seqToRequest f.leader ≠ some rid → ∀ event ∈ events, event.1 ≠ rid
  same : e.seqToRequest f.leader ≠ some rid → e'.scheduler.sequencesOf rid = e.scheduler.sequencesOf rid

omit [DecidableEq H] in
theorem Registered.unwait (reg : Registered e) (same : e'.scheduler = e.scheduler)
    (pending : e'.pendingForks = Function.update e.pendingForks id none) : Registered e' where
  queued := same ▸ reg.queued
  filed := same ▸ reg.filed
  fresh x later := by
    rw [pending, Function.update_apply]
    split
    · rfl
    · exact reg.fresh x (same ▸ later)

omit [DecidableEq H] in
/-- What is known of other requests when a sequence no longer waits. -/
theorem Steady.unwait (b : Booked rid e) (other : e.seqToRequest id ≠ some rid) (scheduler : e'.scheduler = e.scheduler)
    (owner : e'.seqToRequest = e.seqToRequest) (choice : e'.choiceOf = e.choiceOf)
    (pending : e'.pendingForks = Function.update e.pendingForks id none)
    (count : e'.openChoices rid = e.openChoices rid) : Steady rid e e' where
  sequences := by rw [scheduler]
  owner x := by rw [owner]
  choice x _ := by rw [choice]
  pending x mem := by
    rw [pending]
    apply Function.update_of_ne
    rintro rfl
    exact other ((b.own x).mpr mem)
  count := count

omit [DecidableEq H] in
theorem Branches.steady {n : Nat} (h : Branches f n e e') (reg : Registered e) (b : Booked rid e)
    (other : e.seqToRequest f.leader ≠ some rid) : Steady rid e e' := by
  obtain ⟨q, grows, source⟩ := h.grows
  have known : ∀ id ∈ e.scheduler.sequencesOf rid, id < e.scheduler.nextId := by
    intro id mem
    obtain ⟨seq, live, -⟩ := (reg.filed.mem rid id).mp mem
    exact reg.filed.fresh id seq live
  have sequences : e'.scheduler.sequencesOf rid = e.scheduler.sequencesOf rid := by
    rcases source with rfl | ⟨seq, live, rfl⟩
    · by_cases mine : rid = q
      · rw [mine, grows.own]
        exact List.append_nil _
      · exact grows.other rid mine
    · apply grows.other
      rintro rfl
      exact other ((b.own f.leader).mpr ((reg.filed.mem _ _).mpr ⟨seq, live, rfl⟩))
  refine ⟨sequences, fun id => ?_, fun id mem => h.choice id (known id mem),
    fun id _ => by rw [h.pending], by rw [h.count]⟩
  rcases h.owner id with same | ⟨later, same⟩
  · rw [same]
  · rw [same]
    constructor
    · intro mine
      exact absurd mine other
    · intro mine
      exact absurd (known id ((b.own id).mp mine)) (Nat.not_lt.mpr (List.mem_range'_1.mp later).1)

omit [DecidableEq H] in
theorem Branches.finished {n : Nat} (h : Branches f n e e') : e'.scheduler.finished = e.scheduler.finished := by
  obtain ⟨q, grows, -⟩ := h.grows
  exact grows.finished

/-- Only one choice of the sequence's request is left to be told. -/
def shut (e : GenerationEngine B) (id : SeqId) : GenerationEngine B :=
  (e.seqToRequest id).elim e fun rid => e.setOpen rid (some 1)

omit [DecidableEq H] in
theorem shut_fixed (e : GenerationEngine B) (id : SeqId) :
    (e.shut id).scheduler = e.scheduler ∧ (e.shut id).seqToRequest = e.seqToRequest ∧
    (e.shut id).choiceOf = e.choiceOf ∧ (e.shut id).pendingForks = e.pendingForks := by
  unfold shut
  cases e.seqToRequest id <;> exact ⟨rfl, rfl, rfl, rfl⟩

omit [DecidableEq H] in
theorem shut_count (e : GenerationEngine B) (id : SeqId) (rid : RequestId) :
    (e.shut id).openChoices rid = if e.seqToRequest id = some rid then some 1 else e.openChoices rid := by
  unfold shut
  cases e.seqToRequest id with
  | none => exact (if_neg (by simp)).symm
  | some r =>
    change Function.update e.openChoices r (some 1) rid = _
    rw [Function.update_apply]
    by_cases same : rid = r
    · simp [same]
    · rw [if_neg same, if_neg fun eq => same (Option.some.inj eq).symm]

/-- The ways a fork is done with: there was none to make, it was made, or what it was to make is closed. -/
theorem makeFork_cases (h : e.makeFork f = some (e', events)) :
    (f.extra = 0 ∧ e' = (e.shut f.leader).setPending f.leader none ∧ events = []) ∨
    ∃ u told made, f.extra ≠ 0 ∧ e.forkRequest f = some (u, told, made) ∧
      (made = true ∧ e' = u.setPending f.leader none ∧ events = told ∨
        made = false ∧ e' = (u.shut f.leader).setPending f.leader none ∧
          events = told ++ (u.seqToRequest f.leader).elim [] (closeSiblings · f.extra)) := by
  unfold makeFork at h
  split at h
  · rename_i none
    simp only [Option.some.injEq, Prod.mk.injEq] at h
    obtain ⟨rfl, rfl⟩ := h
    refine .inl ⟨none, ?_, rfl⟩
    unfold shut
    cases e.seqToRequest f.leader <;> rfl
  · rename_i some_
    obtain ⟨⟨u, told, made⟩, request, h⟩ := Option.bind_eq_some_iff.mp h
    refine .inr ⟨u, told, made, some_, request, ?_⟩
    cases made with
    | true =>
      simp only [if_true, Option.some.injEq, Prod.mk.injEq] at h
      exact .inl ⟨rfl, h.1.symm, h.2.symm⟩
    | false =>
      simp only [Bool.false_eq_true, if_false] at h
      refine .inr ⟨rfl, ?_⟩
      unfold shut
      cases served : u.seqToRequest f.leader with
      | none =>
        simp only [served, Option.some.injEq, Prod.mk.injEq] at h
        exact ⟨h.1.symm, h.2 ▸ (List.append_nil _).symm⟩
      | some r =>
        simp only [served, Option.some.injEq, Prod.mk.injEq] at h
        exact ⟨h.1.symm, h.2.symm⟩

omit [DecidableEq H] in
theorem Branches.leader {n : Nat} (h : Branches f n e e') : e'.seqToRequest f.leader = e.seqToRequest f.leader := by
  rcases h.owner f.leader with same | ⟨-, same⟩ <;> exact same

omit [DecidableEq H] in
/-- Nothing is to be told of a request by the fork of another one. -/
theorem Steady.closing {v : GenerationEngine B} (reg : Registered u) (b : Booked rid u)
    (other : u.seqToRequest id ≠ some rid) (v_ : v = u ∨ v = u.shut id) :
    Steady rid u (v.setPending id none) ∧ Registered (v.setPending id none) ∧
      (v.setPending id none).pendingForks = Function.update u.pendingForks id none ∧
      (v.setPending id none).scheduler = u.scheduler := by
  have fixed : v.scheduler = u.scheduler ∧ v.seqToRequest = u.seqToRequest ∧ v.choiceOf = u.choiceOf ∧
      v.pendingForks = u.pendingForks := by
    rcases v_ with rfl | rfl
    · exact ⟨rfl, rfl, rfl, rfl⟩
    · exact shut_fixed u id
  have count : v.openChoices rid = u.openChoices rid := by
    rcases v_ with rfl | rfl
    · rfl
    · rw [shut_count, if_neg other]
  have pending : (v.setPending id none).pendingForks = Function.update u.pendingForks id none := by
    change Function.update v.pendingForks id none = _
    rw [fixed.2.2.2]
  exact ⟨.unwait b other fixed.1 fixed.2.1 fixed.2.2.1 pending count, reg.unwait fixed.1 pending, pending, fixed.1⟩

/-- A fork of another request. -/
theorem makeFork_other (reg : Registered e) (b : Booked rid e) (other : e.seqToRequest f.leader ≠ some rid)
    (full : Prop) (h : e.makeFork f = some (e', events)) : Forking rid f full e e' events := by
  have conclude : ∀ {u : GenerationEngine B}, Registered u → Steady rid e u →
      u.pendingForks = Function.update e.pendingForks f.leader none → u.scheduler.finished = e.scheduler.finished →
      (∀ event ∈ events, event.1 ≠ rid) → Forking rid f full e u events := by
    intro u registered steady pending finished others
    refine ⟨registered, steady.booked b, pending, finished, by rw [steady.sequences],
      fun id mem => .inl (steady.sequences ▸ mem), fun _ => ?_, fun _ => others, fun _ => steady.sequences⟩
    rw [dones_eq_nil fun event mem => .inl (others event mem), steady.outstanding]
    exact .refl _
  rcases makeFork_cases h with ⟨-, rfl, rfl⟩ | ⟨u, told, made, -, request, ends⟩
  · obtain ⟨steady, registered, pending, scheduler⟩ := Steady.closing reg b other (.inr rfl)
    exact conclude registered steady pending (by rw [scheduler]) fun _ mem => absurd mem List.not_mem_nil
  · obtain ⟨n, branches, quiet, -⟩ := forkRequest_branches rid reg request
    have first := branches.steady reg b other
    have other' : u.seqToRequest f.leader ≠ some rid := branches.leader ▸ other
    have told_ : ∀ event ∈ told, event.1 ≠ rid := by
      rintro event mem rfl
      exact other (quiet event mem).1
    rcases ends with ⟨-, rfl, rfl⟩ | ⟨-, rfl, rfl⟩
    · obtain ⟨steady, registered, pending, scheduler⟩ :=
        Steady.closing branches.registered (first.booked b) other' (.inl rfl)
      exact conclude registered (first.trans steady) (by rw [pending, branches.pending])
        (by rw [scheduler, branches.finished]) told_
    · obtain ⟨steady, registered, pending, scheduler⟩ :=
        Steady.closing branches.registered (first.booked b) other' (.inr rfl)
      refine conclude registered (first.trans steady) (by rw [pending, branches.pending])
        (by rw [scheduler, branches.finished]) fun event mem => ?_
      rcases List.mem_append.mp mem with mem | mem
      · exact told_ event mem
      · cases served : u.seqToRequest f.leader with
        | none =>
          rw [served] at mem
          cases mem
        | some r =>
          rw [served] at mem
          obtain ⟨choice, -, rfl⟩ := List.mem_map.mp mem
          rintro rfl
          exact other' served

omit [DecidableEq H] in
theorem Branches.sequences {n : Nat} (h : Branches f n e e') (reg : Registered e)
    (mem : f.leader ∈ e.scheduler.sequencesOf rid) :
    e'.scheduler.sequencesOf rid = e.scheduler.sequencesOf rid ++ List.range' e.scheduler.nextId n := by
  obtain ⟨q, grows, source⟩ := h.grows
  obtain ⟨seq, live, mine⟩ := (reg.filed.mem rid f.leader).mp mem
  by_cases same : rid = q
  · rw [same]
    exact grows.own
  · rw [grows.other rid same]
    rcases source with rfl | ⟨seq', live', its⟩
    · exact (List.append_nil _).symm
    · obtain rfl := Option.some.inj (live.symm.trans live')
      exact absurd (mine.symm.trans its) same

/-- A fork of the request itself, by a sequence that waited for it. -/
theorem makeFork_own (reg : Registered e) (b : Booked rid e) (own : e.seqToRequest f.leader = some rid) {extra : Nat}
    (waits : e.pendingForks f.leader = some extra) (asked : f.extra = 0 ∨ f.extra = extra) (whole : Whole e f)
    (h : e.makeFork f = some (e', events)) : Forking rid f (f.extra = extra) e e' events := by
  have mem := (b.own f.leader).mp own
  have alone := b.alone f.leader extra mem waits
  have was : e.outstanding rid = (e.choiceOf f.leader).getD 0 :: List.range' 1 extra := by
    unfold outstanding owed
    rw [alone, List.flatMap_cons, List.flatMap_nil, List.append_nil, waits]
    rfl
  -- an engine with one sequence that waits for none, and one choice to tell
  have single : ∀ {v : GenerationEngine B}, v.scheduler.sequencesOf rid = [f.leader] →
      (∀ id, v.seqToRequest id = some rid ↔ id = f.leader) → v.choiceOf f.leader = e.choiceOf f.leader →
      v.pendingForks f.leader = none → v.openChoices rid = some 1 →
      Booked rid v ∧ v.outstanding rid = [(e.choiceOf f.leader).getD 0] := by
    intro v sequences owner choice pending count
    have left : v.outstanding rid = [(e.choiceOf f.leader).getD 0] := by
      unfold outstanding owed
      rw [sequences, List.flatMap_cons, List.flatMap_nil, List.append_nil, choice, pending]
      rfl
    refine ⟨⟨fun id => ?_, fun id more there waiting => ?_, fun _ => ?_⟩, left⟩
    · rw [owner, sequences, List.mem_singleton]
    · rw [sequences, List.mem_singleton] at there
      rw [there, pending] at waiting
      cases waiting
    · rw [left, count]
      rfl
  have owner : ∀ id, e.seqToRequest id = some rid ↔ id = f.leader := by
    intro id
    rw [b.own, alone, List.mem_singleton]
  have cleared : ∀ v : GenerationEngine B, (v.setPending f.leader none).pendingForks f.leader = none :=
    fun v => Function.update_self ..
  rcases makeFork_cases h with ⟨none, rfl, rfl⟩ | ⟨u, told, made, some_, request, ends⟩
  · obtain ⟨scheduler, owners, choices, pendings⟩ := shut_fixed e f.leader
    have pending : ((e.shut f.leader).setPending f.leader Option.none).pendingForks =
        Function.update e.pendingForks f.leader Option.none := by
      change Function.update (e.shut f.leader).pendingForks f.leader Option.none = _
      rw [pendings]
    obtain ⟨booked, left⟩ := single (v := (e.shut f.leader).setPending f.leader Option.none)
      ((congrArg (·.sequencesOf rid) scheduler).trans alone) (fun id => (congrArg (· id = some rid) owners) ▸ owner id)
      (congrFun choices f.leader) (cleared _) ((shut_count e f.leader rid).trans (if_pos own))
    refine ⟨reg.unwait scheduler pending, booked, pending, congrArg Scheduler.finished scheduler, ?_,
      fun id there => ?_, fun full => ?_,
      fun other => absurd own other, fun other => absurd own other⟩
    · exact iff_of_eq (congrArg (fun s : Scheduler B => s.sequencesOf rid = []) scheduler)
    · exact .inl ((congrArg (fun s : Scheduler B => id ∈ s.sequencesOf rid) scheduler) ▸ there)
    · rw [left, was, ← full, none]
      exact .refl _
  · obtain ⟨n, branches, quiet, outcome⟩ := forkRequest_branches rid reg request
    have sequences := branches.sequences reg mem
    rw [alone] at sequences
    have none : dones rid told = [] := dones_eq_nil fun event there => .inr (quiet event there).2
    have old : f.leader < e.scheduler.nextId := by
      obtain ⟨seq, live, -⟩ := (reg.filed.mem rid f.leader).mp mem
      exact reg.filed.fresh f.leader seq live
    have kept := branches.choice f.leader old
    rcases outcome whole own with ⟨unmade, rfl, -⟩ | ⟨made_, rfl, owned, choices⟩
    · -- no child was made: the leader is alone, and the others are closed
      obtain ⟨-, rfl, rfl⟩ := ends.resolve_left fun made => Bool.noConfusion (made.1.symm.trans unmade)
      obtain ⟨scheduler, owners, choices, pendings⟩ := shut_fixed u f.leader
      have owner' : ∀ id, (u.shut f.leader).seqToRequest id = some rid ↔ id = f.leader := by
        intro id
        rw [owners]
        rcases branches.owner id with same | ⟨absent, -⟩
        · rw [same, owner]
        · exact absurd absent List.not_mem_nil
      have pending : ((u.shut f.leader).setPending f.leader Option.none).pendingForks =
          Function.update e.pendingForks f.leader Option.none := by
        change Function.update (u.shut f.leader).pendingForks f.leader Option.none = _
        rw [pendings, branches.pending]
      have own' : u.seqToRequest f.leader = some rid := branches.leader.trans own
      have sequences' : (u.shut f.leader).scheduler.sequencesOf rid = [f.leader] := by
        rw [scheduler]
        exact sequences
      obtain ⟨booked, left⟩ := single (v := (u.shut f.leader).setPending f.leader Option.none) sequences' owner'
        ((congrFun choices f.leader).trans kept) (cleared _) ((shut_count u f.leader rid).trans (if_pos own'))
      refine ⟨branches.registered.unwait scheduler (by rw [pending, branches.pending]), booked, pending,
        (congrArg Scheduler.finished scheduler).trans branches.finished, ?_, fun id there => .inl ?_, fun full => ?_,
        fun other => absurd own other, fun other => absurd own other⟩
      · change (u.shut f.leader).scheduler.sequencesOf rid = [] ↔ _
        rw [sequences', alone]
      · change id ∈ (u.shut f.leader).scheduler.sequencesOf rid at there
        rwa [sequences', ← alone] at there
      · rw [left, was, own', Option.elim_some, dones_append, none, dones_closeSiblings, List.nil_append, full]
        exact List.perm_append_singleton _ _
    · -- the children are the choices that the leader waited for
      obtain ⟨-, rfl, rfl⟩ := ends.resolve_right fun unmade => Bool.noConfusion (made_.symm.trans unmade.1)
      have all : f.extra = extra := asked.resolve_left some_
      have pending : (u.setPending f.leader Option.none).pendingForks =
        Function.update e.pendingForks f.leader Option.none := by
        change Function.update u.pendingForks f.leader Option.none = _
        rw [branches.pending]
      have idle : ∀ id ∈ u.scheduler.sequencesOf rid,
        (u.setPending f.leader Option.none).pendingForks id = Option.none := by
        intro id there
        rw [pending, Function.update_apply]
        split
        · rfl
        · rename_i other
          rw [sequences, List.cons_append, List.nil_append, List.mem_cons] at there
          exact reg.fresh id (List.mem_range'_1.mp (there.resolve_left other)).1
      have left : (u.setPending f.leader Option.none).outstanding rid = e.outstanding rid := by
        have each : (u.setPending f.leader Option.none).outstanding rid =
            (u.scheduler.sequencesOf rid).map fun id => (u.choiceOf id).getD 0 := by
          unfold outstanding
          rw [List.map_eq_flatMap]
          apply List.flatMap_congr
          intro id there
          unfold owed
          rw [idle id there]
          rfl
        rw [each, sequences, List.map_append, choices, List.map_singleton, kept, was, all]
        rfl
      refine ⟨branches.registered.unwait rfl (by rw [pending, branches.pending]),
        ⟨fun id => ?_, fun id more there waiting => ?_, fun _ => ?_⟩, pending, branches.finished, ?_,
          fun id there => ?_, fun _ => ?_,
        fun other => absurd own other, fun other => absurd own other⟩
      · change u.seqToRequest id = some rid ↔ id ∈ u.scheduler.sequencesOf rid
        rw [sequences, List.cons_append, List.nil_append, List.mem_cons]
        constructor
        · intro mine
          rcases branches.owner id with same | ⟨there, -⟩
          · exact .inl ((owner id).mp (same ▸ mine))
          · exact .inr there
        · rintro (rfl | there)
          · exact branches.leader.trans own
          · exact owned id there
      · rw [idle id there] at waiting
        cases waiting
      · change u.openChoices rid = _
        rw [left, branches.count]
        exact b.due (by rw [alone]; exact List.cons_ne_nil _ _)
      · change u.scheduler.sequencesOf rid = [] ↔ _
        rw [sequences, alone]
        simp
      · change id ∈ u.scheduler.sequencesOf rid at there
        rw [sequences, List.mem_append] at there
        rw [alone]
        exact there.imp_right fun later => (List.mem_range'_1.mp later).1
      · rw [none, left]
        exact .refl _

theorem makeFork_forking (reg : Registered e) (b : Booked rid e) {extra : Nat}
    (waits : e.pendingForks f.leader = some extra)
    (asked : f.extra = 0 ∨ f.extra = extra) (whole : e.seqToRequest f.leader = some rid → Whole e f)
    (h : e.makeFork f = some (e', events)) :
    Forking rid f (e.seqToRequest f.leader = some rid → f.extra = extra) e e' events := by
  by_cases own : e.seqToRequest f.leader = some rid
  · have spec := makeFork_own reg b own waits asked (whole own) h
    exact ⟨spec.registered, spec.booked, spec.pending, spec.finished, spec.lives, spec.old,
      fun full => spec.told (full own), spec.quiet, spec.same⟩
  · exact makeFork_other reg b own _ h

omit [DecidableEq H] in
/-- A sequence that waited before another one's fork was the request's then if it is now. -/
theorem Forking.owned {full : Prop} (spec : Forking rid f full e e' events) (reg : Registered e) (b : Booked rid e)
    {extra : Nat} (waits : e.pendingForks id = some extra) (own : e'.seqToRequest id = some rid) :
    e.seqToRequest id = some rid := by
  rw [b.own]
  refine (spec.old id ((spec.booked.own id).mp own)).resolve_right fun later => ?_
  rw [reg.fresh id later] at waits
  cases waits

/-- The forks of a step, each with the engine it is made in. -/
def forkPoints : List ForkToMake → GenerationEngine B → List (GenerationEngine B × ForkToMake)
  | [], _ => []
  | f :: forks, e => (e, f) :: (e.makeFork f).elim [] fun made => forkPoints forks made.1

/-- What the forks of a step come to for a request. -/
structure Forkings (rid : RequestId) (forks : List ForkToMake) (e e' : GenerationEngine B)
    (events : List (RequestId × Delta)) : Prop where
  registered : Registered e'
  booked : Booked rid e'
  finished : e'.scheduler.finished = e.scheduler.finished
  lives : e'.scheduler.sequencesOf rid = [] ↔ e.scheduler.sequencesOf rid = []
  settled : (∀ id ∈ e.scheduler.sequencesOf rid, id ∈ e.scheduler.finished →
    e.pendingForks id = none ∨ ∃ f ∈ forks, f.leader = id) → Settled rid e'
  told : (∀ f ∈ forks, e.seqToRequest f.leader = some rid → e.pendingForks f.leader = some f.extra) →
    (dones rid events ++ e'.outstanding rid).Perm (e.outstanding rid)
  quiet : e.scheduler.sequencesOf rid = [] → ∀ event ∈ events, event.1 ≠ rid

theorem forkLoop_forkings {forks : List ForkToMake} (reg : Registered e) (b : Booked rid e)
    (nodup : (forks.map ForkToMake.leader).Nodup)
    (asked : ∀ f ∈ forks, ∃ extra, e.pendingForks f.leader = some extra ∧ (f.extra = 0 ∨ f.extra = extra))
    (whole : ∀ p ∈ forkPoints forks e, p.1.seqToRequest p.2.leader = some rid → Whole p.1 p.2)
    (h : forkLoop forks e = some (e', events)) : Forkings rid forks e e' events := by
  induction forks generalizing e events with
  | nil =>
    simp only [forkLoop, Option.some.injEq, Prod.mk.injEq] at h
    obtain ⟨rfl, rfl⟩ := h
    refine ⟨reg, b, rfl, .rfl, fun waits id mem done => ?_, fun _ => .refl _,
      fun _ _ mem => absurd mem List.not_mem_nil⟩
    exact (waits id mem done).resolve_right fun ⟨f, absent, _⟩ => absurd absent List.not_mem_nil
  | cons f forks ih =>
    rw [forkLoop] at h
    obtain ⟨⟨u, first⟩, made, h⟩ := Option.bind_eq_some_iff.mp h
    obtain ⟨⟨v, more⟩, rest, h⟩ := Option.bind_eq_some_iff.mp h
    simp only [Option.some.injEq, Prod.mk.injEq] at h
    obtain ⟨rfl, rfl⟩ := h
    rw [List.map_cons] at nodup
    obtain ⟨out, nodup⟩ := List.nodup_cons.mp nodup
    obtain ⟨extra, waits, some_⟩ := asked f List.mem_cons_self
    have one := makeFork_forking reg b waits some_ (whole _ List.mem_cons_self) made
    have still : ∀ g ∈ forks, u.pendingForks g.leader = e.pendingForks g.leader := by
      intro g mem
      rw [one.pending]
      apply Function.update_of_ne
      intro same
      exact out (same ▸ List.mem_map_of_mem mem)
    have others := ih one.registered one.booked nodup (fun g mem => still g mem ▸ asked g (List.mem_cons_of_mem f mem))
      (fun p mem => whole p (List.mem_cons_of_mem _ (by rw [made]; exact mem))) rest
    refine ⟨others.registered, others.booked, others.finished.trans one.finished, others.lives.trans one.lives,
      fun waiting => others.settled fun id mem done => ?_, fun full => ?_, fun none event mem => ?_⟩
    · rw [one.finished] at done
      by_cases here : id = f.leader
      · rw [one.pending, here]
        exact .inl (Function.update_self ..)
      · rw [one.pending, Function.update_of_ne here]
        rcases one.old id mem with before | later
        · rcases waiting id before done with none | ⟨g, there, same⟩
          · exact .inl none
          · refine .inr ⟨g, (List.mem_cons.mp there).resolve_left ?_, same⟩
            rintro rfl
            exact here same.symm
        · exact .inl (reg.fresh id later)
    · have now := one.told fun own => Option.some.inj (waits.symm.trans (full f List.mem_cons_self own)) ▸ rfl
      have then_ := others.told fun g mem own => by
        obtain ⟨more, waits, -⟩ := asked g (List.mem_cons_of_mem f mem)
        rw [still g mem]
        exact full g (List.mem_cons_of_mem f mem) (one.owned reg b waits own)
      rw [dones_append, List.append_assoc]
      exact (then_.append_left _).trans now
    · rcases List.mem_append.mp mem with mem | mem
      · refine one.quiet (fun own => ?_) event mem
        have there := (b.own f.leader).mp own
        rw [none] at there
        cases there
      · exact others.quiet (one.lives.mpr none) event mem

end Forks

end GenerationEngine

end Vapi.Worker
