import Vapi.Engine.Tokens
import Vapi.Worker.Alone
import Vapi.Worker.Completes

/-!
# What the engine says for a choice

A sequence of the engine goes through what its choice would go through alone: a
commit takes one token for each sequence that was sampled, and a fork gives
each sibling its first.
-/

namespace Vapi.Worker

open Cache Engine Proto

/-- The text of one choice in a delta. -/
def textIn (k : Nat) : Delta → Text
  | .token choice text _ _ _ => if choice = k then text else []
  | _ => []

/-- The text that is streamed for one choice of a request. -/
def choiceText (rid : RequestId) (k : Nat) (events : List (RequestId × Delta)) : Text :=
  events.flatMap fun event => if event.1 = rid then textIn k event.2 else []

section Spoken

variable {rid : RequestId} {k : Nat} {events : List (RequestId × Delta)}

theorem choiceText_append (rid : RequestId) (k : Nat) (es fs : List (RequestId × Delta)) :
    choiceText rid k (es ++ fs) = choiceText rid k es ++ choiceText rid k fs := List.flatMap_append

theorem choiceText_eq_nil (h : ∀ event ∈ events, event.1 = rid → textIn k event.2 = []) : choiceText rid k events = [] := by
  apply List.flatMap_eq_nil_iff.mpr
  intro event mem
  split
  · rename_i mine
    exact h event mem mine
  · rfl

theorem choiceText_other (h : ∀ event ∈ events, event.1 ≠ rid) : choiceText rid k events = [] :=
  choiceText_eq_nil fun event mem mine => absurd mine (h event mem)

/-- The tokens of one choice. -/
theorem choiceText_tokens (rid : RequestId) (k : Nat) (out : Option Text) (choice : Nat) (t : Token) (p : Option ℚ)
    (top : Option (List TokenLogprob)) :
    choiceText rid k (out.toList.map fun text => (rid, .token choice text t p top)) =
      if choice = k then out.getD [] else [] := by
  cases out with
  | none => exact (ite_self _).symm
  | some text =>
    change (if rid = rid then _ else _) ++ [] = _
    rw [if_pos rfl, List.append_nil]
    rfl

end Spoken

namespace ChoiceJob

/-- A sequence that has come to an answer, unless it was cancelled. -/
structure Runs (J : ChoiceJob) (a : Answer) (seq : Sequence) : Prop where
  tokens : seq.tokens = J.prompt ++ a.generated
  promptLen : seq.promptLen = J.prompt.length
  params : seq.params = J.params
  finished : ∀ reason, seq.status = .finished reason → reason = a.finish.getD .cancelled
  ended : ∀ reason, a.finish = some reason → seq.status = .finished reason

/-- A sibling before its first token. -/
structure Unsaid (J : ChoiceJob) (seq : Sequence) : Prop where
  tokens : seq.tokens = J.prompt
  promptLen : seq.promptLen = J.prompt.length
  params : seq.params = J.params
  status : seq.status = .decoding

namespace Runs

variable {J : ChoiceJob} {a : Answer} {seq old : Sequence} {t : Token}

theorem alike (runs : J.Runs a seq) (alike : seq.Alike old) : J.Runs a old where
  tokens := alike.tokens.trans runs.tokens
  promptLen := alike.promptLen.trans runs.promptLen
  params := alike.params.trans runs.params
  finished reason done := runs.finished reason ((alike.finished reason).mp done)
  ended reason done := (alike.finished reason).mpr (runs.ended reason done)

theorem cancel (runs : J.Runs a seq) : J.Runs a (seq.ended .cancelled) := by
  unfold Sequence.ended
  by_cases done : seq.status.isFinished
  · rw [if_pos done]
    exact runs
  · rw [if_neg done]
    have goes : a.finish = none := by
      cases finish : a.finish with
      | none => rfl
      | some reason =>
        rw [runs.ended reason finish] at done
        exact absurd rfl done
    refine ⟨runs.tokens, runs.promptLen, runs.params, fun reason same => ?_, fun reason finish => ?_⟩
    · rw [goes]
      exact (SeqStatus.finished.inj same).symm
    · rw [goes] at finish
      cases finish

theorem generated (runs : J.Runs a seq) : seq.numGenerated = a.generated.length := by
  unfold Sequence.numGenerated
  rw [runs.tokens, runs.promptLen, List.length_append, Nat.add_sub_cancel_left]

/-- The sequence's own check is the job's. -/
theorem check (runs : J.Runs a seq)
    (alike : seq.tokens = old.tokens ∧ seq.promptLen = old.promptLen ∧ seq.params = old.params) :
    (old.pushToken t).checkFinished J.eos J.maxContext = J.check (a.generated ++ [t]) := by
  obtain ⟨tokens, promptLen, params⟩ := alike
  have pushed : (old.pushToken t).tokens = J.prompt ++ (a.generated ++ [t]) := by
    rw [Sequence.pushToken_tokens, ← tokens, runs.tokens, List.append_assoc]
  have count : (old.pushToken t).numGenerated = (a.generated ++ [t]).length := by
    unfold Sequence.numGenerated
    rw [pushed, Sequence.pushToken_promptLen, ← promptLen, runs.promptLen, List.length_append, Nat.add_sub_cancel_left]
  have some_ : 0 < (a.generated ++ [t]).length := by simp
  have last : (old.pushToken t).tokens.getLast? = some t := List.getLast?_concat
  have total : (old.pushToken t).tokens.length = J.prompt.length + (a.generated ++ [t]).length := by
    rw [pushed, List.length_append]
  unfold Sequence.checkFinished ChoiceJob.check Sequence.totalLen
  rw [count, last, total, List.getLast?_concat, Sequence.pushToken_params, ← params, runs.params]
  simp only [some_, true_and, and_true]
  by_cases eos : t ∈ J.eos
  · rw [if_pos eos, if_pos (.inl eos)]
  · rw [if_neg eos]
    by_cases stop : t ∈ J.params.stop.stopTokenIds
    · rw [if_pos stop, if_pos (.inr stop)]
    · rw [if_neg stop, if_neg (not_or.mpr ⟨eos, stop⟩)]

/-- A sibling that has its first token. -/
theorem seeded (new : J.Unsaid seq) (h : J.seeded t = some a) : J.Runs a (seq.pushToken t) := by
  obtain ⟨⟨text, detok⟩, -, h⟩ := Option.bind_eq_some_iff.mp h
  simp only [Option.some.injEq] at h
  subst h
  refine ⟨?_, new.promptLen, new.params, fun reason done => ?_, fun reason none => by cases none⟩
  · rw [Sequence.pushToken_tokens, new.tokens]
  · rw [Sequence.pushToken_status, new.status] at done
    cases done

/-- A commit of the next token, after a stop string has ended the sequence or not. -/
theorem sampled {stopped : Bool} (runs : J.Runs a seq) (live : ¬seq.status.isFinished)
    (alike : (if stopped then seq.ended .stop else seq).Alike old) (stream : Stream) (text : Text) :
    J.Runs ⟨a.generated ++ [t], stream, text, if stopped then some .stop else J.check (a.generated ++ [t])⟩
      (old.sampled J.eos J.maxContext t) := by
  have same : seq.tokens = old.tokens ∧ seq.promptLen = old.promptLen ∧ seq.params = old.params := by
    rw [alike.tokens, alike.promptLen, alike.params]
    unfold Sequence.ended
    cases stopped with
    | false => exact ⟨rfl, rfl, rfl⟩
    | true =>
      rw [if_pos rfl, if_neg live]
      exact ⟨rfl, rfl, rfl⟩
  have fixed : ∀ status blocks,
      J.Runs ⟨a.generated ++ [t], stream, text, if stopped then some .stop else J.check (a.generated ++ [t])⟩
        (((old.pushToken t).withStatus status).withBlocks blocks) ↔
      (∀ reason, status = .finished reason →
          reason = (if stopped then some .stop else J.check (a.generated ++ [t])).getD .cancelled) ∧
        ∀ reason, (if stopped then some .stop else J.check (a.generated ++ [t])) = some reason →
          status = .finished reason := by
    intro status blocks
    refine ⟨fun h => ⟨h.finished, h.ended⟩, fun h => ⟨?_, ?_, ?_, h.1, h.2⟩⟩
    · change old.tokens ++ [t] = _
      rw [← same.1, runs.tokens, List.append_assoc]
    · exact same.2.1.symm.trans runs.promptLen
    · exact same.2.2.symm.trans runs.params
  have plain : old.pushToken t = ((old.pushToken t).withStatus old.status).withBlocks old.blocks := rfl
  unfold Sequence.sampled
  rw [runs.check same]
  cases stopped with
  | true =>
    have done : old.status = .finished .stop := by
      rw [alike.finished]
      unfold Sequence.ended
      rw [if_pos rfl, if_neg live]
      rfl
    have kept : J.Runs ⟨a.generated ++ [t], stream, text, some .stop⟩ (old.pushToken t) := by
      rw [plain]
      refine (fixed old.status old.blocks).mpr ⟨fun reason same => ?_, fun reason same => ?_⟩
      · rw [done] at same
        exact (SeqStatus.finished.inj same).symm
      · rw [done, Option.some.inj same]
    cases J.check (a.generated ++ [t]) with
    | none => exact kept
    | some reason =>
      simp only [done, SeqStatus.isFinished, if_true]
      exact kept
  | false =>
    have going : ¬old.status.isFinished := by
      intro done
      obtain ⟨reason, done⟩ : ∃ reason, old.status = .finished reason := by
        cases status : old.status with
        | finished reason => exact ⟨reason, rfl⟩
        | _ => rw [status] at done; cases done
      have was : seq.status = .finished reason := (alike.finished reason).mp done
      rw [was] at live
      exact live rfl
    cases found : J.check (a.generated ++ [t]) with
    | none =>
      simp only [Bool.false_eq_true, if_false, found] at fixed ⊢
      rw [plain]
      refine (fixed old.status old.blocks).mpr ⟨fun reason same => ?_, fun reason none => by cases none⟩
      rw [same] at going
      exact absurd rfl going
    | some reason =>
      simp only [Bool.false_eq_true, if_false, found] at fixed ⊢
      rw [if_neg going]
      refine (fixed (.finished reason) []).mpr ⟨fun r same => ?_, fun r same => ?_⟩
      · exact (SeqStatus.finished.inj same).symm
      · rw [Option.some.inj same]

end Runs

end ChoiceJob

namespace GenerationEngine

variable {H : Type} {B : Blake3 H} {J : ChoiceJob} {e e' u : GenerationEngine B} {rid : RequestId} {id : SeqId}
  {k : Nat} {rows : List (SeqId × Draw)} {events : List (RequestId × Delta)} {stopped : List SeqId} {st : Stream} {x : Draw}

section Rows

/-- A stream without a constraint is left as it is until its token is streamed. -/
theorem sampleLoop_free (h : sampleLoop rows e = some e') (stream : e.streams id = some st)
    (free : st.constraint = none) :
    e'.streams id = some st := by
  induction rows generalizing e with
  | nil =>
    obtain rfl := Option.some.inj h
    exact stream
  | cons row rows ih =>
    obtain ⟨y, x⟩ := row
    obtain ⟨u, one, rest⟩ := Option.bind_eq_some_iff.mp h
    refine ih rest ?_
    obtain ⟨st₀, there, one⟩ := Option.bind_eq_some_iff.mp one
    split at one
    · obtain rfl := Option.some.inj one
      exact stream
    · obtain rfl := Option.some.inj one
      by_cases here : y = id
      · subst here
        obtain rfl := Option.some.inj (there.symm.trans stream)
        obtain ⟨detok, text, last, constraint⟩ := st₀
        obtain rfl : constraint = none := free
        exact Function.update_self ..
      · exact (Function.update_of_ne (Ne.symm here) ..).trans stream

/-- What is streamed for a row is its own choice's. -/
theorem emitRow_tells (h : e.emitRow id x = some (u, events, stopped)) :
    (∀ y, y ≠ id → u.streams y = e.streams y) ∧
      ∀ event ∈ events, e.seqToRequest id = some event.1 ∧
        ∀ k, (e.choiceOf id).getD 0 ≠ k → textIn k event.2 = [] := by
  have none : (∀ y, y ≠ id → e.streams y = e.streams y) ∧ ∀ event ∈ ([] : List (RequestId × Delta)),
      e.seqToRequest id = some event.1 ∧ ∀ k, (e.choiceOf id).getD 0 ≠ k → textIn k event.2 = [] :=
    ⟨fun _ _ => rfl, fun _ mem => absurd mem List.not_mem_nil⟩
  unfold emitRow at h
  split at h
  · simp only [Option.some.injEq, Prod.mk.injEq] at h
    obtain ⟨rfl, rfl, rfl⟩ := h
    exact none
  · split at h
    · rename_i r st served stream
      obtain ⟨⟨text, detok⟩, -, h⟩ := Option.bind_eq_some_iff.mp h
      simp only [Option.some.injEq, Prod.mk.injEq] at h
      obtain ⟨rfl, rfl, rfl⟩ := h
      refine ⟨fun y other => Function.update_of_ne other .., fun event mem => ?_⟩
      obtain ⟨text, -, rfl⟩ := List.mem_map.mp mem
      exact ⟨served, fun k other => if_neg other⟩
    · simp only [Option.some.injEq, Prod.mk.injEq] at h
      obtain ⟨rfl, rfl, rfl⟩ := h
      exact none

/-- A row of a sequence of the job is streamed as the job streams its token. -/
theorem emitRow_said (decode : e.decode = J.decode) (eos : e.scheduler.eosTokenIds = J.eos)
    (own : e.seqToRequest id = some rid)
    (stream : e.streams id = some st) (params : e.paramsOf id = J.params)
    (h : e.emitRow id x = some (u, events, stopped)) :
    ∃ st' out stop, J.say st x.token = some (st', out, stop) ∧ u.streams id = some st' ∧
      stopped = (if stop then [id] else []) ∧ choiceText rid ((e.choiceOf id).getD 0) events = out := by
  unfold emitRow at h
  rw [eos, decode, own, stream, params] at h
  unfold ChoiceJob.say
  by_cases ends : x.token ∈ J.eos
  · simp only [if_pos ends, Option.some.injEq, Prod.mk.injEq] at h ⊢
    obtain ⟨rfl, rfl, rfl⟩ := h
    exact ⟨st, [], false, ⟨rfl, rfl, rfl⟩, stream, rfl, rfl⟩
  · simp only [if_neg ends] at h ⊢
    obtain ⟨⟨text, detok⟩, pushed, h⟩ := Option.bind_eq_some_iff.mp h
    simp only [Option.some.injEq, Prod.mk.injEq] at h
    obtain ⟨rfl, rfl, rfl⟩ := h
    rw [pushed]
    refine ⟨_, _, _, rfl, Function.update_self .., rfl, ?_⟩
    exact (choiceText_tokens rid _ _ _ x.token _ _).trans (if_pos rfl)

theorem emitLoop_tells (h : emitLoop rows e = some (e', events, stopped)) :
    ∀ event ∈ events, ∃ y ∈ rows.map Prod.fst, e.seqToRequest y = some event.1 ∧
      ∀ k, (e.choiceOf y).getD 0 ≠ k → textIn k event.2 = [] := by
  induction rows generalizing e events stopped with
  | nil =>
    simp only [emitLoop, Option.some.injEq, Prod.mk.injEq] at h
    obtain ⟨-, rfl, -⟩ := h
    exact fun _ mem => absurd mem List.not_mem_nil
  | cons row rows ih =>
    obtain ⟨y, x⟩ := row
    rw [emitLoop] at h
    obtain ⟨⟨u, first, here⟩, one, h⟩ := Option.bind_eq_some_iff.mp h
    obtain ⟨⟨v, more, others⟩, rest, h⟩ := Option.bind_eq_some_iff.mp h
    simp only [Option.some.injEq, Prod.mk.injEq] at h
    obtain ⟨rfl, rfl, rfl⟩ := h
    obtain ⟨streams, rfl⟩ := (emitRow_emits one).streams
    intro event mem
    rcases List.mem_append.mp mem with mem | mem
    · exact ⟨y, List.mem_cons_self, (emitRow_tells one).2 event mem⟩
    · obtain ⟨z, there, own⟩ := ih rest event mem
      exact ⟨z, List.mem_cons_of_mem y there, own⟩

theorem emitLoop_quiet (h : emitLoop rows e = some (e', events, stopped))
    (none : ∀ y ∈ rows.map Prod.fst, e.seqToRequest y = some rid → (e.choiceOf y).getD 0 ≠ k) :
    choiceText rid k events = [] := by
  apply choiceText_eq_nil
  rintro event mem rfl
  obtain ⟨y, row, own, other⟩ := emitLoop_tells h event mem
  exact other k (none y row own)

/-- Streaming the rows takes a sequence of the job as far as its own row does. -/
theorem emitLoop_said (decode : e.decode = J.decode) (eos : e.scheduler.eosTokenIds = J.eos)
    (nodup : (rows.map Prod.fst).Nodup) (own : e.seqToRequest id = some rid) (stream : e.streams id = some st)
    (params : e.paramsOf id = J.params)
    (apart : ∀ y, y ≠ id → e.seqToRequest y = some rid → (e.choiceOf y).getD 0 ≠ (e.choiceOf id).getD 0)
    (h : emitLoop rows e = some (e', events, stopped)) :
    match rows.lookup id with
    | none => e'.streams id = some st ∧ id ∉ stopped ∧ choiceText rid ((e.choiceOf id).getD 0) events = []
    | some x => ∃ st' out stop, J.say st x.token = some (st', out, stop) ∧ e'.streams id = some st' ∧
        (id ∈ stopped ↔ stop = true) ∧ choiceText rid ((e.choiceOf id).getD 0) events = out := by
  induction rows generalizing e st events stopped with
  | nil =>
    simp only [emitLoop, Option.some.injEq, Prod.mk.injEq] at h
    obtain ⟨rfl, rfl, rfl⟩ := h
    exact ⟨stream, List.not_mem_nil, rfl⟩
  | cons row rows ih =>
    obtain ⟨y, x⟩ := row
    rw [emitLoop] at h
    obtain ⟨⟨u, first, here⟩, one, h⟩ := Option.bind_eq_some_iff.mp h
    obtain ⟨⟨v, more, others⟩, rest, h⟩ := Option.bind_eq_some_iff.mp h
    simp only [Option.some.injEq, Prod.mk.injEq] at h
    obtain ⟨rfl, rfl, rfl⟩ := h
    rw [List.map_cons] at nodup
    obtain ⟨out_, unique⟩ := List.nodup_cons.mp nodup
    have spec := emitRow_emits one
    obtain ⟨streams, rfl⟩ := spec.streams
    obtain ⟨kept, -⟩ := emitRow_tells one
    rw [choiceText_append]
    by_cases same : id = y
    · subst same
      obtain ⟨st', out, stop, said, now, ended, text⟩ := emitRow_said decode eos own stream params one
      have later : choiceText rid ((e.choiceOf id).getD 0) more = [] :=
        emitLoop_quiet rest fun z row mine => apart z (ne_of_mem_of_not_mem row out_) mine
      have absent : id ∉ others := fun mem => out_ ((emitLoop_emits rest).stopped id mem)
      have unlisted : rows.lookup id = none := by
        rw [List.lookup_eq_none_iff]
        intro p mem
        exact bne_iff_ne.mpr (ne_of_mem_of_not_mem (List.mem_map_of_mem mem) out_).symm
      have now' := ih (e := { e with streams }) decode eos unique own now params apart rest
      rw [unlisted] at now'
      rw [List.lookup_cons_self]
      refine ⟨st', out, stop, said, now'.1, ?_, by rw [text, later, List.append_nil]⟩
      rw [List.mem_append, ended]
      cases stop <;> simp [absent]
    · have quiet : choiceText rid ((e.choiceOf id).getD 0) first = [] := by
        apply choiceText_eq_nil
        rintro event mem rfl
        obtain ⟨mine, other⟩ := (emitRow_tells one).2 event mem
        exact other _ (apart y (Ne.symm same) mine)
      have absent : id ∉ here := fun mem => same (List.mem_singleton.mp (spec.stopped id mem))
      have now := ih (e := { e with streams }) decode eos unique own ((kept id same).trans stream) params apart rest
      rw [List.lookup_cons, beq_false_of_ne same, quiet, List.nil_append]
      simp only [List.mem_append, absent, false_or]
      exact now

end Rows

/-- What the engine holds of a sequence that has come to an answer. -/
structure Shows (J : ChoiceJob) (e : GenerationEngine B) (id : SeqId) (a : Answer) : Prop where
  stream : e.streams id = some a.stream
  seq : ∃ seq, e.scheduler.seqs id = some seq ∧ J.Runs a seq

/-- The engine ends sequences where the job does. -/
structure Agrees (J : ChoiceJob) (e : GenerationEngine B) : Prop where
  decode : e.decode = J.decode
  eos : e.scheduler.eosTokenIds = J.eos
  maxContext : e.scheduler.cfg.maxContext = J.maxContext

section Commits

variable [DecidableEq H] {a : Answer}

omit [DecidableEq H] in
theorem lookup_zip_map (f : Draw → Token) (ids : List SeqId) (draws : List Draw) (id : SeqId) :
    (ids.zip (draws.map f)).lookup id = ((ids.zip draws).lookup id).map f := by
  induction ids generalizing draws with
  | nil => rfl
  | cons y ids ih =>
    cases draws with
    | nil => rfl
    | cons x draws =>
      rw [List.map_cons, List.zip_cons_cons, List.zip_cons_cons, List.lookup_cons, List.lookup_cons, ih]
      cases id == y <;> rfl

omit [DecidableEq H] in
theorem Shows.params (shows_ : Shows J e id a) : e.paramsOf id = J.params := by
  obtain ⟨seq, live, runs⟩ := shows_.seq
  unfold paramsOf
  rw [live]
  exact runs.params

/-- A commit leaves a sequence of the job what it was, or takes one token for it. -/
theorem commitPlan_said {plan : StepPlan} {draws : List Draw} (agrees : Agrees J e) (queued : Queued e.scheduler)
    (nodup : plan.sampledSeqs.Nodup) (running : ∀ y ∈ plan.sampledSeqs, y ∈ e.scheduler.running)
    (length : draws.length = plan.sampledSeqs.length) (own : e.seqToRequest id = some rid) (shows_ : Shows J e id a)
    (free : a.stream.constraint = none)
    (apart : ∀ y, y ≠ id → e.seqToRequest y = some rid → (e.choiceOf y).getD 0 ≠ (e.choiceOf id).getD 0)
    (h : e.commitPlan plan draws = some (e', events)) :
    ∃ b, Shows J e' id b ∧ b.text = a.text ++ choiceText rid ((e.choiceOf id).getD 0) events ∧
      (b = a ∨ a.finish = none ∧ ∃ t, J.take a t = some b) := by
  unfold commitPlan at h
  obtain ⟨u, sampled, h⟩ := Option.bind_eq_some_iff.mp h
  obtain ⟨⟨v, texts, stopped⟩, emitted, h⟩ := Option.bind_eq_some_iff.mp h
  obtain ⟨s, committed, h⟩ := Option.bind_eq_some_iff.mp h
  simp only [Option.some.injEq, Prod.mk.injEq] at h
  obtain ⟨rfl, rfl⟩ := h
  have stream := sampleLoop_free sampled shows_.stream free
  obtain ⟨streams, rfl⟩ := sampleLoop_streams sampled
  obtain ⟨seq, live, runs⟩ := shows_.seq
  have params := shows_.params
  have ids : (plan.sampledSeqs.zip draws).map Prod.fst = plan.sampledSeqs := List.map_fst_zip (Nat.le_of_eq length.symm)
  have emits := emitLoop_said (e := { e with streams }) agrees.decode agrees.eos (ids.symm ▸ nodup) own stream params
    apart emitted
  obtain ⟨streams', rfl⟩ := (emitLoop_emits emitted).streams
  change (stopped.foldl (fun s y => s.finish y .stop) e.scheduler).commit plan (draws.map Draw.token) =
    some s at committed
  obtain ⟨-, -, tokens⟩ := commit_tokens nodup committed
  obtain ⟨cfg, eos, seqs⟩ := finishes_seqs stopped .stop e.scheduler
  have now : (stopped.foldl (fun s y => s.finish y .stop) e.scheduler).seqs id =
      some (if id ∈ stopped then seq.ended .stop else seq) := by
    rw [seqs, live]
    split <;> rfl
  obtain ⟨old, seq', alike, live', after⟩ := tokens id _ now
  rw [lookup_zip_map] at after
  cases found : (plan.sampledSeqs.zip draws).lookup id with
  | none =>
    rw [found] at emits after
    obtain ⟨stream', absent, quiet⟩ := emits
    rw [if_neg absent] at alike
    exact ⟨a, ⟨stream', seq', live', (runs.alike alike).alike after⟩, by rw [quiet, List.append_nil], .inl rfl⟩
  | some x =>
    rw [found] at emits after
    obtain ⟨st', out, stop, said, stream', ended, text⟩ := emits
    have row : id ∈ plan.sampledSeqs := by
      obtain ⟨before, after, split, -⟩ := List.lookup_eq_some_iff.mp found
      have mem : (id, x) ∈ plan.sampledSeqs.zip draws := split ▸ List.mem_append_right _ List.mem_cons_self
      exact (List.of_mem_zip mem).1
    have going : ¬seq.status.isFinished := by
      intro done
      have place := queued.place_of_running (running id row) live
      rw [(SeqStatus.isFinished_iff _).mp done] at place
      cases place
    have goes : a.finish = none := by
      cases finish : a.finish with
      | none => rfl
      | some reason =>
        rw [runs.ended reason finish] at going
        exact absurd rfl going
    have taken : J.take a x.token = some ⟨a.generated ++ [x.token], st', a.text ++ out,
        if stop then some .stop else J.check (a.generated ++ [x.token])⟩ := by
      rw [ChoiceJob.take_free free, said]
      rfl
    have before : (if stop then seq.ended .stop else seq).Alike old := by
      cases stop with
      | false => rwa [if_neg fun mem => Bool.noConfusion (ended.mp mem)] at alike
      | true => rwa [if_pos (ended.mpr rfl)] at alike
    have then_ := runs.sampled (t := x.token) going before st' (a.text ++ out)
    simp only [Option.map_some] at after
    rw [eos, agrees.eos, cfg, agrees.maxContext] at after
    refine ⟨⟨a.generated ++ [x.token], st', a.text ++ out,
      if stop then some .stop else J.check (a.generated ++ [x.token])⟩,
      ⟨stream', seq', live', then_.alike after⟩, ?_, .inr ⟨goes, x.token, taken⟩⟩
    exact congrArg (a.text ++ ·) text.symm

/-- A commit leaves what the engine ends at, and says nothing for a choice of no sequence. -/
theorem commitPlan_agrees (rid : RequestId) {plan : StepPlan} {draws : List Draw} (agrees : Agrees J e)
    (nodup : plan.sampledSeqs.Nodup) (h : e.commitPlan plan draws = some (e', events)) :
    Agrees J e' ∧ ∀ k, (∀ y, e.seqToRequest y = some rid → (e.choiceOf y).getD 0 ≠ k) → choiceText rid k events = [] := by
  unfold commitPlan at h
  obtain ⟨u, sampled, h⟩ := Option.bind_eq_some_iff.mp h
  obtain ⟨⟨v, texts, stopped⟩, emitted, h⟩ := Option.bind_eq_some_iff.mp h
  obtain ⟨s, committed, h⟩ := Option.bind_eq_some_iff.mp h
  simp only [Option.some.injEq, Prod.mk.injEq] at h
  obtain ⟨rfl, rfl⟩ := h
  obtain ⟨streams, rfl⟩ := sampleLoop_streams sampled
  refine ⟨?_, fun k none => emitLoop_quiet emitted fun y _ own => none y own⟩
  obtain ⟨streams', rfl⟩ := (emitLoop_emits emitted).streams
  change (stopped.foldl (fun s y => s.finish y .stop) e.scheduler).commit plan (draws.map Draw.token) =
    some s at committed
  obtain ⟨cfg', eos', -⟩ := commit_tokens nodup committed
  obtain ⟨cfg, eos, -⟩ := finishes_seqs stopped .stop e.scheduler
  exact ⟨agrees.decode, (eos'.trans eos).trans agrees.eos,
    (congrArg SchedulerConfig.maxContext (cfg'.trans cfg)).trans agrees.maxContext⟩

omit [DecidableEq H] in
theorem forksToMake_params {f : ForkToMake} (mem : f ∈ e.forksToMake rows) : f.params = e.paramsOf f.leader := by
  obtain ⟨⟨y, x⟩, -, made⟩ := List.mem_filterMap.mp mem
  simp only at made
  split at made
  · cases made
  · obtain ⟨extra, -, rfl⟩ := Option.map_eq_some_iff.mp made
    rfl

end Commits

/-- Some sequences and their streams are as they were. -/
structure Untouched (kept : SeqId → Prop) (e e' : GenerationEngine B) : Prop where
  decode : e'.decode = e.decode
  eos : e'.scheduler.eosTokenIds = e.scheduler.eosTokenIds
  cfg : e'.scheduler.cfg = e.scheduler.cfg
  seqs : ∀ id, kept id → e'.scheduler.seqs id = e.scheduler.seqs id
  streams : ∀ id, kept id → e'.streams id = e.streams id
  choice : ∀ id, kept id → e'.choiceOf id = e.choiceOf id

namespace Untouched

variable {kept kept' : SeqId → Prop} {a : Answer}

theorem refl (e : GenerationEngine B) : Untouched kept e e :=
    ⟨rfl, rfl, rfl, fun _ _ => rfl, fun _ _ => rfl, fun _ _ => rfl⟩

theorem trans (h : Untouched kept e e') (k : Untouched kept e' u) : Untouched kept e u where
  decode := k.decode.trans h.decode
  eos := k.eos.trans h.eos
  cfg := k.cfg.trans h.cfg
  seqs id mem := (k.seqs id mem).trans (h.seqs id mem)
  streams id mem := (k.streams id mem).trans (h.streams id mem)
  choice id mem := (k.choice id mem).trans (h.choice id mem)

theorem mono (h : Untouched kept e e') (sub : ∀ id, kept' id → kept id) : Untouched kept' e e' :=
  ⟨h.decode, h.eos, h.cfg, fun id mem => h.seqs id (sub id mem), fun id mem => h.streams id (sub id mem),
    fun id mem => h.choice id (sub id mem)⟩

theorem agrees (h : Untouched kept e e') (agrees : Agrees J e) : Agrees J e' :=
  ⟨h.decode.trans agrees.decode, h.eos.trans agrees.eos,
    (congrArg SchedulerConfig.maxContext h.cfg).trans agrees.maxContext⟩

theorem shows (h : Untouched kept e e') (mem : kept id) (shows_ : Shows J e id a) : Shows J e' id a := by
  obtain ⟨seq, live, runs⟩ := shows_.seq
  exact ⟨(h.streams id mem).trans shows_.stream, seq, (h.seqs id mem).trans live, runs⟩

end Untouched

section Forks

variable [DecidableEq H] {f : ForkToMake} {a : Answer}

theorem seedSiblings_untouched {prompt : List Token} {stop : StopCondition} {ids : List SeqId} {choice : Nat}
    {tokens : List Token} {all : Bool} (h : seedSiblings rid prompt stop ids choice tokens e = some (e', events, all)) :
    Untouched (· ∉ ids) e e' := by
  induction ids generalizing e choice tokens events with
  | nil =>
    simp only [seedSiblings, Option.some.injEq, Prod.mk.injEq] at h
    obtain ⟨rfl, -, -⟩ := h
    exact .refl e
  | cons id ids ih =>
    cases tokens with
    | nil => cases h
    | cons token tokens =>
      obtain ⟨cfg, eos, others, -⟩ := seedFork_tokens e.scheduler id token
      rw [seedSiblings] at h
      rcases seeded : e.scheduler.seedFork id token with ⟨s, err | ⟨⟩⟩
      · simp only [seeded, Option.some.injEq, Prod.mk.injEq] at h cfg eos others
        obtain ⟨rfl, -, -⟩ := h
        exact ⟨rfl, eos, cfg, fun y out => others y (List.ne_of_not_mem_cons out), fun _ _ => rfl, fun _ _ => rfl⟩
      · simp only [seeded] at h cfg eos others
        obtain ⟨⟨text, detok⟩, -, h⟩ := Option.bind_eq_some_iff.mp h
        obtain ⟨⟨e₂, more, all₂⟩, rest, h⟩ := Option.bind_eq_some_iff.mp h
        simp only [Option.some.injEq, Prod.mk.injEq] at h
        obtain ⟨rfl, -, rfl⟩ := h
        have later := ih rest
        refine ⟨later.decode, later.eos.trans eos, later.cfg.trans cfg, fun y out => ?_, fun y out => ?_,
          fun y out => ?_⟩
        · exact (later.seqs y (List.not_mem_of_not_mem_cons out)).trans (others y (List.ne_of_not_mem_cons out))
        · exact (later.streams y (List.not_mem_of_not_mem_cons out)).trans
            (Function.update_of_ne (List.ne_of_not_mem_cons out) ..)
        · exact (later.choice y (List.not_mem_of_not_mem_cons out)).trans
            (Function.update_of_ne (List.ne_of_not_mem_cons out) ..)

/-- A fork leaves the sequences that there were. -/
theorem forkRequest_untouched {made : Bool} (h : e.forkRequest f = some (e', events, made)) :
    Untouched (· < e.scheduler.nextId) e e' := by
  unfold forkRequest at h
  split at h
  · simp only [Option.some.injEq, Prod.mk.injEq] at h
    obtain ⟨rfl, -, -⟩ := h
    exact .refl e
  · obtain ⟨cfg, eos, old, ids⟩ := fork_kept e.scheduler f.leader f.extra
    rcases forked : e.scheduler.fork f.leader f.extra with ⟨s, err | fork⟩ <;> simp only [forked] at h cfg eos old ids
    · simp only [Option.some.injEq, Prod.mk.injEq] at h
      obtain ⟨rfl, -, -⟩ := h
      exact ⟨rfl, eos, cfg, old, fun _ _ => rfl, fun _ _ => rfl⟩
    · have first : Untouched (· < e.scheduler.nextId) e (e.setScheduler s) :=
        ⟨rfl, eos, cfg, old, fun _ _ => rfl, fun _ _ => rfl⟩
      split at h
      · simp only [Option.some.injEq, Prod.mk.injEq] at h
        obtain ⟨rfl, -, -⟩ := h
        exact first
      · refine first.trans ((seedSiblings_untouched h).mono fun y known mem => ?_)
        rw [(ids fork rfl).1] at mem
        exact absurd (List.mem_range'_1.mp mem).1 (Nat.not_le.mpr known)

theorem choiceText_closeSiblings (rid r : RequestId) (k extra : Nat) : choiceText rid k (closeSiblings r extra) = [] := by
  apply choiceText_eq_nil
  intro event mem _
  obtain ⟨choice, -, rfl⟩ := List.mem_map.mp mem
  rfl

omit [DecidableEq H] in
theorem Untouched.closing {v : GenerationEngine B} {kept : SeqId → Prop} (v_ : v = u ∨ v = u.shut id) :
    Untouched kept u (v.setPending id none) := by
  rcases v_ with rfl | rfl
  · exact ⟨rfl, rfl, rfl, fun _ _ => rfl, fun _ _ => rfl, fun _ _ => rfl⟩
  · unfold shut
    cases u.seqToRequest id <;> exact ⟨rfl, rfl, rfl, fun _ _ => rfl, fun _ _ => rfl, fun _ _ => rfl⟩

theorem makeFork_untouched (h : e.makeFork f = some (e', events)) : Untouched (· < e.scheduler.nextId) e e' := by
  rcases makeFork_cases h with ⟨-, rfl, -⟩ | ⟨u, told, made, -, request, ⟨-, rfl, -⟩ | ⟨-, rfl, -⟩⟩
  · exact .closing (.inr rfl)
  · exact (forkRequest_untouched request).trans (.closing (.inl rfl))
  · exact (forkRequest_untouched request).trans (.closing (.inr rfl))

/-- The siblings of a job have come to what a fork makes of their tokens. -/
theorem seedSiblings_said (agrees : Agrees J e) {ids : List SeqId} {choice : Nat} {tokens : List Token}
    (nodup : ids.Nodup) (children : ∀ id ∈ ids, ∃ seq, e.scheduler.seqs id = some seq ∧ J.Unsaid seq)
    (h : seedSiblings rid J.prompt J.params.stop ids choice tokens e = some (e', events, true)) :
    (∀ k, k ∉ List.range' choice ids.length → choiceText rid k events = []) ∧
      ∀ id ∈ ids, ∃ t ∈ tokens.take ids.length, ∃ a, J.seeded t = some a ∧ Shows J e' id a ∧
        choice ≤ (e'.choiceOf id).getD 0 ∧ choiceText rid ((e'.choiceOf id).getD 0) events = a.text := by
  induction ids generalizing e choice tokens events with
  | nil =>
    simp only [seedSiblings, Option.some.injEq, Prod.mk.injEq] at h
    obtain ⟨rfl, rfl, -⟩ := h
    exact ⟨fun _ _ => rfl, fun _ mem => absurd mem List.not_mem_nil⟩
  | cons id ids ih =>
    cases tokens with
    | nil => cases h
    | cons token tokens =>
      obtain ⟨out, nodup⟩ := List.nodup_cons.mp nodup
      obtain ⟨cfg, eos, others, own⟩ := seedFork_tokens e.scheduler id token
      rw [seedSiblings] at h
      rcases seeded : e.scheduler.seedFork id token with ⟨s, err | ⟨⟩⟩
      · simp only [seeded, Option.some.injEq, Prod.mk.injEq] at h
        cases h.2.2
      · simp only [seeded] at h cfg eos others own
        obtain ⟨⟨text, detok⟩, pushed, h⟩ := Option.bind_eq_some_iff.mp h
        generalize first : (if token ∈ (e.setScheduler s).scheduler.eosTokenIds then (({} : StreamState), none)
          else emitWithStopStrings {} J.params.stop text) = emitted at h
        obtain ⟨left, said⟩ := emitted
        obtain ⟨⟨e₂, more, all₂⟩, rest, h⟩ := Option.bind_eq_some_iff.mp h
        simp only [Option.some.injEq, Prod.mk.injEq] at h
        obtain ⟨rfl, rfl, rfl⟩ := h
        -- the first sibling
        have made : J.seeded token =
            some ⟨[token], { detok, text := left, lastToken := token }, said.getD [], none⟩ := by
          change (IncrementalDetokenizer.withPrompt (J.prompt.map UInt32.toNat)).push token.toNat e.decode = _ at pushed
          unfold ChoiceJob.seeded
          rw [← agrees.decode, pushed, ← agrees.eos, ← eos]
          exact congrArg (fun r : StreamState × Option Text => some (Answer.mk [token] ⟨detok, r.1, token,
            none⟩ (r.2.getD []) none)) first
        have kept := seedSiblings_untouched rest
        obtain ⟨seq, live, new⟩ := children id List.mem_cons_self
        obtain ⟨seq', live', alike⟩ := own seq live
        have shown : Shows J e₂ id ⟨[token], { detok, text := left, lastToken := token }, said.getD [], none⟩ :=
          ⟨(kept.streams id out).trans (Function.update_self ..), seq', (kept.seqs id out).trans live',
            (ChoiceJob.Runs.seeded new made).alike alike⟩
        have at_ : (e₂.choiceOf id).getD 0 = choice := by
          rw [kept.choice id out]
          change (Function.update e.choiceOf id (some choice) id).getD 0 = _
          rw [Function.update_self]
          rfl
        have text_ : ∀ k, choiceText rid k (said.toList.map fun text => (rid, .token choice text token none none)) =
            if choice = k then said.getD [] else [] :=
          fun k => choiceText_tokens rid k said choice token none none
        -- the others
        obtain ⟨quiet, all⟩ := ih
          (e := (e.setScheduler s).enroll id rid choice { detok, text := left, lastToken := token }) ⟨agrees.decode,
            eos.trans agrees.eos, (congrArg SchedulerConfig.maxContext cfg).trans agrees.maxContext⟩
          nodup (fun y mem => by
            obtain ⟨seq, live, new⟩ := children y (List.mem_cons_of_mem id mem)
            exact ⟨seq, (others y (ne_of_mem_of_not_mem mem out)).trans live, new⟩) rest
        refine ⟨fun k absent => ?_, fun y mem => ?_⟩
        · rw [List.length_cons, List.range'_succ, List.mem_cons, not_or] at absent
          rw [choiceText_append, text_, if_neg (Ne.symm absent.1), quiet k absent.2]
          rfl
        · rw [List.length_cons, List.take_succ_cons]
          rcases List.mem_cons.mp mem with rfl | mem
          · refine ⟨token, List.mem_cons_self, _, made, shown, at_.ge, ?_⟩
            rw [at_, choiceText_append, text_, if_pos rfl, quiet choice fun mem => Nat.not_succ_le_self choice
              (List.mem_range'_1.mp mem).1,
              List.append_nil]
          · obtain ⟨t, drawn, a, seeded_, shows_, later, text⟩ := all y mem
            refine ⟨t, List.mem_cons_of_mem token drawn, a, seeded_, shows_, Nat.le_of_succ_le later, ?_⟩
            rw [choiceText_append, text_, if_neg (Nat.ne_of_lt later), List.nil_append]
            exact text

/-- The siblings that a fork makes have come to what it makes of their tokens. -/
theorem forkRequest_said (agrees : Agrees J e) (own : e.seqToRequest f.leader = some rid) (params : f.params = J.params)
    {seq : Sequence} (live : e.scheduler.seqs f.leader = some seq) (known : f.leader < e.scheduler.nextId)
    (runs : J.Runs a seq) (h : e.forkRequest f = some (e', events, true)) :
    (e.scheduler.fork f.leader f.extra).2.isOk ∧ (∀ k, k ∉ List.range' 1 f.extra → choiceText rid k events = []) ∧
      ∀ id ∈ List.range' e.scheduler.nextId f.extra, ∃ t ∈ f.draw.siblings.take f.extra, ∃ b, J.seeded t = some b ∧
        Shows J e' id b ∧ choiceText rid ((e'.choiceOf id).getD 0) events = b.text := by
  have prompt : seq.prompt = J.prompt := by
    unfold Sequence.prompt
    rw [runs.tokens, runs.promptLen, List.take_left]
  unfold forkRequest at h
  rw [own] at h
  obtain ⟨cfg, eos, old, ids⟩ := fork_kept e.scheduler f.leader f.extra
  obtain ⟨-, -, -, children⟩ := fork_tokens live f.extra
  rcases forked : e.scheduler.fork f.leader f.extra with ⟨s,
    err | fork⟩ <;> simp only [forked] at h cfg eos old ids children ⊢
  · simp only [Option.some.injEq, Prod.mk.injEq] at h
    cases h.2.2
  · obtain ⟨entered, next⟩ := ids fork rfl
    split at h
    · simp only [Option.some.injEq, Prod.mk.injEq] at h
      cases h.2.2
    · rw [old f.leader known, live, Option.elim_some, prompt, params, entered] at h
      have length : (List.range' e.scheduler.nextId f.extra).length = f.extra := List.length_range'
      obtain ⟨quiet, all⟩ := seedSiblings_said (J := J) (e := e.setScheduler s)
        ⟨agrees.decode, eos.trans agrees.eos, (congrArg SchedulerConfig.maxContext cfg).trans agrees.maxContext⟩
        List.nodup_range' (fun id mem => by
          obtain ⟨from_, upto⟩ := List.mem_range'_1.mp mem
          obtain ⟨child, there, tokens, count, same, status⟩ := children id from_ (next.symm ▸ upto)
          exact ⟨child, there, tokens.trans prompt, count.trans (congrArg List.length prompt), same.trans runs.params,
            status⟩) h
      rw [length] at quiet all
      refine ⟨rfl, quiet, fun id mem => ?_⟩
      obtain ⟨t, drawn, b, seeded, shows_, -, text⟩ := all id mem
      exact ⟨t, drawn, b, seeded, shows_, text⟩

end Forks

end GenerationEngine

end Vapi.Worker
