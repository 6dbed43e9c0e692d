import Vapi.Worker.Generator

/-!
# One choice, token by token

What a job of a single choice says and when it ends, whatever is sampled for
it, and what a fork gives a sibling for its first token.
-/

namespace Vapi.Worker

open Engine Proto

/-- What one choice has come to: its tokens, what is kept to stream them, and
the text that was streamed. -/
structure Answer where
  generated : List Token := []
  stream : Stream
  text : Text := []
  finish : Option FinishReason := none

/-- A job, and what the engine that serves it ends at. -/
structure ChoiceJob where
  prompt : List Token
  params : SamplingParams
  constraint : Option Constraint := none
  decode : List Nat → Text
  eos : List Token
  maxContext : Nat

namespace ChoiceJob

variable (J : ChoiceJob)

def start : Answer := { stream := { detok := .withPrompt (J.prompt.map UInt32.toNat), constraint := J.constraint } }

/-- Why generation ends with these tokens, if it does. -/
def check (generated : List Token) : Option FinishReason :=
  match generated.getLast? with
  | none => none
  | some last =>
    if last ∈ J.eos ∨ last ∈ J.params.stop.stopTokenIds then some .stop
    else if J.params.maxTokens ≤ generated.length then some .length
    else if J.maxContext ≤ J.prompt.length + generated.length then some .length
    else none

/-- Stream one token, unless it ends the text; whether a stop string was completed. -/
def say (st : Stream) (t : Token) : Option (Stream × Text × Bool) :=
  if t ∈ J.eos then some (st, [], false)
  else do
    let (text, detok) ← st.detok.push t.toNat J.decode
    let (left, out) := emitWithStopStrings st.text J.params.stop text
    some ({ st with detok, text := left, lastToken := t }, out.getD [], left.stopped)

/-- One more token. -/
def take (a : Answer) (t : Token) : Option Answer := do
  let constraint := a.stream.constraint.bind fun c => c.push (J.decode [t.toNat])
  let (stream, out, stopped) ← J.say { a.stream with constraint } t
  let generated := a.generated ++ [t]
  some { generated, stream, text := a.text ++ out, finish := if stopped then some .stop else J.check generated }

/-- Where a constraint is in force, its mask leaves the end and what it accepts. -/
def Allows (a : Answer) (t : Token) : Prop :=
  ∀ c, a.stream.constraint = some c → t ∈ J.eos ∨ (c.push (J.decode [t.toNat])).isSome

/-- What a run of a single choice may come to. -/
inductive Alone : Answer → Prop
  | start : Alone J.start
  | take {a b : Answer} {t : Token} : Alone a → a.finish = none → J.Allows a t → J.take a t = some b → Alone b

/-- What a fork makes of a sibling with its first token. -/
def seeded (t : Token) : Option Answer := do
  let (text, detok) ← (IncrementalDetokenizer.withPrompt (J.prompt.map UInt32.toNat)).push t.toNat J.decode
  let (left, out) := if t ∈ J.eos then (({} : StreamState), none) else emitWithStopStrings {} J.params.stop text
  some { generated := [t], stream := { detok, text := left, lastToken := t }, text := out.getD [] }

/-- A first token that completes a stop string. -/
def Completes (t : Token) : Prop := (J.say J.start.stream t).any fun r => r.2.2

instance (t : Token) : Decidable (J.Completes t) :=
  inferInstanceAs (Decidable ((J.say J.start.stream t).any (fun r => r.2.2) = true))

/-- A first token that ends nothing, of a job that is held to no format. -/
def Plain (t : Token) : Prop := J.check [t] = none ∧ ¬J.Completes t ∧ J.constraint.isNone

instance (t : Token) : Decidable (J.Plain t) :=
  inferInstanceAs (Decidable (J.check [t] = none ∧ ¬J.Completes t ∧ J.constraint.isNone))

variable {J} {a b : Answer} {t : Token}

theorem take_eq (h : J.take a t = some b) :
    ∃ stream out stopped,
      J.say { a.stream with constraint := a.stream.constraint.bind fun c => c.push (J.decode [t.toNat]) } t =
        some (stream, out, stopped) ∧
      b = ⟨a.generated ++ [t], stream, a.text ++ out, if stopped then some .stop else J.check (a.generated ++ [t])⟩ := by
  obtain ⟨⟨stream, out, stopped⟩, said, h⟩ := Option.bind_eq_some_iff.mp h
  exact ⟨stream, out, stopped, said, (Option.some.inj h).symm⟩

theorem take_generated (h : J.take a t = some b) : b.generated = a.generated ++ [t] := by
  obtain ⟨stream, out, stopped, -, rfl⟩ := take_eq h
  rfl

theorem take_unfinished (h : J.take a t = some b) (goes : b.finish = none) : J.check b.generated = none := by
  obtain ⟨stream, out, stopped, -, rfl⟩ := take_eq h
  cases stopped with
  | false => exact goes
  | true => cases goes

theorem say_constraint {st st' : Stream} {out : Text} {stopped : Bool} (h : J.say st t = some (st', out, stopped)) :
    st'.constraint = st.constraint := by
  unfold say at h
  split at h
  · obtain ⟨rfl, -, -⟩ := Option.some.inj h
    rfl
  · obtain ⟨⟨text, detok⟩, -, h⟩ := Option.bind_eq_some_iff.mp h
    obtain ⟨rfl, -, -⟩ := Option.some.inj h
    rfl

theorem Alone.generated_nil (h : J.Alone a) (none : a.generated = []) : a = J.start := by
  cases h with
  | start => rfl
  | take before goes allowed h =>
    rw [take_generated h] at none
    simp at none

/-- What a run of one token has come to. -/
theorem Alone.one (h : J.Alone a) (one : a.generated = [t]) : J.take J.start t = some a := by
  cases h with
  | start => cases one
  | @take b _ t' before goes allowed h =>
    rw [take_generated h] at one
    have none : b.generated = [] := by
      have length := congrArg List.length one
      rw [List.length_append, List.length_singleton, List.length_singleton] at length
      exact List.length_eq_zero_iff.mp (Nat.succ.inj length)
    rw [none, List.nil_append, List.singleton_inj] at one
    rw [← before.generated_nil none, ← one]
    exact h

/-- Of a job that is held to no format, no choice is. -/
theorem Alone.unconstrained (h : J.Alone a) (free : J.constraint = none) : a.stream.constraint = none := by
  induction h with
  | start => exact free
  | take before goes allowed h ih =>
    obtain ⟨stream, out, stopped, said, rfl⟩ := take_eq h
    rw [say_constraint said, ih]
    rfl

theorem check_eos {generated : List Token} (goes : J.check (generated ++ [t]) = none) : t ∉ J.eos := by
  intro ends
  unfold check at goes
  rw [List.getLast?_concat] at goes
  simp only [ends, true_or, if_true] at goes
  cases goes

/-- Without a constraint a token is only streamed and counted. -/
theorem take_free (free : a.stream.constraint = none) (t : Token) :
    J.take a t = (J.say a.stream t).map fun r =>
      ⟨a.generated ++ [t], r.1, a.text ++ r.2.1, if r.2.2 then some .stop else J.check (a.generated ++ [t])⟩ := by
  obtain ⟨generated, ⟨detok, text, last, constraint⟩, told, finish⟩ := a
  obtain rfl : constraint = none := free
  unfold take
  simp only [Option.bind_none]
  cases J.say ⟨detok, text, last, none⟩ t <;> rfl

/-- A constraint has no part in what is streamed. -/
theorem say_any (st : Stream) (c : Option Constraint) (t : Token) :
    (J.say { st with constraint := c } t).any (fun r => r.2.2) = (J.say st t).any fun r => r.2.2 := by
  unfold say
  split
  · rfl
  · dsimp only
    cases st.detok.push t.toNat J.decode <;> rfl

/-- What a fork makes of a sibling is what a run of its own would have come to
just when the first token ends nothing and the job is held to no format. -/
theorem seeded_alone (allowed : J.Allows J.start t) (h : J.seeded t = some a) : J.Alone a ↔ J.Plain t := by
  obtain ⟨⟨text, detok⟩, pushed, h⟩ := Option.bind_eq_some_iff.mp h
  simp only [Option.some.injEq] at h
  have made : a.generated = [t] ∧ a.stream.constraint = none ∧ a.finish = none := h ▸ ⟨rfl, rfl, rfl⟩
  constructor
  · intro alone
    obtain ⟨stream, out, stopped, said, eq⟩ := take_eq (alone.one made.1)
    have finish : (if stopped then some FinishReason.stop else J.check [t]) = none := by
      rw [← made.2.2, eq]
      rfl
    obtain rfl : stopped = false := by
      cases stopped with
      | false => rfl
      | true => cases finish
    have goes : J.check [t] = none := finish
    refine ⟨goes, ?_, ?_⟩
    · unfold Completes
      rw [← say_any J.start.stream, said]
      exact Bool.false_ne_true
    · have dropped : J.constraint.bind (fun c => c.push (J.decode [t.toNat])) = none := by
        rw [← made.2.1, eq]
        exact (say_constraint said).symm
      cases held : J.constraint with
      | none => rfl
      | some c =>
        rw [held, Option.bind_some] at dropped
        have accepted := (allowed c held).resolve_left (@check_eos J t [] goes)
        rw [dropped] at accepted
        cases accepted
  · rintro ⟨goes, silent, free⟩
    rw [Option.isNone_iff_eq_none] at free
    refine .take .start rfl allowed ?_
    have on : t ∉ J.eos := @check_eos J t [] goes
    have said : J.say J.start.stream t = some ({ J.start.stream with
        detok, text := (emitWithStopStrings {} J.params.stop text).1, lastToken := t },
        (emitWithStopStrings {} J.params.stop text).2.getD [],
          (emitWithStopStrings {} J.params.stop text).1.stopped) := by
      unfold say
      rw [if_neg on]
      change Option.bind ((IncrementalDetokenizer.withPrompt (J.prompt.map UInt32.toNat)).push t.toNat J.decode) _ = _
      rw [pushed]
      rfl
    have goes_on : (emitWithStopStrings {} J.params.stop text).1.stopped = false := by
      unfold Completes at silent
      rw [said] at silent
      exact Bool.eq_false_iff.mpr silent
    rw [if_neg on] at h
    rw [take_free free, said, ← h]
    simp only [Option.map_some, goes_on, Bool.false_eq_true, if_false]
    change some (Answer.mk [t] _ _ (J.check [t])) = some (Answer.mk [t] _ _ none)
    rw [goes]
    unfold start
    rw [free]
    rfl

/-- What is held to the rules of a job: nothing comes after a token that ends
the text, or after a first token that completes a stop string, and there are no
more tokens than were asked for. -/
structure Ruled (J : ChoiceJob) (a : Answer) : Prop where
  ends : ∀ t ∈ a.generated.dropLast, t ∉ J.eos ∧ t ∉ J.params.stop.stopTokenIds
  length : a.generated.length ≤ J.params.maxTokens
  text : ∀ t rest, a.generated = t :: rest → J.Completes t → rest = []

theorem check_none {generated : List Token} (goes : J.check (generated ++ [t]) = none) :
    t ∉ J.eos ∧ t ∉ J.params.stop.stopTokenIds ∧ (generated ++ [t]).length < J.params.maxTokens := by
  unfold check at goes
  rw [List.getLast?_concat] at goes
  simp only at goes
  split at goes
  · cases goes
  · rename_i on
    split at goes
    · cases goes
    · rename_i short
      rw [not_or] at on
      exact ⟨on.1, on.2, Nat.not_le.mp short⟩

/-- A token after which a run goes on has not completed a stop string. -/
theorem take_silent (h : J.take J.start t = some a) (goes : a.finish = none) : ¬J.Completes t := by
  obtain ⟨stream, out, stopped, said, rfl⟩ := take_eq h
  unfold Completes
  rw [← say_any J.start.stream, said]
  cases stopped with
  | false => exact Bool.false_ne_true
  | true => cases goes

theorem Alone.rules (h : J.Alone a) (pos : 0 < J.params.maxTokens) :
    Ruled J a ∧ (a.finish = none → (∀ t ∈ a.generated, t ∉ J.eos ∧ t ∉ J.params.stop.stopTokenIds) ∧
      a.generated.length < J.params.maxTokens ∧ ∀ t, a.generated = [t] → ¬J.Completes t) := by
  induction h with
  | start =>
    refine ⟨⟨fun _ mem => absurd mem List.not_mem_nil, Nat.zero_le _, fun _ _ some_ => ?_⟩,
      fun _ => ⟨fun _ mem => absurd mem List.not_mem_nil, pos, fun _ some_ => ?_⟩⟩
    · cases some_
    · cases some_
  | @take b a t before goes allowed h ih =>
    obtain ⟨ruled, unfinished⟩ := ih
    obtain ⟨on, short, silent⟩ := unfinished goes
    have generated := take_generated h
    refine ⟨⟨fun x mem => ?_, ?_, fun x rest cut completes => ?_⟩, fun goes' => ⟨fun x mem => ?_, ?_, fun x one => ?_⟩⟩
    · rw [generated, List.dropLast_concat] at mem
      exact on x mem
    · rw [generated, List.length_append]
      exact short
    · rw [generated] at cut
      cases earlier : b.generated with
      | nil =>
        rw [earlier] at cut
        exact (List.cons.inj cut).2.symm
      | cons y more =>
        rw [earlier, List.cons_append] at cut
        obtain ⟨rfl, -⟩ := List.cons.inj cut
        obtain rfl := ruled.text y more earlier completes
        exact absurd completes (silent y earlier)
    · have last := check_none (generated ▸ take_unfinished h goes')
      rw [generated] at mem
      rcases List.mem_append.mp mem with mem | mem
      · exact on x mem
      · rw [List.mem_singleton.mp mem]
        exact ⟨last.1, last.2.1⟩
    · rw [generated]
      exact (check_none (generated ▸ take_unfinished h goes')).2.2
    · exact take_silent ((Alone.take before goes allowed h).one one) goes'

/-- Whatever a run of a single choice comes to is held to the rules. -/
theorem Alone.ruled (h : J.Alone a) (pos : 0 < J.params.maxTokens) : Ruled J a := (h.rules pos).1

end ChoiceJob

end Vapi.Worker
