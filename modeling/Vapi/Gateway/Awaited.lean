import Vapi.Gateway.Usage

/-!
# Waiting for every choice

Both ways of delivering an answer end when each choice has had its last word,
whatever would come after it.
-/

namespace Vapi.Gateway

open OpenAi Proto

variable (reader : CallReader) (decode : List Token → Text) {prepared : Prepared} {parser : Option OutputParser}
  {events : List StreamEvent}

/-- A stream that waits for as many last words as there are ends with them, and has closed each choice. -/
theorem stream_ends (s : Streaming) (only : ∀ e ∈ events, delivers e) (count : s.choicesLeft = (finals events).length)
    (some_ : finals events ≠ []) :
    ∃ s' frames, (∀ more, s.drain reader decode prepared (events.map .ok ++ more) = (s', frames)) ∧ s'.recorded.isSome ∧
      ∀ i ∈ (finals events).map Final.choice, ∃ reason, .data (.finishFor i reason) ∈ frames := by
  induction events generalizing s with
  | nil => exact absurd rfl some_
  | cons e events ih =>
    have only' : ∀ e ∈ events, delivers e := fun e he => only e (List.mem_cons_of_mem _ he)
    cases e with
    | started _ =>
      rw [finals_cons] at count some_ ⊢
      obtain ⟨s', frames, drained, recorded, closed⟩ := ih s only' count some_
      refine ⟨s', frames, fun more => ?_, recorded, closed⟩
      rw [List.map_cons, List.cons_append, Streaming.drain]
      simp only [Streaming.event, drained, List.nil_append]
    | token choice text logprob top =>
      rw [finals_cons] at count some_ ⊢
      obtain ⟨s₁, chunks, is, -, -, left⟩ := token_event reader decode prepared s choice text logprob top
      obtain ⟨s', frames, drained, recorded, closed⟩ := ih s₁ only' (left.trans count) some_
      refine ⟨s', chunks ++ frames, fun more => ?_, recorded, fun i mem => ?_⟩
      · rw [List.map_cons, List.cons_append, Streaming.drain, is]
        simp only [drained]
      · obtain ⟨reason, there⟩ := closed i mem
        exact ⟨reason, List.mem_append_right _ there⟩
    | done choice reason p c =>
      rw [finals_cons] at count ⊢
      simp only [finalOf, Option.toList_some, List.singleton_append, List.length_cons] at count
      obtain ⟨s₁, last, is, -, -, left, recorded, reason', there⟩ := done_event reader decode prepared s choice reason p c
      by_cases more : 0 < s.choicesLeft - 1
      · have some' : finals events ≠ [] := List.ne_nil_of_length_pos (by omega)
        obtain ⟨s', frames, drained, recorded, closed⟩ := ih s₁ only' (by omega) some'
        refine ⟨s', last ++ frames, fun rest => ?_, recorded, fun i mem => ?_⟩
        · rw [List.map_cons, List.cons_append, Streaming.drain, is, decide_eq_true more]
          simp only [drained]
        · rcases List.mem_cons.mp mem with rfl | later
          · exact ⟨reason', List.mem_append_left _ there⟩
          · obtain ⟨reason, there⟩ := closed i later
            exact ⟨reason, List.mem_append_right _ there⟩
      · have none : finals events = [] := List.eq_nil_of_length_eq_zero (by omega)
        refine ⟨s₁, last, fun rest => ?_, by rw [recorded more]; rfl, fun i mem => ?_⟩
        · rw [List.map_cons, List.cons_append, Streaming.drain, is, decide_eq_false more]
        · rw [none] at mem
          exact ⟨reason', List.mem_singleton.mp mem ▸ there⟩
    | decided _ _ => cases only _ List.mem_cons_self
    | transcribed _ _ _ => cases only _ List.mem_cons_self
    | failed _ => cases only _ List.mem_cons_self

/-- Both deliveries end with these events, whatever would come after them: the one with an answer for each choice
that has the reason it was given, the other with each choice closed. -/
def Served (reader : CallReader) (decode : List Token → Text) (prepared : Prepared) (parser : Option OutputParser)
    (includeUsage : Bool) (events : List StreamEvent) : Prop :=
  (∃ c : Collecting, (∀ more, collect reader decode prepared parser (events ++ more) = .ok c.finish) ∧
    c.finish.rest.length + 1 = prepared.choices ∧
    ∀ i reason p n, .done i reason p n ∈ events → c.finishes[i]? = some (some reason)) ∧
  ∃ s frames, (∀ more, sseStream reader decode prepared parser includeUsage (events.map .ok ++ more) = (s, frames)) ∧
    s.recorded.isSome ∧ ∀ i < prepared.choices, ∃ reason, .data (.finishFor i reason) ∈ frames

/-- Each choice has its one last word. -/
theorem served_of_once {includeUsage : Bool} (only : ∀ e ∈ events, delivers e)
    (once : ((finals events).map Final.choice).Perm (List.range prepared.choices)) :
    Served reader decode prepared parser includeUsage events := by
  have length : (finals events).length = prepared.choices := by simpa using once.length_eq
  have pos : 0 < prepared.choices := Nat.lt_of_lt_of_le Nat.one_pos (Nat.le_max_right _ _)
  have some_ : finals events ≠ [] := List.ne_nil_of_length_pos (by omega)
  have open_ : ∀ i ∈ (finals events).map Final.choice, (Collecting.start prepared parser).finishes[i]? = some none := by
    intro i hi
    have lt := List.mem_range.mp (once.mem_iff.mp hi)
    simp [Collecting.start, lt]
  constructor
  · obtain ⟨c, drained, -, accs, kept⟩ := drain_ends reader decode (Collecting.start prepared parser) only open_
      (once.nodup_iff.mpr List.nodup_range) ((Nat.zero_add _).trans length) (List.getLast?_eq_some_getLast some_)
    refine ⟨c, fun more => ?_, ?_, fun i reason p n mem => kept i reason (.inr ⟨p, n, mem⟩)⟩
    · rw [collect, drained]
      rfl
    · have accs' : c.accs.length = prepared.choices := accs.trans List.length_replicate
      change (List.map _ (List.map _ c.accs.zipIdx).tail).length + 1 = _
      rw [List.length_map, List.length_tail, List.length_map, List.length_zipIdx]
      omega
  · obtain ⟨s, frames, drained, recorded, closed⟩ :=
      stream_ends reader decode (Streaming.start prepared parser) only length.symm some_
    refine ⟨s, _, fun more => by rw [sseStream, drained], recorded, fun i lt => ?_⟩
    obtain ⟨reason, there⟩ := closed i (once.mem_iff.mpr (List.mem_range.mpr lt))
    refine ⟨reason, List.mem_append_left _ (List.mem_append_left _ (List.mem_append_right _ there))⟩

end Vapi.Gateway
