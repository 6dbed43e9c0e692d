import Vapi.Gateway.Api
import Mathlib.Data.List.Nodup

/-!
# What a request is charged

The usage each way of delivering an answer ends with, over every order in
which a request's choices can finish.
-/

namespace Vapi.Gateway

open OpenAi Proto

/-- One choice's last word: the choice, the prompt's tokens and its own. -/
structure Final where
  choice : Nat
  prompt : Nat
  completion : Nat
  deriving DecidableEq

def finalOf : StreamEvent → Option Final
  | .done choice _ prompt completion => some ⟨choice, prompt, completion⟩
  | _ => none

def isToken : StreamEvent → Bool
  | .token .. => true
  | _ => false

/-- The choices' last words in the order they come. -/
def finals (events : List StreamEvent) : List Final := events.filterMap finalOf

/-- What the delivery of a generated answer is made of. -/
def delivers : StreamEvent → Bool
  | .started _ | .token .. | .done .. => true
  | _ => false

def tokens (events : List StreamEvent) : Nat := events.countP isToken

def completions (fs : List Final) : Nat := (fs.map Final.completion).sum

def closesFirst (e : StreamEvent) : Bool := (finalOf e).any (·.choice = 0)

/-- What comes after the first choice's last word. -/
def afterFirst (events : List StreamEvent) : List StreamEvent := (events.dropWhile fun e => !closesFirst e).drop 1

/-- An order in which the choices of a request are delivered: tokens, and one last word for each choice, after
its tokens. -/
structure Interleaving (choices : Nat) (events : List StreamEvent) : Prop where
  only : ∀ e ∈ events, delivers e
  once : ((finals events).map Final.choice).Perm (List.range choices)
  ends : ∀ pre choice text logprob top post, events = pre ++ .token choice text logprob top :: post →
    choice ∈ (finals post).map Final.choice

variable (reader : CallReader) (decode : List Token → Text) {prepared : Prepared} {parser : Option OutputParser}
  {events : List StreamEvent}

/-- Both deliveries end with the request's prompt counted once and every choice's completion. -/
def Charged (reader : CallReader) (decode : List Token → Text) (prepared : Prepared) (parser : Option OutputParser)
    (events : List StreamEvent) : Prop :=
  let usage := Usage.new prepared.promptTokens (completions (finals events))
  (∃ out, collect reader decode prepared parser events = .ok out ∧ out.usage = usage) ∧
    (sseStream reader decode prepared parser true (events.map .ok)).1.recorded = some usage

theorem finals_cons (e : StreamEvent) (events : List StreamEvent) :
    finals (e :: events) = (finalOf e).toList ++ finals events := by
  cases h : finalOf e <;> simp [finals, h]

/-- While a last word is still to come, a drain goes on. With it the drain ends, the sum is complete and every
choice has the reason it was given. -/
theorem drain_ends (c : Collecting) (only : ∀ e ∈ events, delivers e)
    (open_ : ∀ i ∈ (finals events).map Final.choice, c.finishes[i]? = some none)
    (once : ((finals events).map Final.choice).Nodup)
    (count : c.done + (finals events).length = prepared.choices) {last : Final} (some_ : (finals events).getLast? = some last) :
    ∃ c', (∀ more, c.drain reader decode prepared (events ++ more) = .ok c') ∧
      c'.usage = Usage.new last.prompt (c.usage.completionTokens + completions (finals events)) ∧
      c'.accs.length = c.accs.length ∧
      ∀ i reason, c.finishes[i]? = some (some reason) ∨ (∃ p n, .done i reason p n ∈ events) →
        c'.finishes[i]? = some (some reason) := by
  induction events generalizing c with
  | nil => simp [finals] at some_
  | cons e events ih =>
    have only' : ∀ e ∈ events, delivers e := fun e he => only e (by simp [he])
    cases e with
    | started _ =>
      rw [finals_cons] at open_ once count some_ ⊢
      obtain ⟨c', drained, total, accs, kept⟩ := ih c only' open_ once count some_
      exact ⟨c', drained, total, accs, fun i reason known => kept i reason (known.imp_right fun ⟨p, n, mem⟩ => ⟨p, n, by simpa using mem⟩)⟩
    | token choice text logprob top =>
      rw [finals_cons] at open_ once count some_ ⊢
      obtain ⟨c₁, is, finishes, done, usage, accs⟩ : ∃ c₁, c.event reader decode prepared (.token choice text logprob top) =
          .ok (c₁, true) ∧ c₁.finishes = c.finishes ∧ c₁.done = c.done ∧ c₁.usage = c.usage ∧ c₁.accs.length = c.accs.length :=
        ⟨_, rfl, rfl, rfl, rfl, List.length_modify ..⟩
      obtain ⟨c', drained, total, accs', kept⟩ := ih c₁ only' (finishes ▸ open_) once (done ▸ count) some_
      refine ⟨c', fun more => ?_, usage ▸ total, accs'.trans accs, fun i reason known => kept i reason ?_⟩
      · rw [List.cons_append, Collecting.drain, is]
        exact drained more
      · rw [finishes]
        exact known.imp_right fun ⟨p, n, mem⟩ => ⟨p, n, by simpa using mem⟩
    | done choice reason prompt completion =>
      rw [finals_cons] at open_ once count some_ ⊢
      simp only [finalOf, Option.toList_some, List.singleton_append, List.map_cons, List.nodup_cons,
        List.length_cons, completions, List.sum_cons] at open_ once count some_ ⊢
      have fresh := open_ choice (by simp)
      -- the entries of the choices that are still to finish are untouched
      have open' : ∀ i ∈ (finals events).map Final.choice, (c.finishes.set choice (some reason))[i]? = some none := by
        intro i hi
        have other : choice ≠ i := fun same => once.1 (same ▸ hi)
        rw [List.getElem?_set_ne other]
        exact open_ i (by simp [hi])
      obtain ⟨c₁, is, finishes, done, usage, accs⟩ : ∃ c₁, c.event reader decode prepared (.done choice reason prompt completion) =
          .ok (c₁, c.done + 1 < prepared.choices) ∧ c₁.finishes = c.finishes.set choice (some reason) ∧
          c₁.done = c.done + 1 ∧ c₁.usage = Usage.new prompt (c.usage.completionTokens + completion) ∧ c₁.accs = c.accs := by
        simp only [Collecting.event, fresh, ↓reduceIte]
        split <;> exact ⟨_, rfl, rfl, rfl, rfl, rfl⟩
      have inside : choice < c.finishes.length := (List.getElem?_eq_some_iff.mp fresh).1
      have told : ∀ i r, c.finishes[i]? = some (some r) ∨
          (∃ p n, .done i r p n ∈ .done choice reason prompt completion :: events) →
          c₁.finishes[i]? = some (some r) ∨ ∃ p n, .done i r p n ∈ events := by
        rintro i r (known | ⟨p, n, mem⟩)
        · have other : choice ≠ i := by
            rintro rfl
            rw [fresh] at known
            cases known
          rw [finishes, List.getElem?_set_ne other]
          exact .inl known
        · rcases List.mem_cons.mp mem with here | later
          · injection here with same same'
            subst same same'
            exact .inl (by rw [finishes, List.getElem?_set_self inside])
          · exact .inr ⟨p, n, later⟩
      simp only [List.cons_append, Collecting.drain, is]
      cases left : finals events with
      | nil =>
        rw [left] at count some_
        obtain rfl := Option.some.inj some_
        have ended : ¬c.done + 1 < prepared.choices := by
          rw [List.length_nil] at count
          omega
        rw [decide_eq_false ended]
        refine ⟨c₁, fun more => rfl, by simp [usage, Usage.new], by rw [accs], fun i r known => ?_⟩
        rcases told i r known with known | ⟨p, n, mem⟩
        · exact known
        · have none := List.filterMap_eq_nil_iff.mp left _ mem
          cases none
      | cons f fs =>
        rw [left] at count some_
        have more : c.done + 1 < prepared.choices := by
          rw [List.length_cons] at count
          omega
        rw [decide_eq_true more]
        rw [List.getLast?_cons_cons, ← left] at some_
        obtain ⟨c', drained, total, accs', kept⟩ := ih c₁ only' (finishes ▸ open') once.2 (by rw [done, left]; omega) some_
        refine ⟨c', drained, ?_, accs'.trans (by rw [accs]), fun i r known => kept i r (told i r known)⟩
        rw [total, usage, left]
        simp [Usage.new, completions]
        omega
    | decided _ _ => cases only _ (List.mem_cons_self ..)
    | transcribed _ _ _ => cases only _ (List.mem_cons_self ..)
    | failed _ => cases only _ (List.mem_cons_self ..)

theorem token_event (prepared : Prepared) (s : Streaming) (choice : Nat) (text : Text) (logprob : Option ℚ) (top : Option (List TokenLogprob)) :
    ∃ s' frames, s.event reader decode prepared (.ok (.token choice text logprob top)) = (s', frames, true) ∧
      s'.promptTokens = s.promptTokens ∧ s'.completionTokens = s.completionTokens + 1 ∧
      s'.choicesLeft = s.choicesLeft := by
  simp only [Streaming.event]
  split <;> exact ⟨_, _, rfl, rfl, rfl, rfl⟩

/-- The first choice's last word sets the count; another choice's leaves it. -/
theorem done_event (prepared : Prepared) (s : Streaming) (choice : Nat) (reason : FinishReason) (p c : Nat) :
    ∃ s' frames, s.event reader decode prepared (.ok (.done choice reason p c)) =
        (s', frames, decide (0 < s.choicesLeft - 1)) ∧
      s'.promptTokens = (if choice = 0 then p else s.promptTokens) ∧
      s'.completionTokens = (if choice = 0 then c else s.completionTokens) ∧
      s'.choicesLeft = s.choicesLeft - 1 ∧
      (¬0 < s.choicesLeft - 1 → s'.recorded = some (Usage.new s'.promptTokens s'.completionTokens)) ∧
      ∃ reason', .data (.finishFor choice reason') ∈ frames := by
  obtain ⟨prompt, completion, left⟩ : (s.count prepared choice reason p c).promptTokens =
        (if choice = 0 then p else s.promptTokens) ∧
      (s.count prepared choice reason p c).completionTokens = (if choice = 0 then c else s.completionTokens) ∧
      (s.count prepared choice reason p c).choicesLeft = s.choicesLeft := by
    unfold Streaming.count
    split <;> exact ⟨rfl, rfl, rfl⟩
  simp only [Streaming.event, left]
  by_cases more : 0 < s.choicesLeft - 1
  · rw [if_pos more, decide_eq_true more]
    exact ⟨_, _, rfl, prompt, completion, rfl, fun none => absurd more none, _, List.mem_append_right _ (List.mem_singleton_self _)⟩
  · rw [if_neg more, decide_eq_false more]
    exact ⟨_, _, rfl, prompt, completion, rfl, fun _ => rfl, _, List.mem_append_right _ (List.mem_singleton_self _)⟩

/-- Tokens are followed by their choice's last word. -/
def Ends (events : List StreamEvent) : Prop :=
  ∀ pre choice text logprob top post, events = pre ++ .token choice text logprob top :: post → finals post ≠ []

theorem Ends.tail {e : StreamEvent} (h : Ends (e :: events)) : Ends events :=
  fun pre choice text logprob top post same => h (e :: pre) choice text logprob top post (by rw [same]; rfl)

theorem Ends.no_tokens (h : Ends events) (none : finals events = []) : tokens events = 0 := by
  refine List.countP_eq_zero.mpr fun e he token => ?_
  obtain ⟨pre, post, split⟩ := List.append_of_mem he
  cases e with
  | token choice text logprob top =>
    refine h pre choice text logprob top post split ?_
    rw [split, finals, List.filterMap_append, List.append_eq_nil_iff] at none
    simpa [finals, finalOf] using none.2
  | _ => cases token

/-- A stream that has counted the first choice in counts tokens from then on. -/
theorem drain_recorded (s : Streaming) (only : ∀ e ∈ events, delivers e)
    (first : 0 ∉ (finals events).map Final.choice) (ends : Ends events)
    (count : s.choicesLeft = (finals events).length) (some_ : finals events ≠ []) :
    (s.drain reader decode prepared (events.map .ok)).1.recorded =
      some (Usage.new s.promptTokens (s.completionTokens + tokens events)) := by
  induction events generalizing s with
  | nil => exact absurd rfl some_
  | cons e events ih =>
    have only' : ∀ e ∈ events, delivers e := fun e he => only e (by simp [he])
    cases e with
    | started _ =>
      rw [finals_cons] at first count some_
      exact ih s only' first ends.tail count some_
    | token choice text logprob top =>
      rw [finals_cons] at first count some_
      obtain ⟨s', frames, is, prompt, completion, left⟩ :=
        token_event reader decode prepared s choice text logprob top
      have rest := ih s' only' first ends.tail (left.trans count) some_
      rw [List.map_cons, Streaming.drain, is]
      simp only [rest, prompt, completion]
      rw [show tokens (.token choice text logprob top :: events) = tokens events + 1 from List.countP_cons_of_pos rfl]
      congr 2
      omega
    | done choice reason p c =>
      rw [finals_cons] at first count
      simp only [finalOf, Option.toList_some, List.singleton_append, List.map_cons, List.mem_cons, not_or,
        List.length_cons] at first count
      obtain ⟨s', frames, is, prompt, completion, left, last, -⟩ :=
        done_event reader decode prepared s choice reason p c
      rw [if_neg (Ne.symm first.1)] at prompt completion
      have same : tokens (.done choice reason p c :: events) = tokens events := List.countP_cons_of_neg (by simp [isToken])
      rw [List.map_cons, Streaming.drain, is, same]
      by_cases more : 0 < s.choicesLeft - 1
      · have some' : finals events ≠ [] := List.ne_nil_of_length_pos (by omega)
        rw [decide_eq_true more]
        simp only [ih s' only' first.2 ends.tail (by omega) some', prompt, completion]
      · have none : finals events = [] := List.eq_nil_of_length_eq_zero (by omega)
        rw [decide_eq_false more]
        simp only [last more, prompt, completion, ends.tail.no_tokens none, Nat.add_zero]
    | decided _ _ => cases only _ (List.mem_cons_self ..)
    | transcribed _ _ _ => cases only _ (List.mem_cons_self ..)
    | failed _ => cases only _ (List.mem_cons_self ..)

/-- What a stream ends with: the first choice's counts, and a token for each that comes after it. -/
theorem drain_first (s : Streaming) (only : ∀ e ∈ events, delivers e)
    (once : ((finals events).map Final.choice).Nodup) (ends : Ends events)
    (count : s.choicesLeft = (finals events).length) {first : Final} (mem : first ∈ finals events) (zero : first.choice = 0) :
    (s.drain reader decode prepared (events.map .ok)).1.recorded =
      some (Usage.new first.prompt (first.completion + tokens (afterFirst events))) := by
  induction events generalizing s with
  | nil => cases mem
  | cons e events ih =>
    have only' : ∀ e ∈ events, delivers e := fun e he => only e (by simp [he])
    cases e with
    | started _ =>
      rw [finals_cons] at once count mem
      exact ih s only' once ends.tail count mem
    | token choice text logprob top =>
      rw [finals_cons] at once count mem
      obtain ⟨s', frames, is, prompt, completion, left⟩ :=
        token_event reader decode prepared s choice text logprob top
      have rest := ih s' only' once ends.tail (left.trans count) mem
      rw [List.map_cons, Streaming.drain, is]
      exact rest
    | done choice reason p c =>
      rw [finals_cons] at once count mem
      simp only [finalOf, Option.toList_some, List.singleton_append, List.map_cons, List.nodup_cons, List.mem_cons,
        List.length_cons] at once count mem
      obtain ⟨s', frames, is, prompt, completion, left, last, -⟩ :=
        done_event reader decode prepared s choice reason p c
      rw [List.map_cons, Streaming.drain, is]
      by_cases its : choice = 0
      · rw [if_pos its] at prompt completion
        have is₁ : first = ⟨choice, p, c⟩ := by
          refine mem.resolve_right fun later => once.1 ?_
          exact List.mem_map.mpr ⟨first, later, zero.trans its.symm⟩
        subst is₁
        have after : afterFirst (.done choice reason p c :: events) = events := by
          simp [afterFirst, closesFirst, finalOf, its]
        rw [after]
        by_cases more : 0 < s.choicesLeft - 1
        · have some' : finals events ≠ [] := List.ne_nil_of_length_pos (by omega)
          rw [decide_eq_true more]
          simp only [drain_recorded reader decode s' only' (its ▸ once.1) ends.tail (by omega) some', prompt, completion]
        · have none : finals events = [] := List.eq_nil_of_length_eq_zero (by omega)
          rw [decide_eq_false more]
          simp only [last more, prompt, completion, ends.tail.no_tokens none, Nat.add_zero]
      · have later : first ∈ finals events := mem.resolve_left fun same => its (by rw [← zero, same])
        have after : afterFirst (.done choice reason p c :: events) = afterFirst events := by
          simp [afterFirst, closesFirst, finalOf, its]
        have more : 0 < s.choicesLeft - 1 := by
          have := List.length_pos_of_mem later
          omega
        rw [decide_eq_true more, after]
        exact ih s' only' once.2 ends.tail (by omega) later
    | decided _ _ => cases only _ (List.mem_cons_self ..)
    | transcribed _ _ _ => cases only _ (List.mem_cons_self ..)
    | failed _ => cases only _ (List.mem_cons_self ..)

theorem completions_split {fs : List Final} {first : Final} (once : (fs.map Final.choice).Nodup) (mem : first ∈ fs)
    (zero : first.choice = 0) : completions fs = first.completion + completions (fs.filter (·.choice ≠ 0)) := by
  induction fs with
  | nil => cases mem
  | cons f fs ih =>
    simp only [List.map_cons, List.nodup_cons] at once
    rcases List.mem_cons.mp mem with rfl | later
    · have rest : fs.filter (·.choice ≠ 0) = fs := List.filter_eq_self.mpr fun g hg => by
        have other : g.choice ≠ first.choice := fun same => once.1 (List.mem_map.mpr ⟨g, hg, same⟩)
        simpa [zero] using other
      rw [List.filter_cons_of_neg (by simp [zero]), rest]
      simp [completions]
    · have other : f.choice ≠ 0 := fun same => once.1 (List.mem_map.mpr ⟨first, later, zero.trans same.symm⟩)
      have rest := ih once.2 later
      simp only [completions, List.map_cons, List.sum_cons] at rest ⊢
      rw [List.filter_cons_of_pos (by simpa using other), List.map_cons, List.sum_cons, rest]
      omega

/-- A request is charged alike however it is delivered just when the choice that finishes last and the first
choice carry its prompt's count, and as many tokens come after the first choice as the others have completed. -/
theorem usage_charged_iff (reader : CallReader) (decode : List Token → Text) (prepared : Prepared)
    (parser : Option OutputParser) {events : List StreamEvent} (inter : Interleaving prepared.choices events) :
    Charged reader decode prepared parser events ↔
      (∀ last ∈ (finals events).getLast?, last.prompt = prepared.promptTokens) ∧
      ∀ first ∈ finals events, first.choice = 0 → first.prompt = prepared.promptTokens ∧
        tokens (afterFirst events) = completions ((finals events).filter (·.choice ≠ 0)) := by
  have length : (finals events).length = prepared.choices := by
    simpa using inter.once.length_eq
  have once : ((finals events).map Final.choice).Nodup := inter.once.nodup_iff.mpr List.nodup_range
  have pos : 0 < prepared.choices := Nat.lt_of_lt_of_le Nat.one_pos (Nat.le_max_right _ _)
  have some_ : finals events ≠ [] := List.ne_nil_of_length_pos (by omega)
  obtain ⟨first, mem, zero⟩ : ∃ first ∈ finals events, first.choice = 0 :=
    List.mem_map.mp (inter.once.mem_iff.mpr (List.mem_range.mpr pos))
  have last := List.getLast?_eq_some_getLast some_
  have ends : Ends events := fun pre choice text logprob top post same none => by
    have later := inter.ends pre choice text logprob top post same
    rw [none] at later
    cases later
  have open_ : ∀ i ∈ (finals events).map Final.choice,
      (Collecting.start prepared parser).finishes[i]? = some none := by
    intro i hi
    have lt := List.mem_range.mp (inter.once.mem_iff.mp hi)
    simp [Collecting.start, lt]
  have count : (Collecting.start prepared parser).done + (finals events).length = prepared.choices := by
    rw [length]
    exact Nat.zero_add _
  obtain ⟨c, drained, usage, -⟩ := drain_ends reader decode (Collecting.start prepared parser) inter.only open_ once count last
  have collected : collect reader decode prepared parser events = .ok c.finish := by
    rw [collect, ← List.append_nil events, drained]
    rfl
  have streamed : ((Streaming.start prepared parser).drain reader decode prepared (events.map .ok)).1.recorded = _ :=
    drain_first reader decode (Streaming.start prepared parser) inter.only once ends length.symm mem zero
  have sum := completions_split once mem zero
  have none : (Collecting.start prepared parser).usage.completionTokens = 0 := rfl
  have charged : Charged reader decode prepared parser events ↔
      c.usage = Usage.new prepared.promptTokens (completions (finals events)) ∧
        Usage.new first.prompt (first.completion + tokens (afterFirst events)) =
          Usage.new prepared.promptTokens (completions (finals events)) := by
    have recorded : (sseStream reader decode prepared parser true (events.map .ok)).1.recorded = _ := streamed
    unfold Charged
    simp only [recorded, collected, Except.ok.injEq, exists_eq_left', Option.some.injEq]
    rfl
  rw [charged, usage, none, Nat.zero_add, Usage.new_inj, Usage.new_inj, last, sum]
  constructor
  · rintro ⟨⟨right, -⟩, prompt, after⟩
    refine ⟨fun l hl => by rw [← Option.some.inj hl]; exact right, fun f hf zero' => ?_⟩
    obtain rfl : f = first := List.inj_on_of_nodup_map once hf mem (zero'.trans zero.symm)
    exact ⟨prompt, Nat.add_left_cancel after⟩
  · rintro ⟨right, rest⟩
    obtain ⟨prompt, after⟩ := rest first mem zero
    exact ⟨⟨right _ rfl, rfl⟩, prompt, by rw [after]⟩

section Example

def noCalls : CallReader := ⟨fun _ _ => none, fun s => s⟩

def twoChoices : Prepared := ⟨2, 5, false⟩

/-- Both choices have said their only token when the first one ends. -/
def firstEndsLate : List StreamEvent :=
  [.token 0 ['a'] none none, .token 1 ['b'] none none, .done 0 .stop 5 1, .done 1 .stop 5 1]

/-- The second choice says its token when the first one has ended. -/
def firstEndsEarly : List StreamEvent :=
  [.token 0 ['a'] none none, .done 0 .stop 5 1, .token 1 ['b'] none none, .done 1 .stop 5 1]

theorem firstEndsLate_interleaving : Interleaving twoChoices.choices firstEndsLate := by
  refine ⟨by decide, by decide, ?_⟩
  intro pre choice text logprob top post same
  rcases pre with _ | ⟨_, _ | ⟨_, _ | ⟨_, _ | ⟨_, pre⟩⟩⟩⟩ <;> simp [firstEndsLate] at same
  · obtain ⟨⟨rfl, -⟩, rfl⟩ := same
    decide
  · obtain ⟨-, ⟨rfl, -⟩, rfl⟩ := same
    decide

/-- Two choices and no token after the first one's last word: the other's completion is not on the bill. -/
theorem usage_of_second_choice_lost :
    Interleaving twoChoices.choices firstEndsLate ∧
      ¬Charged noCalls (fun _ => []) twoChoices none firstEndsLate := by
  refine ⟨firstEndsLate_interleaving, ?_⟩
  rintro ⟨-, recorded⟩
  exact absurd recorded (by decide)

theorem usage_charged_iff_early : Charged noCalls (fun _ => []) twoChoices none firstEndsEarly := by
  have inter : Interleaving twoChoices.choices firstEndsEarly := by
    refine ⟨by decide, by decide, ?_⟩
    intro pre choice text logprob top post same
    rcases pre with _ | ⟨_, _ | ⟨_, _ | ⟨_, _ | ⟨_, pre⟩⟩⟩⟩ <;> simp [firstEndsEarly] at same
    · obtain ⟨⟨rfl, -⟩, rfl⟩ := same
      decide
    · obtain ⟨-, -, ⟨rfl, -⟩, rfl⟩ := same
      decide
  refine (usage_charged_iff noCalls (fun _ => []) twoChoices none inter).mpr ⟨?_, ?_⟩
  · intro last is
    cases is
    rfl
  · decide

end Example

end Vapi.Gateway
