import Vapi.Worker.Emission

/-!
# Stop strings under a parser

What the parser makes of the deltas of a choice is what it would make of the
tokens, if holding text back never lets half of a marker go.
-/

namespace Vapi.Worker

open Gateway StopCondition

/-- Texts cut off after so many characters. -/
def takeTexts : Nat → List Text → List Text
  | _, [] => []
  | n, text :: texts => text.take n :: takeTexts (n - text.length) texts

/-- The texts of the tokens, cut before the stop string. -/
def rawTexts (stop : StopCondition) (texts : List Text) : List Text :=
  match stopAt stop [] texts with
  | some c => takeTexts c texts
  | none => texts

/-- Each marker appears only as the whole text of a token. -/
def WholeMarkers (fmt : OutputFormat) (texts : List Text) : Prop :=
  ∀ m ∈ fmt.markers, ∀ pre post, texts.flatten = pre ++ m ++ post → ∃ ts us, texts = ts ++ m :: us ∧ ts.flatten = pre

/-- What can go out after some tokens never ends inside a marker. -/
def Clear (fmt : OutputFormat) (stop : StopCondition) (texts : List Text) : Prop :=
  ∀ ts us, texts = ts ++ us → stop.findStopString ts.flatten = none →
    ∀ m ∈ fmt.markers, ∀ pre post, texts.flatten = pre ++ m ++ post →
      (stop.sent ts.flatten).length ≤ pre.length ∨ pre.length + m.length ≤ (stop.sent ts.flatten).length

variable {fmt : OutputFormat} {stop : StopCondition} {texts : List Text}

theorem straddles_at {m a b all : Text} (straddles : Straddles m a b) (within : a ++ b <+: all) :
    ∃ pre post, all = pre ++ m ++ post ∧ pre.length < a.length ∧ a.length < pre.length + m.length := by
  obtain ⟨x, y, hx, hy, rfl, ⟨u, rfl⟩, ⟨v, rfl⟩⟩ := straddles
  obtain ⟨w, rfl⟩ := within
  have := List.length_pos_iff.mpr hx
  have := List.length_pos_iff.mpr hy
  exact ⟨u, v ++ w, by simp [List.append_assoc], by simp; omega, by simp; omega⟩

/-- Tokens end outside of the markers. -/
theorem WholeMarkers.outside (whole : WholeMarkers fmt texts) {ts us : List Text} (split : texts = ts ++ us)
    {m : Text} (mem : m ∈ fmt.markers) {pre post : Text} (at_ : texts.flatten = pre ++ m ++ post) :
    ts.flatten.length ≤ pre.length ∨ pre.length + m.length ≤ ts.flatten.length := by
  obtain ⟨before, after, is, rfl⟩ := whole m mem pre post at_
  rw [split] at is
  rcases List.append_eq_append_iff.mp is with ⟨between, rfl, -⟩ | ⟨between, rfl, rest⟩
  · left
    simp
  · cases between with
    | nil =>
      left
      simp
    | cons first between =>
      right
      obtain ⟨rfl, -⟩ := List.cons.inj rest
      simp

theorem takeTexts_flatten (n : Nat) (texts : List Text) : (takeTexts n texts).flatten = texts.flatten.take n := by
  induction texts generalizing n with
  | nil => simp [takeTexts]
  | cons text texts ih => simp [takeTexts, ih, List.take_append]

theorem takeTexts_append (n : Nat) (ts us : List Text) :
    takeTexts n (ts ++ us) = takeTexts n ts ++ takeTexts (n - ts.flatten.length) us := by
  induction ts generalizing n with
  | nil => simp [takeTexts]
  | cons t ts ih => simp [takeTexts, ih, Nat.sub_add_eq]

theorem takeTexts_length (n : Nat) (texts : List Text) : (takeTexts n texts).length = texts.length := by
  induction texts generalizing n with
  | nil => rfl
  | cons text texts ih => simp [takeTexts, ih]

theorem rawTexts_flatten (stop : StopCondition) (texts : List Text) :
    (rawTexts stop texts).flatten = said stop [] texts := by
  unfold rawTexts said
  cases stopAt stop [] texts with
  | none => rfl
  | some c => exact takeTexts_flatten c texts

theorem said_starts (stop : StopCondition) (texts : List Text) : said stop [] texts <+: texts.flatten := by
  unfold said
  cases stopAt stop [] texts with
  | none => exact List.prefix_rfl
  | some c => exact List.take_prefix c _

/-- A cut of the raw texts is one between tokens, or at the end. -/
theorem rawTexts_cut {xs ys : List Text} (split : rawTexts stop texts = xs ++ ys) :
    ys.flatten = [] ∨ ∃ ts us, texts = ts ++ us ∧ xs.flatten = ts.flatten := by
  unfold rawTexts at split
  cases at_ : stopAt stop [] texts with
  | none =>
    rw [at_] at split
    exact .inr ⟨xs, ys, split, rfl⟩
  | some c =>
    simp only [at_] at split
    have parts := takeTexts_append c (texts.take xs.length) (texts.drop xs.length)
    rw [List.take_append_drop, split] at parts
    obtain ⟨left, right⟩ := List.append_inj parts (by
      have length := congrArg List.length split
      rw [takeTexts_length, List.length_append] at length
      rw [takeTexts_length, List.length_take]
      omega)
    by_cases inside : c ≤ (texts.take xs.length).flatten.length
    · left
      rw [right, takeTexts_flatten, Nat.sub_eq_zero_of_le inside, List.take_zero]
    · refine .inr ⟨_, _, (List.take_append_drop xs.length texts).symm, ?_⟩
      conv_lhs => rw [left]
      rw [takeTexts_flatten, List.take_of_length_le (by omega)]

theorem unbroken_raw (whole : WholeMarkers fmt texts) : Unbroken fmt (rawTexts stop texts) := by
  intro xs ys split m mem straddles
  rcases rawTexts_cut split with none_ | ⟨ts, us, is, same⟩
  · obtain ⟨x, y, -, some_, -, -, right⟩ := straddles
    exact some_ (List.prefix_nil.mp (none_ ▸ right))
  · have within : xs.flatten ++ ys.flatten <+: texts.flatten := by
      rw [← List.flatten_append, ← split, rawTexts_flatten]
      exact said_starts stop texts
    obtain ⟨pre, post, at_, before, after⟩ := straddles_at straddles within
    have := whole.outside is mem at_
    rw [← same] at this
    omega

theorem findStopString_nil (stop : StopCondition) : stop.findStopString [] = none :=
  findStopString_none.mpr fun _ _ some_ => cut_nil some_

theorem sent_nil (stop : StopCondition) : stop.sent [] = [] := List.prefix_nil.mp (sent_starts stop [])

theorem unbroken_deltas (clear : Clear fmt stop texts) : Unbroken fmt (deltas stop {} texts) := by
  intro xs ys split m mem straddles
  obtain ⟨flat, cuts⟩ := @deltas_spec stop {} [] texts rfl (findStopString_nil stop) (sent_nil stop)
  rw [List.nil_append, List.nil_append] at flat
  rcases cuts xs ys split with none_ | ⟨ts, us, is, free, same⟩
  · obtain ⟨x, y, -, some_, -, -, right⟩ := straddles
    exact some_ (List.prefix_nil.mp (none_ ▸ right))
  · have within : xs.flatten ++ ys.flatten <+: texts.flatten := by
      rw [← List.flatten_append, ← split, flat]
      exact said_starts stop texts
    obtain ⟨pre, post, at_, before, after⟩ := straddles_at straddles within
    have := clear ts us is free m mem pre post at_
    rw [List.nil_append] at same
    rw [same] at before after
    simp only [List.nil_append] at before after
    omega

/-- The parser makes the same of what goes out as of the tokens, cut before the first stop string. -/
theorem held_back_parsed_alike (reader : CallReader) (fmt : OutputFormat) (seed : String) (stop : StopCondition)
    (texts : List Text) (reason : FinishReason) (whole : WholeMarkers fmt texts) (clear : Clear fmt stop texts) :
    (({ parser := some (.new fmt seed) } : Parsed).pushAll reader (deltas stop {} texts)).finish reason =
      (({ parser := some (.new fmt seed) } : Parsed).pushAll reader (rawTexts stop texts)).finish reason := by
  have sound : (OutputParser.new fmt seed).Sound := fun think => (Bool.and_eq_true _ _ ▸ think : _ ∧ _).1
  obtain ⟨flat, -⟩ := @deltas_spec stop {} [] texts rfl (findStopString_nil stop) (sent_nil stop)
  rw [List.nil_append, List.nil_append] at flat
  have out := Parsed.pushAll_flatten reader sound {} (unbroken_deltas clear)
  have unbroken : Unbroken fmt (rawTexts stop texts) := unbroken_raw whole
  have raw := Parsed.pushAll_flatten reader sound {} unbroken
  rw [rawTexts_flatten, ← flat] at raw
  rw [out, raw]

/-- Stop strings of one byte hold nothing back. -/
theorem clear_of_short (whole : WholeMarkers fmt texts) (short : stop.maxStopLen ≤ 1) : Clear fmt stop texts := by
  intro ts us split _ m mem pre post at_
  have all : stop.sent ts.flatten = ts.flatten := by
    have all := takeBytes_append ts.flatten [] 0
    rw [sent, Nat.sub_eq_zero_of_le short]
    simpa [takeBytes] using all
  rw [all]
  exact whole.outside split mem at_

theorem WholeMarkers.of_places (places : ∀ m ∈ fmt.markers, ∀ k ≤ texts.flatten.length,
      m.isPrefixOf (texts.flatten.drop k) →
        ∃ i < texts.length, (texts.take i).flatten.length = k ∧ texts[i]? = some m) : WholeMarkers fmt texts := by
  intro m mem pre post at_
  have begins : m.isPrefixOf (texts.flatten.drop pre.length) = true := by
    rw [at_, List.append_assoc, List.drop_left]
    exact List.isPrefixOf_iff_prefix.mpr (List.prefix_append m post)
  obtain ⟨i, less, length, is⟩ := places m mem pre.length (by simp [at_]) begins
  have split : texts = texts.take i ++ m :: texts.drop (i + 1) := by
    obtain ⟨_, is⟩ := List.getElem?_eq_some_iff.mp is
    rw [← is, ← List.drop_eq_getElem_cons, List.take_append_drop]
  refine ⟨_, _, split, ?_⟩
  have within : (texts.take i).flatten <+: texts.flatten := by
    conv_rhs => rw [split]
    rw [List.flatten_append]
    exact List.prefix_append _ _
  have pre_ : pre <+: texts.flatten := ⟨m ++ post, by rw [at_, List.append_assoc]⟩
  exact (List.prefix_of_prefix_length_le within pre_ length.le).eq_of_length length

section Example

/-- Tokens, each its own text. -/
def tokensOf (texts : List String) : List Text := texts.map String.toList

def noCall : CallReader := ⟨fun _ _ => none, id⟩

def closing : List Text := tokensOf ["so", "</think>", "yes.", "no"]

theorem closing_whole : WholeMarkers (.lfm2 true) closing := .of_places (by decide +kernel)

def parsed (texts : List Text) : ParsedOutput × FinishReason :=
  (({ parser := some (.new (.lfm2 true) "seed") } : Parsed).pushAll noCall texts).finish .stop

/-- A stop string of three bytes keeps two back: the first six of the closing marker go without them. -/
theorem marker_cut_in_two :
    WholeMarkers (.lfm2 true) closing ∧
      parsed (deltas { stopStrings := ["END".toList] } {} closing) ≠
        parsed (rawTexts { stopStrings := ["END".toList] } closing) :=
  ⟨closing_whole, by decide +kernel⟩

theorem held_back_parsed_alike_short :
    parsed (deltas { stopStrings := [".".toList] } {} closing) =
      parsed (rawTexts { stopStrings := [".".toList] } closing) :=
  held_back_parsed_alike noCall (.lfm2 true) "seed" { stopStrings := [".".toList] } closing .stop closing_whole
    (clear_of_short closing_whole (by decide))

end Example

end Vapi.Worker
