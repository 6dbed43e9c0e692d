import Vapi.Core.Sampling
import Vapi.Engine.Detokenize
import Vapi.Worker.Emission

/-!
# Where the text is sliced

`emit_with_stop_strings` counts in bytes. Each of its slices is at a character
boundary, and what it emits of a choice, with what is flushed at the end, is
the text up to where the first piece that completes a stop string lets it go.
-/

namespace Vapi

open Gateway (cut cut_eq)
open Engine (fromByte fromByte_append)

/-- The text before a byte, none in the middle of a character or past the end. -/
def uptoByte : Nat → Text → Option Text
  | 0, _ => some []
  | _ + 1, [] => none
  | n + 1, c :: rest => if c.utf8Size ≤ n + 1 then (uptoByte (n + 1 - c.utf8Size) rest).map (c :: ·) else none

def isCharBoundary (text : Text) (n : Nat) : Bool := (uptoByte n text).isSome

/-- The last boundary up to a byte. -/
def floorBoundary (text : Text) : Nat → Nat
  | 0 => 0
  | n + 1 => if isCharBoundary text (n + 1) then n + 1 else floorBoundary text n

/-- As counted in the source, where a text with a stop string is cut. -/
def StopCondition.findStopByte (stop : StopCondition) (text : Text) : Option Nat :=
  ((stop.stopStrings.filter (· ≠ [])).filterMap fun s =>
    (cut s text).map fun p => if stop.includeStopStr then bytes p.1 + bytes s else bytes p.1).min?

namespace Worker

/-- Emitting with every slice at its byte; a slice outside the text is none. -/
def emitSliced (st : StreamState) (stop : StopCondition) (text : Text) : Option (StreamState × Option Text) :=
  if stop.stopStrings = [] then some (st, if text = [] then none else some text)
  else
    let held := st.held ++ text
    match stop.findStopByte held with
    | some cut => do
      let out ← uptoByte cut held
      some (⟨[], true⟩, if out = [] then none else some out)
    | none =>
      let keep := stop.maxStopLen - 1
      if bytes held ≤ keep then some ({ st with held }, none)
      else
        let cut := floorBoundary held (bytes held - keep)
        if cut = 0 then some ({ st with held }, none)
        else do
          let out ← uptoByte cut held
          let held ← fromByte cut held
          some ({ st with held }, some out)

/-- The pieces of a choice in turn, none after the one that stops it. -/
def emitAll (stop : StopCondition) (st : StreamState) : List Text → Option (List Text × StreamState)
  | [] => some ([], st)
  | text :: texts => do
    let (st, out) ← emitSliced st stop text
    if st.stopped then some (out.toList, st)
    else
      let (outs, st) ← emitAll stop st texts
      some (out.toList ++ outs, st)

/-- What is still held when a sequence ends. -/
def flushHeld (reason : FinishReason) (st : StreamState) : List Text :=
  if st.held ≠ [] ∧ reason ≠ .cancelled then [st.held] else []

end Worker

section Bytes

theorem uptoByte_append (a b : Text) : uptoByte (bytes a) (a ++ b) = some a := by
  induction a with
  | nil => simp [bytes, uptoByte]
  | cons c a ih =>
    have positive := c.utf8Size_pos
    have length : bytes (c :: a) = c.utf8Size + bytes a := by simp [bytes]
    obtain ⟨n, e⟩ : ∃ n, bytes (c :: a) = n + 1 := ⟨c.utf8Size - 1 + bytes a, by omega⟩
    rw [e, List.cons_append, uptoByte, if_pos (by omega), ← e, length, Nat.add_sub_cancel_left, ih]
    rfl

theorem uptoByte_some {n : Nat} {text a : Text} (sliced : uptoByte n text = some a) : a <+: text ∧ bytes a = n := by
  induction text generalizing n a with
  | nil =>
    cases n with
    | zero =>
      cases sliced
      exact ⟨List.prefix_rfl, rfl⟩
    | succ n => cases sliced
  | cons c text ih =>
    cases n with
    | zero =>
      cases sliced
      exact ⟨List.nil_prefix, rfl⟩
    | succ n =>
      rw [uptoByte] at sliced
      split at sliced
      · rename_i fits
        obtain ⟨rest, within, rfl⟩ := Option.map_eq_some_iff.mp sliced
        obtain ⟨starts, length⟩ := ih within
        refine ⟨(List.prefix_cons_inj c).mpr starts, ?_⟩
        simp only [bytes, List.map_cons, List.sum_cons] at length ⊢
        omega
      · cases sliced

theorem isCharBoundary_iff {text : Text} {n : Nat} : isCharBoundary text n = true ↔ ∃ a, a <+: text ∧ bytes a = n := by
  constructor
  · intro boundary
    obtain ⟨a, sliced⟩ := Option.isSome_iff_exists.mp boundary
    exact ⟨a, uptoByte_some sliced⟩
  · rintro ⟨a, ⟨b, rfl⟩, rfl⟩
    rw [isCharBoundary, uptoByte_append]
    rfl

theorem takeBytes_all (a b : Text) : takeBytes (bytes a) (a ++ b) = a := by
  have all := takeBytes_append a b 0
  rwa [Nat.add_zero, takeBytes_zero, List.append_nil] at all

/-- A byte more makes room for no character that ends before it. -/
theorem takeBytes_succ {text : Text} {n : Nat} (inside : isCharBoundary text (n + 1) = false) :
    takeBytes (n + 1) text = takeBytes n text := by
  obtain ⟨b, is⟩ := takeBytes_starts (n + 1) text
  obtain ⟨d, is'⟩ := takeBytes_starts n text
  have most := takeBytes_bytes (n + 1) text
  generalize more : takeBytes (n + 1) text = a at *
  generalize less : takeBytes n text = c at *
  have short : bytes a ≤ n := by
    rcases Nat.lt_or_eq_of_le most with lt | eq
    · exact Nat.le_of_lt_succ lt
    · rw [isCharBoundary_iff.mpr ⟨a, ⟨b, is⟩, eq⟩] at inside
      cases inside
  obtain ⟨m, rfl⟩ := Nat.exists_eq_add_of_le short
  have starts : a <+: c := by
    rw [← less, ← is, takeBytes_append]
    exact List.prefix_append _ _
  obtain ⟨e, rfl⟩ := starts
  have starts' : a ++ e <+: a := by
    have fits : bytes (a ++ e) ≤ bytes a + m := less ▸ takeBytes_bytes _ _
    obtain ⟨k, eq⟩ := Nat.exists_eq_add_of_le (Nat.le_succ_of_le fits)
    have whole : takeBytes (bytes a + m + 1) text = a ++ e ++ takeBytes k d := by
      rw [← is', ← takeBytes_append, ← eq]
    exact ⟨takeBytes k d, (more.symm.trans whole).symm⟩
  exact (List.prefix_append a e).eq_of_length_le starts'.length_le

/-- Going down to a boundary takes the characters that fit. -/
theorem floorBoundary_eq (text : Text) (n : Nat) : floorBoundary text n = bytes (takeBytes n text) := by
  induction n with
  | zero =>
    rw [takeBytes_zero]
    rfl
  | succ n ih =>
    rw [floorBoundary]
    split
    · rename_i boundary
      obtain ⟨a, ⟨b, rfl⟩, length⟩ := isCharBoundary_iff.mp boundary
      rw [← length, takeBytes_all]
    · rename_i inside
      rw [ih, takeBytes_succ (Bool.eq_false_iff.mpr inside)]

theorem min?_map_mono {f : Nat → Nat} (mono : Monotone f) (l : List Nat) : (l.map f).min? = l.min?.map f := by
  cases is : l.min? with
  | none =>
    rw [List.min?_eq_none_iff] at is
    simp [is]
  | some m =>
    obtain ⟨mem, least⟩ := List.min?_eq_some_iff.mp is
    refine List.min?_eq_some_iff.mpr ⟨List.mem_map_of_mem mem, fun n hn => ?_⟩
    obtain ⟨i, hi, rfl⟩ := List.mem_map.mp hn
    exact mono (least i hi)

theorem bytes_take_mono (text : Text) : Monotone fun n => bytes (text.take n) := by
  intro m n le
  obtain ⟨k, rfl⟩ := Nat.exists_eq_add_of_le le
  simp only [List.take_add, bytes_append]
  omega

/-- The byte a text is cut at is where the characters before the cut end. -/
theorem findStopByte_eq (stop : StopCondition) (text : Text) :
    stop.findStopByte text = (stop.findStopString text).map fun c => bytes (text.take c) := by
  unfold StopCondition.findStopByte StopCondition.findStopString
  rw [← min?_map_mono (bytes_take_mono text), List.map_filterMap]
  congr 1
  refine List.filterMap_congr fun s _ => ?_
  cases found : cut s text with
  | none => rfl
  | some p =>
    simp only [Option.map_some, Option.some.injEq]
    rw [cut_eq found]
    split
    · rw [← List.length_append, List.take_left, bytes_append]
    · rw [List.append_assoc, List.take_left]

end Bytes

namespace Worker

variable {stop : StopCondition}

/-- No slice falls inside a character, or outside the text. -/
theorem emitSliced_eq (st : StreamState) (stop : StopCondition) (text : Text) :
    emitSliced st stop text = some (emitWithStopStrings st stop text) := by
  unfold emitSliced emitWithStopStrings
  split
  · rfl
  · simp only [findStopByte_eq]
    cases stop.findStopString (st.held ++ text) with
    | some c =>
      have sliced := uptoByte_append ((st.held ++ text).take c) ((st.held ++ text).drop c)
      rw [List.take_append_drop] at sliced
      simp only [Option.map_some, sliced, Option.bind_eq_bind, Option.bind_some]
    | none =>
      simp only [Option.map_none, floorBoundary_eq]
      generalize bytes (st.held ++ text) - (stop.maxStopLen - 1) = n
      split
      · rfl
      · obtain ⟨rest, is⟩ := takeBytes_starts n (st.held ++ text)
        generalize takeBytes n (st.held ++ text) = out at *
        have upto := uptoByte_append out rest
        have past : fromByte (bytes out) (out ++ rest) = some rest := fromByte_append out rest
        rw [is] at upto past
        rw [← is, List.drop_left, is]
        by_cases empty : out = []
        · subst empty
          rw [if_pos (show bytes [] = 0 from rfl), if_pos rfl]
        · have some_ := bytes_pos empty
          rw [if_neg (by omega), if_neg empty, upto, past]
          rfl

end Worker

namespace StopCondition

variable {stop : StopCondition} {text : Text}

/-- No stop string stands in the text. -/
def Free (stop : StopCondition) (text : Text) : Prop := ∀ s ∈ stop.stopStrings, s ≠ [] → ¬s <:+: text

/-- A stop string lets a text it stands in go up to where it begins, or where it
ends if it is included. -/
def LetsGo (stop : StopCondition) (text : Text) (c : Nat) : Prop :=
  ∃ s ∈ stop.stopStrings, s ≠ [] ∧ ∃ before after, text = before ++ s ++ after ∧
    c = if stop.includeStopStr then before.length + s.length else before.length

/-- Up to where a text goes that some stop string stands in. -/
def EndsAt (stop : StopCondition) (text : Text) (c : Nat) : Prop :=
  stop.LetsGo text c ∧ ∀ d, stop.LetsGo text d → c ≤ d

/-- A text is cut where the string first stands. -/
theorem cut_first {m before after : Text} (is : cut m text = some (before, after)) {u v : Text} (stands : text = u ++ m ++ v) :
    before.length ≤ u.length := by
  induction text generalizing before u with
  | nil =>
    unfold cut at is
    split at is
    · cases is
      exact Nat.zero_le _
    · cases is
  | cons c text ih =>
    unfold cut at is
    split at is
    · cases is
      exact Nat.zero_le _
    · rename_i elsewhere
      obtain ⟨⟨b, a⟩, found, same⟩ := Option.map_eq_some_iff.mp is
      obtain ⟨rfl, rfl⟩ := Prod.mk.inj same
      cases u with
      | nil => exact absurd (List.isPrefixOf_iff_prefix.mpr ⟨v, stands.symm⟩) elsewhere
      | cons d u => exact Nat.succ_le_succ (ih found (List.cons.inj stands).2)

theorem findStopString_free : stop.findStopString text = none ↔ stop.Free text := by
  rw [findStopString_none]
  refine ⟨fun none_ s mem some_ => Gateway.not_infix_of_cut (none_ s mem some_) some_, fun free s mem some_ => ?_⟩
  cases found : cut s text with
  | none => rfl
  | some p => exact absurd ⟨p.1, p.2, (cut_eq found).symm⟩ (free s mem some_)

theorem findStopString_ends {c : Nat} (found : stop.findStopString text = some c) : stop.EndsAt text c := by
  obtain ⟨mem, least⟩ := List.min?_eq_some_iff.mp found
  constructor
  · obtain ⟨s, listed, is⟩ := List.mem_filterMap.mp mem
    obtain ⟨listed, some_⟩ := List.mem_filter.mp listed
    obtain ⟨p, cut_, rfl⟩ := Option.map_eq_some_iff.mp is
    exact ⟨s, listed, by simpa using some_, p.1, p.2, cut_eq cut_, rfl⟩
  · rintro d ⟨s, listed, some_, before, after, stands, rfl⟩
    cases cut_ : cut s text with
    | none => exact absurd ⟨before, after, stands.symm⟩ (Gateway.not_infix_of_cut cut_ some_)
    | some p =>
      have first := cut_first cut_ stands
      refine (least _ (List.mem_filterMap.mpr ⟨s, List.mem_filter.mpr ⟨listed, by simpa using some_⟩, ?_⟩)).trans
        (show (if stop.includeStopStr then p.1.length + s.length else p.1.length) ≤ _ from ?_)
      · rw [cut_]
        rfl
      · split
        · exact Nat.add_le_add_right first _
        · exact first

/-- What goes out before a stop string that is left out has none in it. -/
theorem EndsAt.free {c : Nat} (ends : stop.EndsAt text c) (trimmed : stop.includeStopStr = false) :
    stop.Free (text.take c) := by
  rintro s listed some_ ⟨u, v, within⟩
  have goes : stop.LetsGo text u.length := by
    refine ⟨s, listed, some_, u, v ++ text.drop c, ?_, by rw [trimmed]; rfl⟩
    rw [← List.append_assoc, within, List.take_append_drop]
  have first := ends.2 u.length goes
  have length := congrArg List.length within
  have positive := List.length_pos_iff.mpr some_
  have upTo := List.length_take_le c text
  simp only [List.length_append] at length
  omega

end StopCondition

namespace Worker

variable {stop : StopCondition}

/-- The pieces from some point on: the one that completes a stop string, or all of them. -/
theorem emitAll_spec {st : StreamState} {released : Text} (texts : List Text) (on : st.stopped = false)
    (none_ : stop.findStopString (released ++ st.held) = none) (is : stop.sent (released ++ st.held) = released) :
    ∃ outs st', emitAll stop st texts = some (outs, st') ∧
      ((∃ before text after c, texts = before ++ text :: after ∧
          stop.findStopString (released ++ st.held ++ before.flatten) = none ∧
          stop.findStopString (released ++ st.held ++ before.flatten ++ text) = some c ∧ st' = ⟨[], true⟩ ∧
          released ++ outs.flatten = (released ++ st.held ++ before.flatten ++ text).take c) ∨
        (stop.findStopString (released ++ st.held ++ texts.flatten) = none ∧ st'.stopped = false ∧
          released ++ outs.flatten ++ st'.held = released ++ st.held ++ texts.flatten)) := by
  induction texts generalizing st released with
  | nil => exact ⟨[], st, rfl, .inr (by simpa using ⟨none_, on⟩)⟩
  | cons text texts ih =>
    obtain ⟨next, out, emitted⟩ : ∃ next out, emitWithStopStrings st stop text = (next, out) := ⟨_, _, rfl⟩
    have sliced := emitSliced_eq st stop text
    rw [emitted] at sliced
    rcases emit_spec on none_ is text emitted with ⟨c, found, rfl, parts⟩ | ⟨found, on', parts, goes⟩
    · refine ⟨out.toList, ⟨[], true⟩, ?_, .inl ⟨[], text, texts, c, rfl, ?_, ?_, rfl, ?_⟩⟩
      · rw [emitAll, sliced]
        rfl
      · simpa using none_
      · simpa using found
      · rw [toList_flatten]
        simpa using parts
    · rw [← List.append_assoc] at found parts goes
      obtain ⟨outs, st', emitted', cases_⟩ := ih on' (parts ▸ found) (parts ▸ goes)
      rw [parts] at cases_
      refine ⟨out.toList ++ outs, st', ?_, ?_⟩
      · rw [emitAll, sliced]
        simp only [Option.bind_eq_bind, Option.bind_some, on', Bool.false_eq_true, if_false, emitted']
      · rw [List.flatten_append, toList_flatten, ← List.append_assoc]
        refine cases_.imp ?_ ?_
        · rintro ⟨before, piece, after, c, rfl, free, ends, last, flat⟩
          refine ⟨text :: before, piece, after, c, rfl, ?_, ?_, last, ?_⟩
          · rwa [List.flatten_cons, ← List.append_assoc]
          · rwa [List.flatten_cons, ← List.append_assoc (released ++ st.held)]
          · rwa [List.flatten_cons, ← List.append_assoc (released ++ st.held)]
        · rintro ⟨free, on'', flat⟩
          rw [List.flatten_cons, ← List.append_assoc (released ++ st.held)]
          exact ⟨free, on'', flat⟩

/-- What is emitted of a choice, with what is flushed at its end, is its text up
to where the first piece that completes a stop string lets it go, or all of it;
every slice is at a character boundary. -/
theorem emitted_exactly (stop : StopCondition) (texts : List Text) (reason : FinishReason) :
    ∃ outs st, emitAll stop {} texts = some (outs, st) ∧
      ((∃ before text after c, texts = before ++ text :: after ∧ st.stopped = true ∧ stop.Free before.flatten ∧
          stop.EndsAt (before ++ [text]).flatten c ∧
          (outs ++ flushHeld reason st).flatten = (before ++ [text]).flatten.take c) ∨
        st.stopped = false ∧ stop.Free texts.flatten ∧
          (outs ++ flushHeld reason st).flatten <+: texts.flatten ∧
          (reason ≠ .cancelled → (outs ++ flushHeld reason st).flatten = texts.flatten)) ∧
      (stop.includeStopStr = false → stop.Free (outs ++ flushHeld reason st).flatten) := by
  have start : stop.findStopString ([] ++ ({} : StreamState).held) = none := by
    change stop.findStopString [] = none
    rw [StopCondition.findStopString_none]
    exact fun s _ some_ => Gateway.cut_nil some_
  obtain ⟨outs, st, emitted, cases_⟩ := emitAll_spec texts rfl start rfl
  refine ⟨outs, st, emitted, ?_⟩
  simp only [List.nil_append, List.append_nil] at cases_
  rcases cases_ with ⟨before, text, after, c, rfl, free, ends, rfl, flat⟩ | ⟨free, on, flat⟩
  · have whole : (before ++ [text]).flatten = before.flatten ++ text := by simp
    have all : (outs ++ flushHeld reason ⟨[], true⟩).flatten = (before ++ [text]).flatten.take c := by
      simpa [flushHeld] using flat
    have ends := StopCondition.findStopString_ends ends
    rw [← whole] at ends
    refine ⟨.inl ⟨before, text, after, c, rfl, rfl, StopCondition.findStopString_free.mp free, ends, all⟩, fun trimmed => ?_⟩
    rw [all]
    exact ends.free trimmed
  · have free := StopCondition.findStopString_free.mp free
    have starts : (outs ++ flushHeld reason st).flatten <+: texts.flatten := by
      rw [← flat, List.flatten_append, List.prefix_append_right_inj, flushHeld]
      split <;> simp
    refine ⟨.inr ⟨on, free, starts, fun live => ?_⟩, fun _ s listed some_ within => free s listed some_ (within.trans starts.isInfix)⟩
    rw [← flat, List.flatten_append, List.append_cancel_left_eq, flushHeld]
    by_cases empty : st.held = [] <;> simp [empty, live]

/-- With the stop string included, some of it goes out. -/
theorem included_emitted :
    ∃ st, emitAll { stopStrings := ["b".toList], includeStopStr := true } {} ["ab".toList] = some (["ab".toList], st) ∧
      "b".toList <:+: "ab".toList :=
  ⟨⟨[], true⟩, rfl, by decide⟩

end Worker

end Vapi
