import Vapi.Structured.Blurred
import Vapi.Worker.Constraint
import Vapi.Worker.Slices

/-!
# When a constraint takes effect

A constraint that waits for a marker keeps only the end of the text it has
seen. It still takes effect where the whole text first has the marker, however
the text comes in pieces, and its machine reads what follows.
-/

namespace Vapi.Worker

open Engine Structured
open Gateway (cut cut_eq cut_append_none not_infix_of_cut Straddles)
open StopCondition (cut_first)

namespace Constraint

/-- `push` with every slice at its byte; a slice outside the text is none. -/
def pushSliced (c : Constraint) (text : Text) : Option (Option Constraint) :=
  match c with
  | .active m => some ((m.push text).map .active)
  | .waiting marker closeToken tail schema =>
    let tail := tail ++ text
    match cut marker tail with
    | none =>
      let keep := bytes marker - 1
      if keep < bytes tail then do
        let tail ← fromByte (floorBoundary tail (bytes tail - keep)) tail
        some (some (.waiting marker closeToken tail schema))
      else some (some (.waiting marker closeToken tail schema))
    | some (before, _) => do
      let rest ← fromByte (bytes before + bytes marker) tail
      some (((Machine.new schema).push (rest.dropWhile isWhitespace)).map .active)

/-- The pieces in turn, none after one that the machine rejects. -/
def pushAll (c : Constraint) : List Text → Option (Option Constraint)
  | [] => some (some c)
  | text :: texts => do
    match ← c.pushSliced text with
    | some c => c.pushAll texts
    | none => some none

end Constraint

/-- Some piece has come, and they have the marker between them. -/
def Contains (marker : Text) (texts : List Text) : Prop := texts ≠ [] ∧ marker <:+: texts.flatten

/-- What follows a marker where it first stands. -/
def Follows (marker text rest : Text) : Prop :=
  ∃ before, text = before ++ marker ++ rest ∧ ∀ u v, text = u ++ marker ++ v → before.length ≤ u.length

/-- What is kept of the text so far: its end, long enough to begin any marker. -/
structure Kept (marker seen tail : Text) : Prop where
  ends : tail <:+ seen
  long : tail = seen ∨ cut marker seen = none ∧ bytes marker - 1 ≤ bytes tail
  short : bytes tail ≤ bytes marker - 1 + 3

theorem takeBytes_most {n : Nat} {text : Text} (within : n ≤ bytes text) : n ≤ bytes (takeBytes n text) + 3 := by
  induction text generalizing n with
  | nil => exact within.trans (Nat.zero_le _)
  | cons c text ih =>
    have most := c.utf8Size_le_four
    have cons : ∀ t, bytes (c :: t) = c.utf8Size + bytes t := fun t => by simp [bytes]
    rw [takeBytes]
    rw [cons] at within
    split
    · have rest := ih (n := n - c.utf8Size) (by omega)
      rw [cons]
      omega
    · omega

namespace Constraint

/-- No slice falls inside a character, or outside the text. -/
theorem pushSliced_eq (c : Constraint) (text : Text) : c.pushSliced text = some (c.push text) := by
  cases c with
  | active m => rfl
  | waiting marker closeToken tail schema =>
    simp only [pushSliced, push]
    cases found : cut marker (tail ++ text) with
    | some p =>
      have slice := fromByte_append (p.1 ++ marker) p.2
      rw [← cut_eq found, byteLength_append] at slice
      simp only [show fromByte (bytes p.1 + bytes marker) (tail ++ text) = some p.2 from slice, Option.bind_eq_bind,
        Option.bind_some]
    | none =>
      simp only [floorBoundary_eq]
      split
      · obtain ⟨rest, is⟩ := takeBytes_starts (bytes (tail ++ text) - (bytes marker - 1)) (tail ++ text)
        generalize takeBytes (bytes (tail ++ text) - (bytes marker - 1)) (tail ++ text) = gone at *
        have slice : fromByte (bytes gone) (gone ++ rest) = some rest := fromByte_append gone rest
        simp only [← is, slice, Option.bind_eq_bind, Option.bind_some, List.drop_left]
      · rename_i few
        rw [Nat.sub_eq_zero_of_le (Nat.le_of_not_lt few), takeBytes_zero]
        rfl

end Constraint

section Kept

variable {marker seen tail : Text}

theorem Kept.nil : Kept marker [] [] := ⟨List.suffix_rfl, .inl rfl, Nat.zero_le _⟩

/-- A marker stands in the whole text where it stands in what was kept. -/
theorem Kept.sees (kept : Kept marker seen tail) (text : Text) : ∃ gone, seen = gone ++ tail ∧
    cut marker (seen ++ text) = (cut marker (tail ++ text)).map fun p => (gone ++ p.1, p.2) := by
  obtain ⟨gone, is⟩ := kept.ends
  refine ⟨gone, is.symm, ?_⟩
  rcases kept.long with rfl | ⟨none_, long⟩
  · have empty : gone = [] := by simpa using is
    simp [empty]
  have some_ : marker ≠ [] := by
    rintro rfl
    cases seen with
    | nil => cases none_
    | cons c seen => simp [cut] at none_
  have absent := not_infix_of_cut none_ some_
  have gone_ : cut marker gone = none := by
    cases found : cut marker gone with
    | none => rfl
    | some p =>
      refine absurd ?_ absent
      rw [← is, cut_eq found]
      exact ⟨p.1, p.2 ++ tail, by simp⟩
  rw [← is, List.append_assoc]
  refine cut_append_none gone_ some_ ?_
  rintro ⟨x, y, begun, -, rfl, left, right⟩
  -- what is left of the marker is no longer than what was kept
  have inside : y <+: tail := by
    rcases List.prefix_or_prefix_of_prefix right (List.prefix_append tail text) with inside | ⟨z, rfl⟩
    · exact inside
    · have begun := bytes_pos begun
      rw [bytes_append, bytes_append] at long
      have nothing : z = [] := by
        by_contra more
        have := bytes_pos more
        omega
      exact ⟨[], by rw [nothing, List.append_nil, List.append_nil]⟩
  obtain ⟨u, rfl⟩ := left
  obtain ⟨v, rfl⟩ := inside
  exact absent ⟨u, v, by rw [← is]; simp⟩

/-- What is kept after a piece that does not complete the marker. -/
theorem Kept.next (kept : Kept marker seen tail) {text : Text} (none_ : cut marker (seen ++ text) = none) :
    Kept marker (seen ++ text)
      ((tail ++ text).drop (takeBytes (bytes (tail ++ text) - (bytes marker - 1)) (tail ++ text)).length) := by
  obtain ⟨before, is⟩ := kept.ends
  have ends : tail ++ text <:+ seen ++ text := ⟨before, by rw [← List.append_assoc, is]⟩
  obtain ⟨rest, split⟩ := takeBytes_starts (bytes (tail ++ text) - (bytes marker - 1)) (tail ++ text)
  have most := takeBytes_bytes (bytes (tail ++ text) - (bytes marker - 1)) (tail ++ text)
  have least := takeBytes_most (Nat.sub_le (bytes (tail ++ text)) (bytes marker - 1))
  generalize gone_ : takeBytes (bytes (tail ++ text) - (bytes marker - 1)) (tail ++ text) = gone at *
  have total := bytes_append gone rest
  rw [split] at total
  have left : (tail ++ text).drop gone.length = rest := by rw [← split, List.drop_left]
  rw [left]
  refine ⟨(split ▸ List.suffix_append gone rest).trans ends, ?_, by omega⟩
  by_cases many : bytes marker - 1 ≤ bytes (tail ++ text)
  · exact .inr ⟨none_, by omega⟩
  · have nothing : gone = [] := by
      rw [← gone_, Nat.sub_eq_zero_of_le (by omega), takeBytes_zero]
    have same : rest = tail ++ text := by rw [← split, nothing, List.nil_append]
    rcases kept.long with rfl | ⟨-, long⟩
    · exact .inl same
    · rw [bytes_append] at many
      omega

/-- A text without the marker cannot be cut at it. -/
theorem cut_absent (absent : ¬marker <:+: seen) : cut marker seen = none := by
  cases found : cut marker seen with
  | none => rfl
  | some p => exact absurd ⟨p.1, p.2, (cut_eq found).symm⟩ absent

theorem Follows.of_cut {text before rest : Text} (found : cut marker text = some (before, rest)) :
    Follows marker text rest :=
  ⟨before, cut_eq found, fun _ _ stands => cut_first found stands⟩

end Kept

namespace Constraint

theorem pushAll_cons (c : Constraint) (text : Text) (texts : List Text) :
    c.pushAll (text :: texts) = match c.push text with
      | some c => c.pushAll texts
      | none => some none := by
  rw [pushAll, pushSliced_eq]
  rfl

/-- An active constraint reads every piece in full. -/
theorem pushAll_active (m : Machine) (texts : List Text) :
    (active m).pushAll texts = some ((m.push texts.flatten).map .active) := by
  induction texts generalizing m with
  | nil => rfl
  | cons text texts ih =>
    rw [pushAll_cons, List.flatten_cons, Machine.push_append]
    cases pushed : m.push text with
    | none => simp [push, pushed]
    | some m' => simp [push, pushed, ih]

/-- Pieces that come after others, in a constraint that waits still. -/
theorem pushAll_waiting {marker seen tail : Text} (kept : Kept marker seen tail) (closeToken : Option Nat)
    (schema : Schema) (texts : List Text) :
    (∃ tail', (waiting marker closeToken tail schema).pushAll texts = some (some (.waiting marker closeToken tail' schema)) ∧
        Kept marker (seen ++ texts.flatten) tail' ∧
        ∀ shown, shown <+: texts → shown ≠ [] → cut marker (seen ++ shown.flatten) = none) ∨
      ∃ before piece after rest, texts = before ++ piece :: after ∧
        (∀ shown, shown <+: before → shown ≠ [] → cut marker (seen ++ shown.flatten) = none) ∧
        Follows marker (seen ++ (before ++ [piece]).flatten) rest ∧
        (waiting marker closeToken tail schema).pushAll texts =
          some (((Machine.new schema).push (rest.dropWhile isWhitespace ++ after.flatten)).map .active) := by
  induction texts generalizing seen tail with
  | nil =>
    refine .inl ⟨tail, rfl, by simpa using kept, fun shown starts some_ => ?_⟩
    exact absurd (List.prefix_nil.mp starts) some_
  | cons text texts ih =>
    obtain ⟨gone, -, sees⟩ := kept.sees text
    rw [pushAll_cons]
    cases found : cut marker (tail ++ text) with
    | some p =>
      rw [found, Option.map_some] at sees
      refine .inr ⟨[], text, texts, p.2, rfl, fun shown starts some_ => absurd (List.prefix_nil.mp starts) some_, ?_, ?_⟩
      · rw [List.nil_append, List.flatten_singleton]
        exact .of_cut sees
      · rw [Machine.push_append]
        cases pushed : (Machine.new schema).push (p.2.dropWhile isWhitespace) with
        | none => simp [push, found, pushed]
        | some m => simp [push, found, pushed, pushAll_active]
    | none =>
      rw [found, Option.map_none] at sees
      -- no piece up to this one completes the marker
      have first : ∀ {texts : List Text}, (∀ shown, shown <+: texts → shown ≠ [] →
          cut marker (seen ++ text ++ shown.flatten) = none) → ∀ shown, shown <+: text :: texts → shown ≠ [] →
          cut marker (seen ++ shown.flatten) = none := by
        intro texts later shown starts some_
        cases shown with
        | nil => exact absurd rfl some_
        | cons text' shown =>
          obtain ⟨rfl, later'⟩ := List.cons_prefix_cons.mp starts
          rw [List.flatten_cons, ← List.append_assoc]
          by_cases last : shown = []
          · rwa [last, List.flatten_nil, List.append_nil]
          · exact later shown later' last
      simp only [push, found]
      rcases ih (kept.next sees) with ⟨tail', goes, kept', none_⟩ | ⟨before, piece, after, rest, rfl, none_, follows, goes⟩
      · refine .inl ⟨tail', goes, ?_, first none_⟩
        rwa [List.flatten_cons, ← List.append_assoc]
      · refine .inr ⟨text :: before, piece, after, rest, rfl, first none_, ?_, goes⟩
        rwa [List.cons_append, List.flatten_cons, ← List.append_assoc]

theorem not_contains {marker : Text} {texts : List Text}
    (none_ : ∀ shown, shown <+: texts → shown ≠ [] → cut marker shown.flatten = none) : ¬Contains marker texts := by
  rintro ⟨some_, within⟩
  have all := none_ texts List.prefix_rfl some_
  have marked : marker ≠ [] := by
    rintro rfl
    cases is : texts.flatten <;> simp [is, cut] at all
  exact not_infix_of_cut all marked within

/-- However a text comes in pieces, a constraint waits until the first piece that completes the marker, and the machine
reads what follows the first marker, less the space that piece has left there, and every later piece in full. What is
kept meanwhile is a bounded end of the text; no slice falls inside a character. -/
theorem activates_at_marker (schema : Schema) (marker : Text) (closeToken : Option Nat) (texts : List Text) :
    (¬Contains marker texts ∧ ∃ tail, (waiting marker closeToken [] schema).pushAll texts =
          some (some (.waiting marker closeToken tail schema)) ∧
        tail <:+ texts.flatten ∧ bytes tail ≤ bytes marker - 1 + 3) ∨
      ∃ before piece after rest, texts = before ++ piece :: after ∧ ¬Contains marker before ∧
        Follows marker (before ++ [piece]).flatten rest ∧
        (waiting marker closeToken [] schema).pushAll texts =
          some (((Machine.new schema).push (rest.dropWhile isWhitespace ++ after.flatten)).map .active) := by
  rcases pushAll_waiting .nil closeToken schema texts with
    ⟨tail, goes, kept, none_⟩ | ⟨before, piece, after, rest, rfl, none_, follows, goes⟩
  · exact .inl ⟨not_contains none_, tail, goes, kept.ends, kept.short⟩
  · exact .inr ⟨before, piece, after, rest, rfl, not_contains none_, follows, goes⟩

end Constraint

end Vapi.Worker
