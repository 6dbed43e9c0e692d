import Vapi.Gateway.Recut
import Mathlib.Data.List.Basic

/-!
# Stop strings

What of a choice's text goes out as it is generated: the last bytes stay back
as long as they could begin a stop string.
-/

namespace Vapi

open Gateway (cut cut_nil cut_eq cut_append_some cut_append_none not_infix_of_cut Straddles)

def bytes (text : Text) : Nat := (text.map Char.utf8Size).sum

/-- As much of a text as goes into so many bytes. -/
def takeBytes : Nat → Text → Text
  | _, [] => []
  | n, c :: rest => if c.utf8Size ≤ n then c :: takeBytes (n - c.utf8Size) rest else []

namespace StopCondition

/-- Where a text is cut if it has a stop string, in characters. -/
def findStopString (stop : StopCondition) (text : Text) : Option Nat :=
  ((stop.stopStrings.filter (· ≠ [])).filterMap fun s =>
    (cut s text).map fun p => if stop.includeStopStr then p.1.length + s.length else p.1.length).min?

def maxStopLen (stop : StopCondition) : Nat := (stop.stopStrings.map bytes).max?.getD 0

end StopCondition

namespace Worker

/-- What a stream holds back. -/
structure StreamState where
  held : Text := []
  stopped : Bool := false

/-- Only the part that can no longer be the start of a stop string is released. -/
def emitWithStopStrings (st : StreamState) (stop : StopCondition) (text : Text) : StreamState × Option Text :=
  if stop.stopStrings = [] then (st, if text = [] then none else some text)
  else
    let held := st.held ++ text
    match stop.findStopString held with
    | some cut =>
      let out := held.take cut
      (⟨[], true⟩, if out = [] then none else some out)
    | none =>
      let keep := stop.maxStopLen - 1
      if bytes held ≤ keep then ({ st with held }, none)
      else
        let out := takeBytes (bytes held - keep) held
        if out = [] then ({ st with held }, none) else ({ st with held := held.drop out.length }, some out)

/-- The deltas of a choice: a stopped one has no further token, and what is still held goes out at the end. -/
def deltas (stop : StopCondition) (st : StreamState) : List Text → List Text
  | [] => if st.held = [] then [] else [st.held]
  | text :: texts =>
    let (st, out) := emitWithStopStrings st stop text
    out.toList ++ if st.stopped then [] else deltas stop st texts

end Worker

theorem bytes_append (a b : Text) : bytes (a ++ b) = bytes a + bytes b := by simp [bytes]

theorem bytes_pos {a : Text} (some_ : a ≠ []) : 0 < bytes a := by
  cases a with
  | nil => exact absurd rfl some_
  | cons c a =>
    have := c.utf8Size_pos
    simp only [bytes, List.map_cons, List.sum_cons]
    omega

theorem takeBytes_starts (n : Nat) (text : Text) : takeBytes n text <+: text := by
  induction text generalizing n with
  | nil => exact List.prefix_rfl
  | cons c text ih =>
    unfold takeBytes
    split
    · exact (List.prefix_cons_inj c).mpr (ih _)
    · exact List.nil_prefix

theorem takeBytes_bytes (n : Nat) (text : Text) : bytes (takeBytes n text) ≤ n := by
  induction text generalizing n with
  | nil => exact Nat.zero_le n
  | cons c text ih =>
    unfold takeBytes
    split
    · have := ih (n - c.utf8Size)
      simp only [bytes, List.map_cons, List.sum_cons] at this ⊢
      omega
    · exact Nat.zero_le n

theorem takeBytes_zero (text : Text) : takeBytes 0 text = [] := by
  have none_ := takeBytes_bytes 0 text
  by_contra some_
  have := bytes_pos some_
  omega

/-- The bytes of a beginning first. -/
theorem takeBytes_append (a b : Text) (n : Nat) : takeBytes (bytes a + n) (a ++ b) = a ++ takeBytes n b := by
  induction a generalizing n with
  | nil => simp [bytes]
  | cons c a ih =>
    have fits : c.utf8Size ≤ bytes (c :: a) + n := by
      simp only [bytes, List.map_cons, List.sum_cons]
      omega
    have less : bytes (c :: a) + n - c.utf8Size = bytes a + n := by
      simp only [bytes, List.map_cons, List.sum_cons]
      omega
    rw [List.cons_append, takeBytes, if_pos fits, less, ih]
    rfl

theorem min?_add (k : Nat) (l : List Nat) : (l.map (k + ·)).min? = l.min?.map (k + ·) := by
  cases is : l.min? with
  | none =>
    rw [List.min?_eq_none_iff] at is
    simp [is]
  | some m =>
    obtain ⟨mem, least⟩ := List.min?_eq_some_iff.mp is
    refine List.min?_eq_some_iff.mpr ⟨List.mem_map_of_mem mem, fun n hn => ?_⟩
    obtain ⟨i, hi, rfl⟩ := List.mem_map.mp hn
    exact Nat.add_le_add_left (least i hi) k

namespace StopCondition

variable {stop : StopCondition}

theorem bytes_le_maxStopLen {s : Text} (mem : s ∈ stop.stopStrings) : bytes s ≤ stop.maxStopLen := by
  unfold maxStopLen
  have some_ : bytes s ∈ stop.stopStrings.map bytes := List.mem_map_of_mem mem
  cases is : (stop.stopStrings.map bytes).max? with
  | none =>
    rw [List.max?_eq_none_iff] at is
    simp [is] at some_
  | some m => exact (List.max?_eq_some_iff.mp is).2 _ some_

theorem findStopString_none {text : Text} :
    stop.findStopString text = none ↔ ∀ s ∈ stop.stopStrings, s ≠ [] → cut s text = none := by
  simp [findStopString, List.min?_eq_none_iff, List.filterMap_eq_nil_iff]

/-- What can go out of a text that has no stop string so far. -/
def sent (stop : StopCondition) (text : Text) : Text := takeBytes (bytes text - (stop.maxStopLen - 1)) text

theorem sent_starts (stop : StopCondition) (text : Text) : stop.sent text <+: text := takeBytes_starts _ text

/-- What stays back is long enough for all of a stop string but its last byte. -/
theorem held_bytes {released held : Text} (is : stop.sent (released ++ held) = released) (some_ : released ≠ []) :
    stop.maxStopLen - 1 ≤ bytes held := by
  have most := takeBytes_bytes (bytes (released ++ held) - (stop.maxStopLen - 1)) (released ++ held)
  rw [← sent, is, bytes_append] at most
  have := bytes_pos some_
  omega

/-- Stop strings are found in what is held as in the whole text. -/
theorem findStopString_held {released held : Text} (none_ : stop.findStopString (released ++ held) = none)
    (is : stop.sent (released ++ held) = released) (text : Text) :
    stop.findStopString (released ++ (held ++ text)) =
      (stop.findStopString (held ++ text)).map (released.length + ·) := by
  have each : ∀ s ∈ stop.stopStrings, s ≠ [] → cut s (released ++ (held ++ text)) =
      (cut s (held ++ text)).map fun p => (released ++ p.1, p.2) := by
    intro s mem some_
    have before := findStopString_none.mp none_ s mem some_
    refine cut_append_none ?_ some_ ?_
    · cases found : cut s released with
      | none => rfl
      | some p =>
        rw [cut_append_some held found some_] at before
        cases before
    · -- one that began in what is released would have been found, or is too long
      rintro ⟨x, y, hx, hy, rfl, ⟨u, rfl⟩, right⟩
      have released_ : u ++ x ≠ [] := by simp [hx]
      have room := held_bytes is released_
      have long := bytes_le_maxStopLen mem
      by_cases inside : y <+: held
      · obtain ⟨v, rfl⟩ := inside
        exact not_infix_of_cut before some_ ⟨u, v, by simp [List.append_assoc]⟩
      · obtain ⟨v, rfl⟩ := (List.prefix_or_prefix_of_prefix right (List.prefix_append held text)).resolve_left inside
        have begins := bytes_pos hx
        have ends : 0 < bytes v := bytes_pos (by rintro rfl; simp at inside)
        rw [bytes_append, bytes_append] at long
        omega
  unfold findStopString
  rw [← min?_add, List.map_filterMap]
  congr 1
  refine List.filterMap_congr fun s mem => ?_
  obtain ⟨mem, some_⟩ := List.mem_filter.mp mem
  rw [each s mem (by simpa using some_)]
  cases cut s (held ++ text) with
  | none => rfl
  | some p =>
    simp only [Option.map_some, List.length_append]
    split <;> simp [Nat.add_assoc]

theorem sent_append {released held : Text} (is : stop.sent (released ++ held) = released) (text : Text) :
    stop.sent (released ++ (held ++ text)) =
      released ++ takeBytes (bytes (held ++ text) - (stop.maxStopLen - 1)) (held ++ text) := by
  rw [← takeBytes_append, sent]
  congr 1
  by_cases some_ : released = []
  · simp [some_, bytes]
  · have room := held_bytes is some_
    simp only [bytes_append]
    omega

/-- Without stop strings nothing stays back. -/
theorem sent_all (none_ : stop.stopStrings = []) (text : Text) : stop.sent text = text := by
  have all := takeBytes_append text [] 0
  simpa [sent, maxStopLen, none_, takeBytes] using all

end StopCondition

namespace Worker

open StopCondition

variable {stop : StopCondition}

theorem orNothing (text : Text) : (if text = [] then none else some text).getD [] = text := by
  split
  · rename_i empty
    exact empty.symm
  · rfl

/-- One token: a stop string is found in all that was said, or what can go out has gone. -/
theorem emit_spec {st : StreamState} {released : Text} (on : st.stopped = false)
    (none_ : stop.findStopString (released ++ st.held) = none) (is : stop.sent (released ++ st.held) = released)
    (text : Text) {next : StreamState} {out : Option Text} (emitted : emitWithStopStrings st stop text = (next, out)) :
    (∃ c, stop.findStopString (released ++ (st.held ++ text)) = some c ∧ next = ⟨[], true⟩ ∧
      released ++ out.getD [] = (released ++ (st.held ++ text)).take c) ∨
    stop.findStopString (released ++ (st.held ++ text)) = none ∧ next.stopped = false ∧
      (released ++ out.getD []) ++ next.held = released ++ (st.held ++ text) ∧
      stop.sent (released ++ (st.held ++ text)) = released ++ out.getD [] := by
  have found := findStopString_held none_ is text
  have goes := sent_append is text
  unfold emitWithStopStrings at emitted
  split at emitted
  · rename_i empty
    have held : st.held = [] := by
      rw [sent_all empty] at is
      simpa using is
    obtain ⟨rfl, rfl⟩ := Prod.mk.inj emitted
    refine .inr ⟨?_, on, ?_, ?_⟩
    · rw [findStopString_none, empty]
      nofun
    · rw [orNothing, held]
      simp
    · rw [sent_all empty, orNothing, held]
      simp
  · cases cutAt : stop.findStopString (st.held ++ text) with
    | some c =>
      simp only [cutAt] at emitted
      obtain ⟨rfl, rfl⟩ := Prod.mk.inj emitted
      rw [cutAt] at found
      exact .inl ⟨_, found, rfl, by rw [orNothing, List.take_length_add_append]⟩
    | none =>
      simp only [cutAt] at emitted
      rw [cutAt] at found
      refine .inr ⟨found, ?_⟩
      split at emitted
      · rename_i short
        obtain ⟨rfl, rfl⟩ := Prod.mk.inj emitted
        rw [Nat.sub_eq_zero_of_le short, takeBytes_zero] at goes
        exact ⟨on, by simp, goes⟩
      · obtain ⟨rest, same⟩ := takeBytes_starts (bytes (st.held ++ text) - (stop.maxStopLen - 1)) (st.held ++ text)
        generalize takeBytes (bytes (st.held ++ text) - (stop.maxStopLen - 1)) (st.held ++ text) = part at *
        split at emitted
        · rename_i empty
          obtain ⟨rfl, rfl⟩ := Prod.mk.inj emitted
          rw [empty] at goes
          exact ⟨on, by simp, goes⟩
        · obtain ⟨rfl, rfl⟩ := Prod.mk.inj emitted
          exact ⟨on, by simp [← same], goes⟩

/-- Where a choice's text ends: the first tokens with a stop string in their text end it there. -/
def stopAt (stop : StopCondition) (seen : Text) : List Text → Option Nat
  | [] => none
  | text :: texts => (stop.findStopString (seen ++ text)).or (stopAt stop (seen ++ text) texts)

/-- All that was said, or what comes before the stop string. -/
def said (stop : StopCondition) (seen : Text) (texts : List Text) : Text :=
  match stopAt stop seen texts with
  | some c => (seen ++ texts.flatten).take c
  | none => seen ++ texts.flatten

theorem findStopString_le {text : Text} {c : Nat} (found : stop.findStopString text = some c) : c ≤ text.length := by
  obtain ⟨mem, -⟩ := List.min?_eq_some_iff.mp found
  obtain ⟨s, -, is⟩ := List.mem_filterMap.mp mem
  obtain ⟨p, at_, rfl⟩ := Option.map_eq_some_iff.mp is
  rw [cut_eq at_]
  split <;> simp

theorem said_stop {seen text : Text} {c : Nat} (found : stop.findStopString (seen ++ text) = some c)
    (texts : List Text) : said stop seen (text :: texts) = (seen ++ text).take c := by
  rw [said, stopAt, found, Option.some_or, List.flatten_cons, ← List.append_assoc]
  exact List.take_append_of_le_length (findStopString_le found)

theorem said_go {seen text : Text} (none_ : stop.findStopString (seen ++ text) = none) (texts : List Text) :
    said stop seen (text :: texts) = said stop (seen ++ text) texts := by
  rw [said, stopAt, none_, Option.none_or, List.flatten_cons, ← List.append_assoc, said]

/-- The deltas `xs` end where the text of some first tokens, without a stop string, lets them. -/
def CutAt (stop : StopCondition) (seen released : Text) (texts xs : List Text) : Prop :=
  ∃ ts us, texts = ts ++ us ∧ stop.findStopString (seen ++ ts.flatten) = none ∧
    released ++ xs.flatten = stop.sent (seen ++ ts.flatten)

theorem CutAt.start {seen released : Text} (none_ : stop.findStopString seen = none)
    (is : stop.sent seen = released) (texts : List Text) : CutAt stop seen released texts [] :=
  ⟨[], texts, rfl, by simpa using none_, by simpa using is.symm⟩

theorem toList_flatten (out : Option Text) : out.toList.flatten = out.getD [] := by cases out <;> simp

theorem CutAt.next {seen released text : Text} {out : Option Text} {texts xs : List Text}
    (later : CutAt stop (seen ++ text) (released ++ out.getD []) texts xs) :
    CutAt stop seen released (text :: texts) (out.toList ++ xs) := by
  obtain ⟨ts, us, rfl, none_, is⟩ := later
  refine ⟨text :: ts, us, rfl, by simpa [List.append_assoc] using none_, ?_⟩
  rw [List.flatten_append, toList_flatten, ← List.append_assoc, is, List.flatten_cons, ← List.append_assoc]

/-- What the deltas are made of, and where they are cut. -/
theorem deltas_spec {st : StreamState} {released : Text} (texts : List Text) (on : st.stopped = false)
    (none_ : stop.findStopString (released ++ st.held) = none) (is : stop.sent (released ++ st.held) = released) :
    released ++ (deltas stop st texts).flatten = said stop (released ++ st.held) texts ∧
      ∀ xs ys, deltas stop st texts = xs ++ ys →
        ys.flatten = [] ∨ CutAt stop (released ++ st.held) released texts xs := by
  induction texts generalizing st released with
  | nil =>
    have all : (deltas stop st []).flatten = st.held := by
      rw [deltas]
      split
      · rename_i empty
        exact empty.symm
      · exact List.flatten_singleton
    refine ⟨by rw [all, said, stopAt, List.flatten_nil, List.append_nil], fun xs ys split => ?_⟩
    rcases xs with _ | ⟨x, xs⟩
    · exact .inr (.start none_ is _)
    · left
      by_cases empty : st.held = [] <;> simp [deltas, empty] at split
      simp [split.2]
  | cons text texts ih =>
    obtain ⟨next, out, emitted⟩ : ∃ next out, emitWithStopStrings st stop text = (next, out) := ⟨_, _, rfl⟩
    rcases emit_spec on none_ is text emitted with ⟨c, found, rfl, parts⟩ | ⟨found, on', parts, goes⟩
    · -- the end
      have all : deltas stop st (text :: texts) = out.toList := by simp [deltas, emitted]
      rw [← List.append_assoc] at found parts
      rw [all, toList_flatten, parts, said_stop found]
      refine ⟨rfl, fun xs ys split => ?_⟩
      rcases xs with _ | ⟨x, xs⟩
      · exact .inr (.start none_ is _)
      · left
        cases out <;> simp at split
        simp [split.2]
    · have all : deltas stop st (text :: texts) = out.toList ++ deltas stop next texts := by
        simp [deltas, emitted, on']
      rw [← List.append_assoc] at found parts goes
      obtain ⟨flat, cuts⟩ := ih on' (parts ▸ found) (parts ▸ goes)
      rw [parts] at flat cuts
      rw [all, List.flatten_append, toList_flatten, ← List.append_assoc, flat, said_go found]
      refine ⟨rfl, fun xs ys split => ?_⟩
      cases out with
      | none => exact (cuts xs ys split).imp_right .next
      | some out =>
        rcases xs with _ | ⟨x, xs⟩
        · exact .inr (.start none_ is _)
        · obtain ⟨rfl, rest⟩ := List.cons.inj split
          exact (cuts xs ys rest).imp_right .next

end Worker

end Vapi
