import Vapi.Lib.Utf8

/-!
# Incremental detokenizing

A growing token sequence is turned into a stream of text deltas. Only the tail
of the sequence is decoded, once up to where it has been read and once to its
end, and nothing is emitted while the text ends in the middle of a character.
Of a tokenizer that decodes bytes lossily, what is emitted is the text of the
tokens up to the read offset.
-/

namespace Vapi.Engine

open Utf8 (lossy feed replacement)

structure IncrementalDetokenizer where
  tokens : List Nat := []
  prefixOffset : Nat := 0
  readOffset : Nat := 0
  emitted : List Char := []
  deriving DecidableEq, Repr

def byteLength (t : List Char) : Nat := (t.map Char.utf8Size).sum

/-- The text from a byte on, none in the middle of a character or past the end. -/
def fromByte : Nat → List Char → Option (List Char)
  | 0, t => some t
  | _ + 1, [] => none
  | n + 1, c :: t => if c.utf8Size ≤ n + 1 then fromByte (n + 1 - c.utf8Size) t else none

namespace IncrementalDetokenizer

/-- Seed with prompt tokens, which are decoded but never emitted. -/
def withPrompt (prompt : List Nat) : IncrementalDetokenizer :=
  { tokens := prompt, prefixOffset := prompt.length, readOffset := prompt.length }

/-- Feed one token and get the text delta, empty in the middle of a character.
A slice outside the text is none. -/
def push (d : IncrementalDetokenizer) (token : Nat) (decode : List Nat → List Char) :
    Option (List Char × IncrementalDetokenizer) :=
  let tokens := d.tokens ++ [token]
  let prefixText := decode ((tokens.take d.readOffset).drop d.prefixOffset)
  let newText := decode (tokens.drop d.prefixOffset)
  if byteLength newText ≤ byteLength prefixText ∨ newText.getLast? = some replacement then some ([], { d with tokens })
  else do
    let delta ← fromByte (byteLength prefixText) newText
    some (delta,
      { tokens, prefixOffset := d.readOffset, readOffset := tokens.length, emitted := d.emitted ++ delta })

def pushAll (d : IncrementalDetokenizer) (decode : List Nat → List Char) : List Nat → Option IncrementalDetokenizer
  | [] => some d
  | token :: tokens => do
    let (_, d) ← d.push token decode
    pushAll d decode tokens

end IncrementalDetokenizer

theorem byteLength_append (t u : List Char) : byteLength (t ++ u) = byteLength t + byteLength u := by
  simp [byteLength]

theorem byteLength_pos {t : List Char} (some_ : t ≠ []) : 0 < byteLength t := by
  cases t with
  | nil => exact absurd rfl some_
  | cons c t =>
    have := c.utf8Size_pos
    simp only [byteLength, List.map_cons, List.sum_cons]
    omega

/-- The end of a text is where its bytes are. -/
theorem fromByte_append (t u : List Char) : fromByte (byteLength t) (t ++ u) = some u := by
  induction t with
  | nil => simp [byteLength, fromByte]
  | cons c t ih =>
    have positive := c.utf8Size_pos
    have length : byteLength (c :: t) = c.utf8Size + byteLength t := by simp [byteLength]
    obtain ⟨n, e⟩ : ∃ n, byteLength (c :: t) = n + 1 := ⟨c.utf8Size - 1 + byteLength t, by omega⟩
    rw [e, List.cons_append, fromByte, if_pos (by omega), ← e, length, Nat.add_sub_cancel_left, ih]

section Settled

variable {bytes : Nat → List UInt8} {decode : List Nat → List Char} {d : IncrementalDetokenizer}
  {prompt said told held : List Nat} {token : Nat}

/-- The bytes of the tokens. -/
def spelled (bytes : Nat → List UInt8) (tokens : List Nat) : List UInt8 := tokens.flatMap bytes

theorem spelled_append (ts us : List Nat) : spelled bytes (ts ++ us) = spelled bytes ts ++ spelled bytes us :=
  List.flatMap_append

/-- No character is begun after the tokens. -/
def Idle (bytes : Nat → List UInt8) (tokens : List Nat) : Prop := (feed none (spelled bytes tokens)).2 = none

theorem Idle.append_iff {ts us : List Nat} (h : Idle bytes ts) : Idle bytes (ts ++ us) ↔ Idle bytes us := by
  unfold Idle at h ⊢
  rw [spelled_append, Utf8.feed_append, h]

/-- Of the generated tokens some have been said, some are told again with what
follows, and some are held back. -/
structure Settled (bytes : Nat → List UInt8) (prompt said told held : List Nat) (d : IncrementalDetokenizer) : Prop where
  tokens : d.tokens = prompt ++ said ++ told ++ held
  start : d.prefixOffset = (prompt ++ said).length
  read : d.readOffset = (prompt ++ said ++ told).length
  emitted : d.emitted = lossy (spelled bytes (said ++ told))
  idleSaid : Idle bytes said
  idleTold : Idle bytes told
  back : spelled bytes held = [] ∨ (lossy (spelled bytes (told ++ held))).getLast? = some replacement

theorem withPrompt_settled (prompt : List Nat) : Settled bytes prompt [] [] [] (.withPrompt prompt) :=
  ⟨by simp [IncrementalDetokenizer.withPrompt], by simp [IncrementalDetokenizer.withPrompt],
    by simp [IncrementalDetokenizer.withPrompt], rfl, rfl, rfl, .inl rfl⟩

/-- A token pushed is held back, or all that was held is emitted with it. -/
theorem Settled.push (h : Settled bytes prompt said told held d) (decodes : ∀ ts, decode ts = lossy (spelled bytes ts))
    (token : Nat) :
    ∃ delta d', d.push token decode = some (delta, d') ∧
      (Settled bytes prompt said told (held ++ [token]) d' ∨
        Settled bytes prompt (said ++ told) (held ++ [token]) [] d') := by
  have tokens : d.tokens ++ [token] = prompt ++ said ++ told ++ (held ++ [token]) := by
    rw [h.tokens, List.append_assoc]
  have before : ((d.tokens ++ [token]).take d.readOffset).drop d.prefixOffset = told := by
    rw [tokens, h.read, h.start, List.take_left', List.drop_left']
    · rfl
    · rfl
  have after : (d.tokens ++ [token]).drop d.prefixOffset = told ++ (held ++ [token]) := by
    rw [tokens, h.start, List.append_assoc (prompt ++ said), List.drop_left']
    rfl
  have split : lossy (spelled bytes (told ++ (held ++ [token]))) =
      lossy (spelled bytes told) ++ lossy (spelled bytes (held ++ [token])) := by
    rw [spelled_append, Utf8.lossy_append h.idleTold]
  unfold IncrementalDetokenizer.push
  simp only [before, after, decodes]
  by_cases held_ : byteLength (lossy (spelled bytes (told ++ (held ++ [token])))) ≤ byteLength (lossy (spelled bytes told)) ∨
      (lossy (spelled bytes (told ++ (held ++ [token])))).getLast? = some replacement
  · refine ⟨[], _, if_pos held_, .inl ⟨tokens, h.start, h.read, h.emitted, h.idleSaid, h.idleTold, ?_⟩⟩
    rcases held_ with short | back
    · rw [split, byteLength_append] at short
      by_cases none_ : lossy (spelled bytes (held ++ [token])) = []
      · exact .inl (Utf8.lossy_eq_nil.mp none_)
      · have := byteLength_pos none_
        omega
    · exact .inr back
  · have idle : Idle bytes (held ++ [token]) :=
      h.idleTold.append_iff.mp (Utf8.idle_of_last fun back => held_ (.inr back))
    have idleSaid : Idle bytes (said ++ told) := h.idleSaid.append_iff.mpr h.idleTold
    rw [if_neg held_, split, fromByte_append]
    refine ⟨_, _, rfl, .inr ⟨?_, ?_, ?_, ?_, idleSaid, idle, .inl rfl⟩⟩
    · simp [tokens, List.append_assoc]
    · simp [h.read]
    · simp [tokens, List.append_assoc]
    · rw [h.emitted, spelled_append (said ++ told), Utf8.lossy_append idleSaid]

theorem Settled.pushAll (decodes : ∀ ts, decode ts = lossy (spelled bytes ts)) (ts : List Nat) :
    ∀ {d : IncrementalDetokenizer} {said told held : List Nat}, Settled bytes prompt said told held d →
      ∃ d' said' told' held', d.pushAll decode ts = some d' ∧ Settled bytes prompt said' told' held' d' ∧
        said' ++ told' ++ held' = said ++ told ++ held ++ ts := by
  induction ts with
  | nil => exact fun {d said told held} h => ⟨d, said, told, held, rfl, h, by simp⟩
  | cons token ts ih =>
    intro d said told held h
    obtain ⟨delta, d₁, step, settled | settled⟩ := h.push decodes token
    · obtain ⟨d', said', told', held', run, last, same⟩ := ih settled
      exact ⟨d', said', told', held', by rw [IncrementalDetokenizer.pushAll, step]; exact run, last, by simpa using same⟩
    · obtain ⟨d', said', told', held', run, last, same⟩ := ih settled
      exact ⟨d', said', told', held', by rw [IncrementalDetokenizer.pushAll, step]; exact run, last, by simpa using same⟩

/-- Whatever the prompt, what is emitted is the whole text, unless that ends in
a replacement. -/
theorem pushAll_emits (decodes : ∀ ts, decode ts = lossy (spelled bytes ts)) (prompt tokens : List Nat)
    (ends : (lossy (spelled bytes tokens)).getLast? ≠ some replacement) :
    ∃ d, (IncrementalDetokenizer.withPrompt prompt).pushAll decode tokens = some d ∧ d.emitted = lossy (spelled bytes tokens) := by
  have start : Settled bytes prompt [] [] [] (.withPrompt prompt) := withPrompt_settled prompt
  obtain ⟨d, said, told, held, run, settled, same⟩ := start.pushAll decodes tokens
  simp only [List.nil_append] at same
  refine ⟨d, run, ?_⟩
  rcases settled.back with none_ | back
  · rw [settled.emitted, ← same, spelled_append (said ++ told), none_, List.append_nil]
  · refine absurd ?_ ends
    rw [← same, List.append_assoc, spelled_append, Utf8.lossy_append settled.idleSaid, List.getLast?_append, back]
    rfl

end Settled

end Vapi.Engine
