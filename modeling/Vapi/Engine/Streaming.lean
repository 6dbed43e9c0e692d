import Vapi.Structured.Blurred

/-!
# Streamed text

Token by token a client gets the text of the generated tokens: always its
beginning up to the read offset, and all of it unless it ends in a replacement.
It is the text they have after the prompt too, unless the prompt ends inside a
character that they go on with.
-/

namespace Vapi.Engine

open Utf8 (lossy feed flush replacement Pending)

namespace IncrementalDetokenizer

/-- The deltas of tokens pushed one after the other. -/
def stream (d : IncrementalDetokenizer) (decode : List Nat → List Char) :
    List Nat → Option (List (List Char) × IncrementalDetokenizer)
  | [] => some ([], d)
  | token :: tokens => do
    let (delta, d) ← d.push token decode
    let (deltas, d) ← d.stream decode tokens
    some (delta :: deltas, d)

/-- A token adds its delta to what has been emitted. -/
theorem push_emitted {d d' : IncrementalDetokenizer} {decode : List Nat → List Char} {token : Nat} {delta : List Char}
    (pushed : d.push token decode = some (delta, d')) : d'.emitted = d.emitted ++ delta := by
  unfold push at pushed
  simp only at pushed
  split at pushed
  · cases pushed
    exact (List.append_nil _).symm
  · obtain ⟨_, -, pushed⟩ := Option.bind_eq_some_iff.mp pushed
    cases pushed
    rfl

/-- What has been emitted is the deltas. -/
theorem pushAll_stream {d d' : IncrementalDetokenizer} {decode : List Nat → List Char} {tokens : List Nat}
    (pushed : d.pushAll decode tokens = some d') :
    ∃ deltas, d.stream decode tokens = some (deltas, d') ∧ d'.emitted = d.emitted ++ deltas.flatten := by
  induction tokens generalizing d with
  | nil =>
    obtain rfl := Option.some.inj pushed
    exact ⟨[], rfl, (List.append_nil _).symm⟩
  | cons token tokens ih =>
    obtain ⟨⟨delta, d₁⟩, step, rest⟩ := Option.bind_eq_some_iff.mp pushed
    obtain ⟨deltas, streamed, emitted⟩ := ih rest
    refine ⟨delta :: deltas, ?_, ?_⟩
    · rw [stream, step]
      simp only [Option.bind_eq_bind, Option.bind_some, streamed]
    · rw [emitted, push_emitted step, List.flatten_cons, List.append_assoc]

end IncrementalDetokenizer

section Context

variable {bytes : Nat → List UInt8} {decode : List Nat → List Char}

/-- The prompt ends inside a character, and the first byte of the tokens goes on
with it. -/
def GoesOn (bytes : Nat → List UInt8) (prompt tokens : List Nat) : Prop :=
  ∃ p b, (feed none (spelled bytes prompt)).2 = some p ∧ (spelled bytes tokens).head? = some b ∧
    p.lo ≤ b.toNat ∧ b.toNat ≤ p.hi

/-- A byte no character goes on with leaves a replacement of it, and begins anew. -/
theorem feed_apart {p : Pending} {bs : List UInt8}
    (apart : ∀ b, bs.head? = some b → ¬(p.lo ≤ b.toNat ∧ b.toNat ≤ p.hi)) :
    (feed (some p) bs).1 ++ flush (feed (some p) bs).2 = replacement :: lossy bs := by
  cases bs with
  | nil => rfl
  | cons b bs =>
    have outside : Utf8.step (some p) b = (replacement :: (Utf8.first b.toNat).1, (Utf8.first b.toNat).2) := by
      rw [Utf8.step, dif_neg (apart b rfl)]
    rw [feed, outside]
    rfl

/-- After such a prompt, the tokens have the text they have alone. -/
theorem spelled_apart {prompt tokens : List Nat} (apart : ¬GoesOn bytes prompt tokens) :
    lossy (spelled bytes (prompt ++ tokens)) = lossy (spelled bytes prompt) ++ lossy (spelled bytes tokens) := by
  rw [spelled_append]
  cases begun : (feed none (spelled bytes prompt)).2 with
  | none => exact Utf8.lossy_append begun _
  | some p =>
    have outside := feed_apart fun b (first : (spelled bytes tokens).head? = some b) within =>
      apart ⟨p, b, begun, first, within⟩
    have prompt_ : lossy (spelled bytes prompt) = (feed none (spelled bytes prompt)).1 ++ [replacement] := by
      rw [lossy, begun]
      rfl
    rw [lossy, Utf8.feed_append, begun, List.append_assoc, outside, prompt_, List.append_assoc]
    rfl

/-- No slice falls inside a character, and what has been emitted is the text of
the tokens up to the read offset: a beginning of their text, all of it unless it
ends in a replacement, and their text in the prompt's context. -/
theorem streamed_text (decodes : ∀ ts, decode ts = lossy (spelled bytes ts)) (prompt tokens : List Nat) :
    ∃ deltas d, (IncrementalDetokenizer.withPrompt prompt).stream decode tokens = some (deltas, d) ∧
      d.tokens = prompt ++ tokens ∧
      (prompt.length ≤ d.prefixOffset ∧ d.prefixOffset ≤ d.readOffset ∧ d.readOffset ≤ (prompt ++ tokens).length) ∧
      deltas.flatten <+: decode tokens ∧
      deltas.flatten = decode ((d.tokens.take d.readOffset).drop prompt.length) ∧
      ((decode tokens).getLast? ≠ some replacement → deltas.flatten = decode tokens) ∧
      (¬GoesOn bytes prompt tokens → decode (prompt ++ tokens) = decode prompt ++ decode tokens) := by
  have start : Settled bytes prompt [] [] [] (.withPrompt prompt) := withPrompt_settled prompt
  obtain ⟨d, said, told, held, run, settled, same⟩ := start.pushAll decodes tokens
  simp only [List.nil_append] at same
  obtain ⟨deltas, streamed, emitted⟩ := IncrementalDetokenizer.pushAll_stream run
  have emitted : deltas.flatten = decode (said ++ told) := by
    rw [decodes, ← settled.emitted, emitted]
    rfl
  have whole : decode tokens = decode (said ++ told) ++ decode held := by
    have idle : Idle bytes (said ++ told) := settled.idleSaid.append_iff.mpr settled.idleTold
    rw [decodes, ← same, spelled_append (said ++ told), Utf8.lossy_append idle, ← decodes, ← decodes]
  have all : d.tokens = prompt ++ tokens := by
    rw [settled.tokens, ← same]
    simp only [List.append_assoc]
  refine ⟨deltas, d, streamed, all, ⟨?_, ?_, ?_⟩, ?_, ?_, fun ends => ?_, fun apart => ?_⟩
  · rw [settled.start, List.length_append]
    omega
  · rw [settled.start, settled.read, List.length_append, List.length_append, List.length_append]
    omega
  · rw [settled.read, ← same]
    simp only [List.length_append]
    omega
  · rw [emitted, whole]
    exact List.prefix_append _ _
  · have read : d.tokens.take d.readOffset = prompt ++ (said ++ told) := by
      rw [settled.tokens, settled.read, List.take_left', List.append_assoc]
      rfl
    rw [emitted, read, List.drop_left]
  · obtain ⟨d', run', emitted'⟩ := pushAll_emits decodes prompt tokens (decodes tokens ▸ ends)
    obtain rfl := Option.some.inj (run.symm.trans run')
    rw [emitted, decodes, ← settled.emitted, emitted', decodes]
  · rw [decodes, decodes, decodes, spelled_apart apart]

end Context

section Bytes

open Structured (byteOf byteDecode)

/-- A replacement that was generated is held back, though no character is
incomplete; and a character that the prompt ends in is told as replacements. -/
theorem replacement_withheld :
    (∃ d, (IncrementalDetokenizer.withPrompt []).stream byteDecode [0xEF, 0xBF, 0xBD] = some ([[], [], []], d) ∧
      byteDecode [0xEF, 0xBF, 0xBD] = [replacement] ∧ Idle byteOf [0xEF, 0xBF, 0xBD]) ∧
    ∃ d, (IncrementalDetokenizer.withPrompt [0xC3]).stream byteDecode [0xA9, 0x61] = some ([[], [replacement, 'a']], d) ∧
      byteDecode ([0xC3] ++ [0xA9, 0x61]) = ['é', 'a'] ∧
      ¬byteDecode [0xC3] ++ [replacement, 'a'] <+: byteDecode ([0xC3] ++ [0xA9, 0x61]) :=
  ⟨⟨⟨[0xEF, 0xBF, 0xBD], 0, 0, []⟩, by decide, by decide, rfl⟩,
    ⟨⟨[0xC3, 0xA9, 0x61], 1, 3, [replacement, 'a']⟩, by decide, by decide, by decide⟩⟩

/-- A character of a prompt that ends between characters, and one of three tokens. -/
theorem streamed_text_euro :
    ∃ deltas d, (IncrementalDetokenizer.withPrompt [0x61]).stream byteDecode [0xE2, 0x82, 0xAC] = some (deltas, d) ∧
      d.tokens = [0x61] ++ [0xE2, 0x82, 0xAC] ∧
      ([0x61].length ≤ d.prefixOffset ∧ d.prefixOffset ≤ d.readOffset ∧
        d.readOffset ≤ ([0x61] ++ [0xE2, 0x82, 0xAC]).length) ∧
      deltas.flatten <+: byteDecode [0xE2, 0x82, 0xAC] ∧
      deltas.flatten = byteDecode ((d.tokens.take d.readOffset).drop [0x61].length) ∧
      ((byteDecode [0xE2, 0x82, 0xAC]).getLast? ≠ some replacement → deltas.flatten = byteDecode [0xE2, 0x82, 0xAC]) ∧
      (¬GoesOn byteOf [0x61] [0xE2, 0x82, 0xAC] →
        byteDecode ([0x61] ++ [0xE2, 0x82, 0xAC]) = byteDecode [0x61] ++ byteDecode [0xE2, 0x82, 0xAC]) :=
  streamed_text (fun _ => rfl) [0x61] [0xE2, 0x82, 0xAC]

end Bytes

end Vapi.Engine
