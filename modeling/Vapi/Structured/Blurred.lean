import Vapi.Engine.Detokenize
import Vapi.Structured.Alike

/-!
# The text the client gets

Tokens decoded one at a time and fed to the machine, against the same tokens
decoded together and emitted. A character cut by a token's end is fed as
replacements, which only strings and keys take, and is emitted as one
character. So the emitted text is accepted too, as long as no key comes to
name another property.
-/

namespace Vapi.Structured

open JsonGrammar (isWs)
open Utf8 (Blurred Blurs lossy replacement)
open Engine (IncrementalDetokenizer spelled)

namespace Machine

variable {k k' : Text} {m m' n : Machine} {f f' : Frame} {rest rest' : List Frame} {c : Char} {o o' : ObjectFrame}

section Replacements

theorem startFrame_replacement {id : Option Nat} {n : Node} (written : n.Written) : startFrame id n replacement = none := by
  have plain : ∀ n, allowed n replacement = none := by
    intro n
    simp [allowed, replacement, Char.isDigit]
  unfold startFrame
  cases n with
  | object => exact (if_neg (by decide)).trans (plain _)
  | array => exact (if_neg (by decide)).trans (plain _)
  | choice options =>
    obtain ⟨docs, rfl⟩ := written
    have none_ : (docs.map Document.canonical).filter (fun o => o.head? = some replacement) = [] := by
      refine List.filter_eq_nil_iff.mpr fun o ho => ?_
      obtain ⟨d, -, rfl⟩ := List.mem_map.mp ho
      obtain ⟨c, l, text, starts⟩ := canonical_starts d
      rw [text, List.head?_cons, decide_eq_true_eq]
      rintro same
      have ascii := startsValue_ascii starts
      rw [Option.some.inj same] at ascii
      revert ascii
      decide
    simp only [none_, List.isEmpty_nil, if_true]
  | _ => exact plain _

/-- Only in a string or a key, outside an escape, is a replacement read. -/
theorem pushWith_replacement {again : Machine → Char → Option Machine} (written : Written m.schema.nodes)
    (further : ∀ m₁, m₁.schema = m.schema → m₁.inStringBody = false → again m₁ replacement = none)
    (step : m.pushWith again replacement = some m') :
    (∃ len rest, m.stack = .str 0 len :: rest ∧ len < maxStringChars ∧ m' = m.entered.setTop (.str 0 (len + 1))) ∨
      ∃ o rest, m.stack = .object o :: rest ∧ o.state = .key ∧ o.escape = 0 ∧
        m.keyPossible o.node o.seen (o.key ++ [replacement]) ∧
        m' = m.entered.setTop (.object { o with key := o.key ++ [replacement] }) := by
  have noWs : isWs replacement = false := by decide
  unfold pushWith at step
  rw [enter_entered (.inl noWs)] at step
  simp only [Option.bind_eq_bind, Option.bind_some] at step
  rw [show m.entered.done = m.done from rfl, show m.entered.stack = m.stack from rfl] at step
  split at step
  · rw [if_neg (by simp [noWs])] at step
    cases step
  split at step
  · cases step
  · rename_i id rest e
    unfold startValue at step
    rw [if_neg (by simp [noWs])] at step
    obtain ⟨nd, node, step⟩ := Option.bind_eq_some_iff.mp step
    obtain ⟨f, frame, -⟩ := Option.bind_eq_some_iff.mp step
    obtain ⟨i, -, at_⟩ := node_eq node
    rw [startFrame_replacement (written nd (List.mem_of_getElem? at_))] at frame
    cases frame
  · rename_i escape len rest e
    unfold inString at step
    split at step
    · cases step
    rename_i room
    split at step
    · rw [if_neg (by rw [escapeOk]; split <;> decide)] at step
      cases step
    · rename_i out
      obtain rfl : escape = 0 := by omega
      rw [if_neg (by decide), if_neg (by decide), if_neg (by decide)] at step
      refine .inl ⟨len, rest, e, ?_, (Option.some.inj step).symm⟩
      exact Nat.lt_of_not_le fun full => room ⟨full, by decide⟩
  · rename_i fr rest e
    by_cases complete : fr.complete
    · rw [inNumber_ends complete (by decide)] at step
      obtain ⟨m₁, finished, step⟩ := Option.bind_eq_some_iff.mp step
      have schema : m₁.schema = m.schema := finishValue_schema (m := m.entered) finished
      rw [further m₁ schema (finishValue_outside finished)] at step
      cases step
    · unfold inNumber at step
      simp only at step
      rw [if_neg (by rintro ⟨-, h⟩; revert h; decide), if_neg (by decide), if_neg (by rintro ⟨h, -⟩; revert h; decide),
        if_neg (by rintro ⟨h, -⟩; revert h; decide), if_neg (by rintro ⟨h, -⟩; revert h; decide), if_neg complete] at step
      cases step
  · rename_i alts matched rest e
    have none_ : alts.filter (fun a => (asBytes a)[matched]?.map (fun b => Char.ofNat b.toNat) = some replacement) = [] := by
      refine List.filter_eq_nil_iff.mpr fun a _ => ?_
      rw [decide_eq_true_eq]
      intro same
      obtain ⟨b, -, same⟩ := Option.map_eq_some_iff.mp same
      have byte : (Char.ofNat b.toNat).toNat = b.toNat := by simpa using toNat_ofByte b.toNat_lt
      rw [same] at byte
      have := b.toNat_lt
      rw [← byte] at this
      revert this
      decide
    unfold inWord at step
    simp only [none_, List.isEmpty_nil, if_true] at step
    cases step
  · rename_i o rest e
    cases state : o.state with
    | key =>
      rw [inObject_key state] at step
      unfold inKey at step
      split at step
      · rw [if_neg (by rw [escapeOk]; split <;> decide)] at step
        cases step
      · rename_i out
        rw [if_neg (by decide), if_neg (by decide), if_neg (by decide)] at step
        split at step
        · rename_i possible
          exact .inr ⟨o, rest, e, state, by omega, possible, (Option.some.inj step).symm⟩
        · cases step
    | start | keyExpected =>
      simp only [inObject, state] at step
      rw [if_neg (by simp [noWs]), if_neg (by rintro ⟨h, -⟩; revert h; decide), if_pos (by decide)] at step
      cases step
    | value =>
      simp only [inObject, state] at step
      cases step
    | colon =>
      simp only [inObject, state] at step
      rw [if_neg (by simp [noWs]), if_pos (by decide)] at step
      cases step
    | next =>
      simp only [inObject, state] at step
      rw [if_neg (by simp [noWs]), if_neg (by decide), if_neg (by decide)] at step
      cases step
  · rename_i a rest e
    cases state : a.state with
    | start | valueExpected =>
      simp only [inArray, state] at step
      rw [if_neg (by simp [noWs]), if_neg (by rintro ⟨h, -⟩; revert h; decide)] at step
      split at step
      · cases step
      · rename_i id _
        have refused := further { m.entered with
          stack := .value (some id) :: .array { a with state := .value } :: m.entered.stack.tail } rfl rfl
        cases refused.symm.trans step
    | value =>
      simp only [inArray, state] at step
      cases step
    | next =>
      simp only [inArray, state] at step
      rw [if_neg (by simp [noWs]), if_neg (by decide), if_neg (by decide)] at step
      cases step

theorem pushChar_replacement (written : Written m.schema.nodes) (step : m.pushChar replacement = some m') :
    (∃ len rest, m.stack = .str 0 len :: rest ∧ len < maxStringChars ∧ m' = m.entered.setTop (.str 0 (len + 1))) ∨
      ∃ o rest, m.stack = .object o :: rest ∧ o.state = .key ∧ o.escape = 0 ∧
        m.keyPossible o.node o.seen (o.key ++ [replacement]) ∧
        m' = m.entered.setTop (.object { o with key := o.key ++ [replacement] }) := by
  refine pushWith_replacement written (fun m₁ schema outside => ?_) step
  rw [Option.eq_none_iff_forall_not_mem]
  intro m₂ step₁
  rcases pushWith_replacement (schema ▸ written) (fun _ _ _ => rfl) step₁ with ⟨len, rest, e, -⟩ | ⟨o, rest, e, state, -⟩
  · unfold inStringBody at outside
    rw [e] at outside
    cases outside
  · unfold inStringBody at outside
    rw [e] at outside
    simp [state] at outside

/-- Replacements fed in a row make a string longer, or a key. -/
theorem push_replacements (j : Nat) : ∀ {m : Machine}, Written m.schema.nodes →
    m.push (List.replicate (j + 1) replacement) = some m' →
    (∃ len rest, m.stack = .str 0 len :: rest ∧ len < maxStringChars ∧
        m' = { m.entered with stack := .str 0 (len + (j + 1)) :: rest }) ∨
      ∃ o rest, m.stack = .object o :: rest ∧ o.state = .key ∧ o.escape = 0 ∧
        m.keyPossible o.node o.seen (o.key ++ [replacement]) ∧
        m' = { m.entered with stack := .object { o with key := o.key ++ List.replicate (j + 1) replacement } :: rest } := by
  induction j with
  | zero =>
    intro m written pushed
    obtain ⟨m₁, step, done⟩ := Option.bind_eq_some_iff.mp pushed
    cases done
    rcases pushChar_replacement written step with ⟨len, rest, e, room, rfl⟩ | ⟨o, rest, e, state, out, possible, rfl⟩
    · refine .inl ⟨len, rest, e, room, ?_⟩
      rw [setTop, show m.entered.stack.tail = rest by rw [show m.entered.stack = m.stack from rfl, e]; rfl]
    · refine .inr ⟨o, rest, e, state, out, possible, ?_⟩
      rw [setTop, show m.entered.stack.tail = rest by rw [show m.entered.stack = m.stack from rfl, e]; rfl]
      rfl
  | succ j ih =>
    intro m written pushed
    obtain ⟨m₁, step, pushed⟩ := Option.bind_eq_some_iff.mp pushed
    rcases pushChar_replacement written step with ⟨len, rest, e, room, rfl⟩ | ⟨o, rest, e, state, out, possible, rfl⟩
    · have e₁ := entered_stack e (.str 0 (len + 1))
      rcases ih (m := m.entered.setTop (.str 0 (len + 1))) written pushed with ⟨len₁, rest₁, e₂, -, rfl⟩ | ⟨o, rest₁, e₂, -⟩
      · obtain ⟨same, rfl⟩ := List.cons.inj (e₁.symm.trans e₂)
        cases same
        refine .inl ⟨len, rest, e, room, ?_⟩
        rw [show len + (j + 1 + 1) = len + 1 + (j + 1) by omega]
        rfl
      · cases (List.cons.inj (e₁.symm.trans e₂)).1
    · have e₁ := entered_stack e (.object { o with key := o.key ++ [replacement] })
      rcases ih (m := m.entered.setTop (.object { o with key := o.key ++ [replacement] })) written pushed with
        ⟨len₁, rest₁, e₂, -⟩ | ⟨o₁, rest₁, e₂, -, -, -, rfl⟩
      · cases (List.cons.inj (e₁.symm.trans e₂)).1
      · obtain ⟨same, rfl⟩ := List.cons.inj (e₁.symm.trans e₂)
        cases same
        refine .inr ⟨o, rest, e, state, out, possible, ?_⟩
        rw [List.append_assoc, List.singleton_append, ← List.replicate_succ]
        rfl

end Replacements

section Groups

variable {g : Text × Char} {gs : List (Text × Char)} {p j : Text}

/-- Beyond ASCII nothing marks a place in a document. -/
theorem wide_plain (wide : 0x80 ≤ c.toNat) : isWs c = false ∧ c ≠ '"' ∧ c ≠ '\\' ∧ ¬c.toNat < 0x20 := by
  refine ⟨?_, ?_, ?_, by omega⟩
  · rw [← Bool.not_eq_true]
    intro ws
    rcases isWs_cases ws with rfl | rfl | rfl | rfl <;> exact absurd wide (by decide)
  · rintro rfl
    exact absurd wide (by decide)
  · rintro rfl
    exact absurd wide (by decide)

theorem wide_str {len : Nat} (open_ : n.done = false) (e : n.stack = .str 0 len :: rest) (room : len < maxStringChars)
    (wide : 0x80 ≤ c.toNat) : n.pushChar c = some (n.entered.setTop (.str 0 (len + 1))) := by
  obtain ⟨noWs, noQuote, noBackslash, printable⟩ := wide_plain wide
  unfold pushChar pushWith
  rw [enter_entered (.inl noWs)]
  simp only [Option.bind_eq_bind, Option.bind_some]
  rw [show n.entered.done = false from open_, show n.entered.stack = _ from e]
  simp only [Bool.false_eq_true, if_false, inString]
  rw [if_neg (by omega), if_neg (by omega), if_neg noQuote, if_neg noBackslash, if_neg printable]

theorem wide_key (open_ : n.done = false) (e : n.stack = .object o :: rest) (state : o.state = .key) (out : o.escape = 0)
    (possible : n.keyPossible o.node o.seen (o.key ++ [c])) (wide : 0x80 ≤ c.toNat) :
    n.pushChar c = some (n.entered.setTop (.object { o with key := o.key ++ [c] })) := by
  obtain ⟨noWs, noQuote, noBackslash, printable⟩ := wide_plain wide
  unfold pushChar pushWith
  rw [enter_entered (.inl noWs)]
  simp only [Option.bind_eq_bind, Option.bind_some]
  rw [show n.entered.done = false from open_, show n.entered.stack = _ from e]
  simp only [Bool.false_eq_true, if_false, inObject_key state, inKey]
  rw [if_neg (by omega), if_neg noQuote, if_neg noBackslash, if_neg printable]
  exact if_pos possible

theorem keyKept_outside (outside : m.inStringBody = false) : m.keyKept k g := by
  unfold inStringBody at outside
  unfold keyKept
  split
  · rename_i o _ e
    rw [e] at outside
    rw [if_neg (by simpa using outside)]
  · rfl

theorem keyAfter_of_outside (outside : m.inStringBody = false) : m.keyAfter k c = [] := by
  unfold keyAfter
  rw [if_neg]
  rw [inKeyState_inStringBody outside]
  simp

/-- One character, fed and emitted. -/
theorem pushChar_matches (ended : m.done = true → m.stack = []) (h : Matches k m n) (kept : m.keyKept k ([c], c))
    (step : m.pushChar c = some m') : ∃ n', n.pushChar c = some n' ∧ Matches (m.keyAfter k c) m' n' := by
  refine pushWith_matches ended h kept (fun m₁ n₁ ended₁ h₁ outside step₁ => ?_) step
  have later : ∃ n', n₁.pushWith (fun _ _ => none) c = some n' ∧ Matches (m₁.keyAfter [] c) _ n' :=
    pushWith_matches ended₁ h₁ (keyKept_outside outside) (fun _ _ _ _ _ none_ => by cases none_) step₁
  rw [keyAfter_of_outside outside] at later
  exact later

/-- A group of characters fed, and the one emitted for it. -/
theorem group_matches (written : Written m.schema.nodes) (ended : m.done = true → m.stack = []) (h : Matches k m n)
    (blurred : Blurred g) (kept : m.keyKept k g) (step : m.push g.1 = some m') :
    ∃ n', n.pushChar g.2 = some n' ∧ Matches (m.keyAfter k g.2) m' n' := by
  by_cases same : g.1 = [g.2]
  · rw [same] at step
    obtain ⟨m₁, step, done⟩ := Option.bind_eq_some_iff.mp step
    cases done
    refine pushChar_matches ended h ?_ step
    rw [← same]
    exact kept
  obtain ⟨⟨j, cut⟩, wide⟩ := blurred.resolve_left same
  rw [cut] at step
  have open_ : ∀ {f rest}, m.stack = f :: rest → m.done = false := by
    intro f rest e
    rw [← Bool.not_eq_true]
    intro done
    rw [ended done] at e
    cases e
  rcases push_replacements j written step with ⟨len, rest, e, room, rfl⟩ | ⟨o, rest, e, state, out, possible, rfl⟩
  · obtain ⟨f', rest', rfl, top, below⟩ := h.cases e
    cases f' with
    | str escape' len' =>
      obtain ⟨rfl, shorter⟩ := top
      refine ⟨_, wide_str (open_ e) rfl (Nat.lt_of_le_of_lt shorter room) wide, .str 0 (len' + 1) :: rest', rfl, ?_⟩
      rw [keyAfter_outside e (by simp)]
      exact .cons ⟨rfl, by omega⟩ below
    | _ => exact absurd top (by simp [Frame.Alike])
  · obtain ⟨f', rest', rfl, top, below⟩ := h.cases e
    cases f' with
    | object o' =>
      obtain ⟨same', keys⟩ := top
      obtain ⟨rfl, -⟩ := keys.1 state
      -- where only declared names are allowed the group would be kept as it is
      have more : ∀ children required additional, m.node o.node = some (.object children required additional) → additional := by
        intro children required additional node
        unfold keyKept at kept
        rw [e] at kept
        simp only [state, if_true, node, out, (wide_plain wide).2.1, and_false, if_false, Bool.or_eq_true,
          decide_eq_true_eq] at kept
        exact kept.resolve_right same
      have possible' : m.keyPossible o.node o.seen (o'.key ++ [g.2]) := by
        unfold keyPossible at possible ⊢
        rcases Bool.or_eq_true_iff.mp possible with free | possible
        · rw [free, Bool.true_or]
        · rw [Bool.or_eq_true]
          refine .inr ?_
          split at possible
          · rename_i children required additional node
            rw [more children required additional node]
            rfl
          · cases possible
      rw [same']
      refine ⟨_, wide_key (n := { m with stack := .object { o with key := o'.key } :: rest' }) (o := { o with key := o'.key })
        (open_ e) rfl state out possible' wide, _, rfl, ?_⟩
      have after : m.keyAfter o'.key g.2 = o'.key ++ [g.2] := by
        unfold keyAfter inKeyState
        rw [e]
        simp [state]
      rw [after]
      refine .cons ⟨rfl, fun _ => ⟨rfl, fun n children required isNode at_ => ?_⟩, fun colon => ?_⟩ below
      · cases more children required false (by rw [isNode]; exact at_)
      · rw [show o.state = .colon from colon] at state
        cases state
    | _ => exact absurd top (by simp [Frame.Alike])

theorem push_append (m : Machine) (t u : Text) : m.push (t ++ u) = (m.push t).bind fun m => m.push u := by
  induction t generalizing m with
  | nil => rfl
  | cons c t ih =>
    rw [List.cons_append, push, push]
    cases m.pushChar c with
    | none => rfl
    | some m₁ => exact ih m₁

/-- A whole text, fed and emitted group by group. -/
theorem push_matches (blurs : Blurs gs p j) :
    ∀ {m n m' : Machine} {k : Text}, m.Sound → Written m.schema.nodes → Matches k m n → m.keysKept k gs →
      m.push p = some m' → ∃ n' k', n.push j = some n' ∧ Matches k' m' n' := by
  induction blurs with
  | nil =>
    intro m n m' k _ _ h _ pushed
    cases pushed
    exact ⟨n, k, rfl, h⟩
  | @cons g gs p j blurred _ ih =>
    intro m n m' k sound written h kept pushed
    rw [push_append] at pushed
    obtain ⟨m₁, first, pushed⟩ := Option.bind_eq_some_iff.mp pushed
    obtain ⟨here, later⟩ := Bool.and_eq_true_iff.mp kept
    rw [first, Option.all_some] at later
    obtain ⟨n₁, step, matched⟩ := group_matches written (fun done => sound.ended.mp done) h blurred here first
    have written₁ : Written m₁.schema.nodes := by
      rw [push_schema written first]
      exact written
    obtain ⟨n', k', rest, last⟩ := ih (sound.push first) written₁ matched later pushed
    exact ⟨n', k', by rw [push, step]; exact rest, last⟩

theorem Matches.complete (h : Matches k m n) (complete : m.complete) : n.complete := by
  obtain ⟨stack, rfl, alike⟩ := h
  unfold Machine.complete at complete ⊢
  rcases Bool.or_eq_true_iff.mp complete with done | number
  · rw [show ({ m with stack } : Machine).done = true from done]
    rfl
  · rw [Bool.or_eq_true]
    refine .inr ?_
    split at number
    · rename_i fr e
      rw [e] at alike
      cases alike with
      | cons top below =>
        cases show _ = _ from top
        cases below
        exact number
    · cases number

/-- After a replacement the document is open. -/
theorem replacement_open (sound : m.Sound) (written : Written m.schema.nodes) {t : Text} (pushed : m.push t = some m')
    (ends : t.getLast? = some replacement) : m'.complete = false := by
  obtain ⟨t, rfl⟩ := List.getLast?_eq_some_iff.mp ends
  rw [push_append] at pushed
  obtain ⟨m₁, before, step⟩ := Option.bind_eq_some_iff.mp pushed
  obtain ⟨m₂, step, done⟩ := Option.bind_eq_some_iff.mp step
  cases done
  have written₁ : Written m₁.schema.nodes := by
    rw [push_schema written before]
    exact written
  unfold Machine.complete
  rcases pushChar_replacement written₁ step with ⟨len, rest, e, -, rfl⟩ | ⟨o, rest, e, -, -, -, rfl⟩
  · rw [show (m₁.entered.setTop (.str 0 (len + 1))).done = false from (sound.push before).not_done e]
    rfl
  · rw [show (m₁.entered.setTop (.object { o with key := o.key ++ [replacement] })).done = false from
      (sound.push before).not_done e]
    rfl

end Groups

end Machine

/-- The text of each token on its own, as the machine is fed with it. -/
def pieces (decode : List Nat → Text) (tokens : List Nat) : Text := tokens.flatMap fun token => decode [token]

/-- Whatever is fed pairs off with what is emitted, and wherever keys are kept
the emitted text is accepted too. -/
theorem emitted_accepted {s : Schema} (built : Built s) {bytes : Nat → List UInt8} {decode : List Nat → Text}
    (decodes : ∀ ts, decode ts = lossy (spelled bytes ts)) (prompt tokens : List Nat)
    (accepted : (Machine.new s).Accepts (pieces decode tokens)) :
    (∃ gs, Blurs gs (pieces decode tokens) (decode tokens)) ∧
      ∀ gs, Blurs gs (pieces decode tokens) (decode tokens) → (Machine.new s).keysKept [] gs →
        ∃ d, (IncrementalDetokenizer.withPrompt prompt).pushAll decode tokens = some d ∧ (Machine.new s).Accepts d.emitted := by
  obtain ⟨m, pushed, complete⟩ := accepted
  have sound : (Machine.new s).Sound := by
    obtain ⟨shape, root⟩ := built.root
    exact Machine.new_sound root
  constructor
  · obtain ⟨gs, blurs⟩ := Utf8.blurs_pieces (tokens.map bytes)
    refine ⟨gs, ?_⟩
    have fed : (tokens.map bytes).flatMap lossy = pieces decode tokens := by
      rw [List.flatMap_map]
      refine List.flatMap_congr fun token _ => ?_
      rw [decodes, spelled, List.flatMap_singleton]
    have whole : lossy (tokens.map bytes).flatten = decode tokens := by
      rw [decodes, spelled, List.flatMap_def]
    rw [fed, whole] at blurs
    exact blurs
  · intro gs blurs kept
    obtain ⟨n, k, read, matched⟩ := Machine.push_matches blurs sound built.written (Machine.new_matches s) kept pushed
    have ends : (lossy (spelled bytes tokens)).getLast? ≠ some replacement := by
      intro ends
      rw [← decodes] at ends
      have open_ := Machine.replacement_open sound built.written pushed (blurs.last ends)
      rw [complete] at open_
      cases open_
    obtain ⟨d, run, emitted⟩ := Engine.pushAll_emits decodes prompt tokens ends
    refine ⟨d, run, n, ?_, matched.complete complete⟩
    rw [emitted, ← decodes]
    exact read

section Bytes

/-- A tokenizer that maps each byte to its own id. -/
def byteOf (token : Nat) : List UInt8 := if token < 256 then [UInt8.ofNat token] else []

def byteDecode (tokens : List Nat) : Text := lossy (spelled byteOf tokens)

def byteTokens (t : Text) : List Nat := (asBytes t).map UInt8.toNat

theorem emitted_accepted_word :
    (∃ gs, Blurs gs (pieces byteDecode (byteTokens "\"é\"".toList)) (byteDecode (byteTokens "\"é\"".toList))) ∧
      ∀ gs, Blurs gs (pieces byteDecode (byteTokens "\"é\"".toList)) (byteDecode (byteTokens "\"é\"".toList)) →
        (Machine.new Schema.any).keysKept [] gs →
        ∃ d, (IncrementalDetokenizer.withPrompt []).pushAll byteDecode (byteTokens "\"é\"".toList) = some d ∧
          (Machine.new Schema.any).Accepts d.emitted :=
  emitted_accepted .any (fun _ => rfl) [] _ (by decide)

/-- A property with a name beyond ASCII, and any others. -/
def accentedField : Document :=
  .object [("type".toList, .string "object".toList),
    ("properties".toList, .object [("é".toList, .object [("type".toList, .string "number".toList)])]),
    ("additionalProperties".toList, .bool true)]

def accentedSchema : Schema := ⟨[.object [("é".toList, 1)] [] true, .number false, .any]⟩

/-- A key cut by its tokens is fed as one of no property, and emitted as the
property's name. -/
theorem cut_key_emitted :
    (Schema.compile accentedField).map withAnyNode = .ok accentedSchema ∧
      (Machine.new accentedSchema).Accepts (pieces byteDecode (byteTokens "\x7b\"é\":\"a\"\x7d".toList)) ∧
      ((IncrementalDetokenizer.withPrompt []).pushAll byteDecode (byteTokens "\x7b\"é\":\"a\"\x7d".toList)).map
        IncrementalDetokenizer.emitted = some "\x7b\"é\":\"a\"\x7d".toList ∧
      ¬(Machine.new accentedSchema).Accepts "\x7b\"é\":\"a\"\x7d".toList :=
  ⟨rfl, by decide, by decide, by decide⟩

end Bytes

end Vapi.Structured
