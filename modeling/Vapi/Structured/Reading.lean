import Vapi.Structured.Machine
import Vapi.Structured.Shape

/-!
# What a frame still has to read

For every frame, the texts that finish the value it is inside of, and for a
machine the texts that complete its document. A step of the machine undone
puts the character it has read in front of such a text.

`told` stands for a run that reads no key and no option by other characters
than it is denoted by; what a schema asks of a value is shown for such runs.
-/

namespace Vapi.Structured

open JsonGrammar (Value Reads Chars Ws Ends Number Digits Sign Fraction Exponent isWs isHex units denoted)
open Document (canonical)

section Bytes

/-- The bytes of a character, each taken for a character. -/
def latin (c : Char) : Text := (String.utf8EncodeChar c).map fun b => Char.ofNat b.toNat

theorem byteChars_eq (t : Text) : byteChars t = t.flatMap latin := by
  unfold byteChars asBytes latin
  rw [List.map_flatMap]

theorem length_byteChars (t : Text) : (byteChars t).length = (asBytes t).length := List.length_map ..

theorem toNat_ofByte {n : Nat} (h : n < 256) : (Char.ofNat (UInt8.ofNat n).toNat).toNat = n := by
  rw [UInt8.toNat_ofNat_of_lt' h]
  have valid : n.isValidChar := .inl (by omega)
  unfold Char.ofNat
  rw [dif_pos valid]
  rfl

theorem latin_ascii {c : Char} (h : c.toNat < 0x80) : latin c = [c] := by
  have small : c.val.toNat ≤ 0x7f := Nat.le_of_lt_succ h
  unfold latin String.utf8EncodeChar
  simp only [small, if_true, List.map_cons, List.map_nil]
  rw [List.cons.injEq]
  exact ⟨Char.toNat_inj.mp (toNat_ofByte (by omega)), rfl⟩

theorem latin_wide {c : Char} (h : 0x80 ≤ c.toNat) : latin c ≠ [] ∧ ∀ x ∈ latin c, 0x80 ≤ x.toNat := by
  have large : ¬c.val.toNat ≤ 0x7f := Nat.not_le_of_lt h
  have byte : ∀ n, 0x80 ≤ n → n < 256 → 0x80 ≤ (Char.ofNat (UInt8.ofNat n).toNat).toNat :=
    fun n lo hi => by rw [toNat_ofByte hi]; exact lo
  unfold latin String.utf8EncodeChar
  simp only [large, if_false]
  split
  · simp only [List.map_cons, List.map_nil, List.mem_cons, List.not_mem_nil, or_false]
    refine ⟨by simp, ?_⟩
    rintro x (rfl | rfl)
    all_goals exact byte _ (by omega) (by omega)
  split
  · simp only [List.map_cons, List.map_nil, List.mem_cons, List.not_mem_nil, or_false]
    refine ⟨by simp, ?_⟩
    rintro x (rfl | rfl | rfl)
    all_goals exact byte _ (by omega) (by omega)
  · simp only [List.map_cons, List.map_nil, List.mem_cons, List.not_mem_nil, or_false]
    refine ⟨by simp, ?_⟩
    rintro x (rfl | rfl | rfl | rfl)
    all_goals exact byte _ (by omega) (by omega)

theorem faithful_latin : Document.Faithful latin :=
  ⟨fun _ => latin_ascii, fun _ h => (latin_wide h).2⟩

theorem byteChars_ascii {t : Text} (h : ∀ c ∈ t, c.toNat < 0x80) : byteChars t = t := by
  rw [byteChars_eq, Document.flatMap_ascii faithful_latin h]

theorem ascii_of_byteChars {t : Text} (h : ∀ c ∈ byteChars t, c.toNat < 0x80) : ∀ c ∈ t, c.toNat < 0x80 := by
  intro c hc
  by_contra wide
  obtain ⟨some_, high⟩ := latin_wide (Nat.not_lt.mp wide)
  obtain ⟨x, hx⟩ := List.exists_mem_of_ne_nil _ some_
  have low := h x (by rw [byteChars_eq]; exact List.mem_flatMap.mpr ⟨c, hc, hx⟩)
  exact absurd (high x hx) (Nat.not_le_of_lt low)

theorem startsValue_ascii {c : Char} (h : JsonGrammar.startsValue c) : c.toNat < 0x80 := by
  simp only [JsonGrammar.startsValue, Bool.or_eq_true, decide_eq_true_eq] at h
  rcases h with ((((((rfl | rfl) | rfl) | rfl) | rfl) | rfl) | rfl) | digit
  · decide
  · decide
  · decide
  · decide
  · decide
  · decide
  · decide
  · exact Document.isNumberChar_ascii (JsonGrammar.isNumberChar_of_isDigit digit)

/-- The text of a document begins with a character of ASCII, and is not a
number's that goes on. -/
theorem canonical_starts (d : Document) : ∃ c t, canonical d = c :: t ∧ JsonGrammar.startsValue c := by
  obtain ⟨c, t, e, starts⟩ := (Document.canonical_reads Document.faithful_id d [] (by simp [JsonGrammar.Ends])).starts
  rw [List.append_nil, List.flatMap_singleton'] at e
  exact ⟨c, t, e, starts⟩

end Bytes
/-- What may follow in a number. -/
def NumberFrame.Tail (n : NumberFrame) (t : Text) : Prop :=
  (n.expDigit → n.seenExp) →
  if n.seenExp then
    ∃ sign ds, t = sign ++ ds ∧ (∀ c ∈ ds, c.isDigit) ∧ (n.expDigit ∨ ds ≠ []) ∧
      (sign = [] ∨ (sign = ['+'] ∨ sign = ['-']) ∧ ¬n.expDigit ∧ ¬n.afterSign)
  else if n.seenDot then
    ∃ ds exp, t = ds ++ exp ∧ (∀ c ∈ ds, c.isDigit) ∧ (n.seenDigit ∨ ds ≠ []) ∧ Exponent exp ∧ (n.integer → exp = [])
  else
    ∃ ds frac exp, t = ds ++ (frac ++ exp) ∧ (∀ c ∈ ds, c.isDigit) ∧ (n.seenDigit ∨ ds ≠ []) ∧ Fraction frac ∧
      Exponent exp ∧ (n.integer → frac = [] ∧ exp = [])

section Number

variable {n : NumberFrame} {t : Text} {c : Char}

theorem NumberFrame.complete_tail (h : n.complete) : n.Tail [] := by
  unfold NumberFrame.complete at h
  rw [Bool.and_eq_true, Bool.or_eq_true, Bool.not_eq_true'] at h
  obtain ⟨digit, exp⟩ := h
  intro _
  split
  · rename_i seen
    rw [seen] at exp
    exact ⟨[], [], rfl, by simp, .inl (by simpa using exp), .inl rfl⟩
  split
  · exact ⟨[], [], rfl, by simp, .inl digit, .none, fun _ => rfl⟩
  · exact ⟨[], [], [], rfl, by simp, .inl digit, .none, .none, fun _ => ⟨rfl, rfl⟩⟩

theorem digits_cons (digit : c.isDigit) {ds : Text} (digits : ∀ x ∈ ds, x.isDigit) : ∀ x ∈ c :: ds, x.isDigit := by
  intro x hx
  rcases List.mem_cons.mp hx with rfl | hx
  · exact digit
  · exact digits x hx

/-- A number from its first character. -/
theorem NumberFrame.start_tail {integer : Bool} (first : c = '-' ∨ c.isDigit)
    (h : NumberFrame.Tail { integer, seenDigit := c ≠ '-', afterSign := c = '-' } t) :
    Number false (c :: t) ∧ (integer → Integral (c :: t)) := by
  obtain ⟨ds, frac, exp, rfl, digits, some_, hf, he, plain⟩ := h (by simp)
  have noMark : ∀ x : Char, x.isDigit → x ≠ '.' ∧ x ≠ 'e' ∧ x ≠ 'E' := by
    intro x hx
    refine ⟨?_, ?_, ?_⟩ <;> rintro rfl <;> exact absurd hx (by decide)
  have integral : (∀ x ∈ c :: ds, x ≠ '.' ∧ x ≠ 'e' ∧ x ≠ 'E') → integer → Integral (c :: (ds ++ (frac ++ exp))) := by
    intro marks isInteger
    obtain ⟨rfl, rfl⟩ := plain isInteger
    rw [List.append_nil, List.append_nil]
    exact ⟨fun hx => (marks _ hx).1 rfl, fun hx => (marks _ hx).2.1 rfl, fun hx => (marks _ hx).2.2 rfl⟩
  by_cases minus : c = '-'
  · subst minus
    have digits' : Digits ds := ⟨some_.resolve_left (by simp), digits⟩
    refine ⟨.mk .minus digits' (by simp) hf he, integral fun x hx => ?_⟩
    rcases List.mem_cons.mp hx with rfl | hx
    · decide
    · exact noMark x (digits x hx)
  · have digit := first.resolve_left minus
    have digits' : Digits (c :: ds) := ⟨by simp, digits_cons digit digits⟩
    refine ⟨.mk .none digits' (by simp) hf he, integral fun x hx => ?_⟩
    exact noMark x (digits_cons digit digits x hx)

/-- A character read inside a number goes on with it, or ends it. -/
theorem inNumber_cases {again : Machine → Char → Option Machine} {m m' : Machine} (h : m.inNumber again n c = some m') :
    (∃ n', m' = m.setTop (.number n') ∧ ∀ t, n'.Tail t → n.Tail (c :: t)) ∨
      n.complete ∧ ∃ m₁, m.finishValue = some m₁ ∧ again m₁ c = some m' := by
  unfold Machine.inNumber at h
  simp only at h
  split at h
  · cases h
  split at h
  · rename_i digit
    refine .inl ⟨_, (Option.some.inj h).symm, fun t tail wf => ?_⟩
    by_cases exp : n.seenExp
    · rw [if_pos exp] at tail
      have tail := tail fun _ => exp
      rw [if_pos (by exact exp)] at tail ⊢
      obtain ⟨sign, ds, rfl, digits, -, signed⟩ := tail
      obtain rfl := signed.resolve_right fun s => s.2.1 rfl
      exact ⟨[], c :: ds, rfl, digits_cons digit digits, .inr (by simp), .inl rfl⟩
    · rw [if_neg exp] at tail
      have tail := tail wf
      rw [if_neg (by exact exp)] at tail ⊢
      by_cases dot : n.seenDot
      · rw [if_pos (by exact dot)] at tail ⊢
        obtain ⟨ds, exp, rfl, digits, -, rest⟩ := tail
        exact ⟨c :: ds, exp, rfl, digits_cons digit digits, .inr (by simp), rest⟩
      · rw [if_neg (by exact dot)] at tail ⊢
        obtain ⟨ds, frac, exp, rfl, digits, -, rest⟩ := tail
        exact ⟨c :: ds, frac, exp, rfl, digits_cons digit digits, .inr (by simp), rest⟩
  split at h
  · rename_i dot
    obtain ⟨rfl, real, nodot, noexp, digit⟩ := dot
    refine .inl ⟨_, (Option.some.inj h).symm, fun t tail wf => ?_⟩
    have tail := tail wf
    rw [if_neg (by exact noexp), if_pos rfl] at tail
    rw [if_neg noexp, if_neg nodot]
    obtain ⟨ds, exp, rfl, digits, some_, he, -⟩ := tail
    have digits' : Digits ds := ⟨some_.resolve_left (by simp), digits⟩
    exact ⟨[], '.' :: ds, exp, rfl, by simp, .inl digit, .some digits', he, fun i => absurd i real⟩
  split at h
  · rename_i exp
    obtain ⟨letter, real, noexp, digit⟩ := exp
    refine .inl ⟨_, (Option.some.inj h).symm, fun t tail wf => ?_⟩
    have tail := tail fun _ => rfl
    rw [if_pos rfl] at tail
    rw [if_neg noexp]
    obtain ⟨sign, ds, rfl, digits, some_, signed⟩ := tail
    have digits' : Digits ds := ⟨some_.resolve_left fun e => noexp (wf e), digits⟩
    have he : Exponent (c :: (sign ++ ds)) := by
      rcases signed with rfl | ⟨rfl | rfl, -⟩
      · exact .bare letter digits'
      · exact .signed letter (.inl rfl) digits'
      · exact .signed letter (.inr rfl) digits'
    split
    · exact ⟨[], _, rfl, by simp, .inl digit, he, fun i => absurd i real⟩
    · exact ⟨[], [], _, rfl, by simp, .inl digit, .none, he, fun i => absurd i real⟩
  split at h
  · rename_i sign
    obtain ⟨mark, exp, nodigit, nosign⟩ := sign
    refine .inl ⟨_, (Option.some.inj h).symm, fun t tail wf => ?_⟩
    have tail := tail wf
    rw [if_pos (by exact exp)] at tail ⊢
    obtain ⟨sign, ds, rfl, digits, some_, signed⟩ := tail
    obtain rfl := signed.resolve_right fun s => s.2.2 rfl
    exact ⟨[c], ds, rfl, digits, some_, .inr ⟨by simpa using mark, nodigit, nosign⟩⟩
  split at h
  · rename_i complete
    obtain ⟨m₁, finished, h⟩ := Option.bind_eq_some_iff.mp h
    exact .inr ⟨complete, m₁, finished, h⟩
  · cases h

end Number

section Members

variable {t r : Text}

/-- Behind a member of an object. -/
inductive MoreMembers : Text → List (List Nat × Value) → Text → Prop
  | close {t r : Text} : Ws t ('}' :: r) → MoreMembers t [] r
  | comma {t t₁ r : Text} {ms : List (List Nat × Value)} : Ws t (',' :: t₁) → Reads false .members t₁ (.obj ms) r →
      MoreMembers t ms r

/-- Behind an element of an array. -/
inductive MoreElements : Text → List Value → Text → Prop
  | close {t r : Text} : Ws t (']' :: r) → MoreElements t [] r
  | comma {t t₁ r : Text} {vs : List Value} : Ws t (',' :: t₁) → Reads false .elements t₁ (.arr vs) r →
      MoreElements t vs r

theorem MoreMembers.member {t₁ t₂ t₃ t₄ t₅ : Text} {k : List Nat} {v : Value} {ms : List (List Nat × Value)}
    (more : MoreMembers t₅ ms r) (ws : Ws t ('"' :: t₁)) (key : Chars t₁ k t₂) (colon : Ws t₂ (':' :: t₃))
    (ws₂ : Ws t₃ t₄) (value : Reads false .value t₄ v t₅) : Reads false .members t (.obj ((k, v) :: ms)) r := by
  cases more with
  | close close => exact .lastMember ws key colon ws₂ value close
  | comma comma rest => exact .member ws key colon ws₂ value comma rest

theorem MoreElements.element {t₁ t₂ : Text} {v : Value} {vs : List Value} (more : MoreElements t₂ vs r) (ws : Ws t t₁)
    (value : Reads false .value t₁ v t₂) : Reads false .elements t (.arr (v :: vs)) r := by
  cases more with
  | close close => exact .lastElement ws value close
  | comma comma rest => exact .element ws value comma rest

/-- Whitespace in front of members is skipped. -/
theorem members_ws {c : Char} (ws : isWs c) {v : Value} (h : Reads false .members t v r) :
    Reads false .members (c :: t) v r := by
  cases h with
  | lastMember w key colon ws₂ value close => exact .lastMember (.cons ws w) key colon ws₂ value close
  | member w key colon ws₂ value comma rest => exact .member (.cons ws w) key colon ws₂ value comma rest

theorem elements_ws {c : Char} (ws : isWs c) {v : Value} (h : Reads false .elements t v r) :
    Reads false .elements (c :: t) v r := by
  cases h with
  | lastElement w value close => exact .lastElement (.cons ws w) value close
  | element w value comma rest => exact .element (.cons ws w) value comma rest

theorem MoreMembers.ws {c : Char} (ws : isWs c) {ms : List (List Nat × Value)} (h : MoreMembers t ms r) :
    MoreMembers (c :: t) ms r := by
  cases h with
  | close close => exact .close (.cons ws close)
  | comma comma rest => exact .comma (.cons ws comma) rest

theorem MoreElements.ws {c : Char} (ws : isWs c) {vs : List Value} (h : MoreElements t vs r) :
    MoreElements (c :: t) vs r := by
  cases h with
  | close close => exact .close (.cons ws close)
  | comma comma rest => exact .comma (.cons ws comma) rest

theorem isWs_cases {c : Char} (ws : isWs c) : c = ' ' ∨ c = '\t' ∨ c = '\n' ∨ c = '\r' := by
  simpa only [isWs, Bool.or_eq_true, decide_eq_true_eq, or_assoc] using ws

theorem ends_of_ws {c : Char} (ws : Ws t (c :: r)) (mark : JsonGrammar.isNumberChar c = false) : Ends t := by
  generalize e : c :: r = u at ws
  cases ws with
  | nil =>
    subst e
    exact Document.ends_of_mark mark r
  | @cons d t r ws _ =>
    refine Document.ends_of_mark ?_ t
    rcases isWs_cases ws with rfl | rfl | rfl | rfl <;> decide

theorem MoreMembers.ends {ms : List (List Nat × Value)} (h : MoreMembers t ms r) : Ends t := by
  cases h with
  | close close => exact ends_of_ws close (by decide)
  | comma comma _ => exact ends_of_ws comma (by decide)

theorem MoreElements.ends {vs : List Value} (h : MoreElements t vs r) : Ends t := by
  cases h with
  | close close => exact ends_of_ws close (by decide)
  | comma comma _ => exact ends_of_ws comma (by decide)

end Members

section Finishes

variable (nodes : List Node) (told : Prop)

/-- A value is one that a node admits. -/
def Fits (id : Option Nat) (v : Value) : Prop :=
  told → ∀ n shape, id = some n → Shows nodes n shape → shape.Admits v

/-- What an object node asks of the members still to come. -/
structure Obeying (children : List (Text × Nat)) (required : List Nat) (additional : Bool) (seen : List Nat)
    (ms : List (List Nat × Value)) : Prop where
  fits : ∀ m ∈ ms, ∀ (i : Nat) name child, declared children m.1 = some i → children[i]? = some (name, child) →
    Fits nodes told (some child) m.2
  once : (occurring children ms).Nodup
  fresh : ∀ i ∈ occurring children ms, i ∉ seen
  present : ∀ i ∈ required, i ∈ seen ∨ i ∈ occurring children ms
  closed : additional = false → ∀ m ∈ ms, (declared children m.1).isSome

def Obeys (id : Option Nat) (seen : List Nat) (ms : List (List Nat × Value)) : Prop :=
  told → ∀ n children required additional, id = some n → nodes[n]? = some (.object children required additional) →
    Obeying nodes told children required additional seen ms

/-- The characters of an escape already read, as any hexadecimal digits. -/
def pending (escape : Nat) : Text :=
  if escape = 5 then ['\\'] else if escape = 0 then [] else '\\' :: 'u' :: List.replicate (4 - escape) '0'

/-- What is read of a key goes on to a key wherever the rest of a string follows. -/
def Begun (key : Text) (escape : Nat) : Prop :=
  escape ≤ 5 ∧ ∀ t us r, Chars (pending escape ++ t) us r → ∃ k, Chars (key ++ t) k r

/-- The text finishes an object, from a state of its frame, and leaves a rest. -/
def ObjectFrame.Finishes (o : ObjectFrame) : ObjState → Text → Text → Prop
  | .start, t, r =>
    (Ws t ('}' :: r) ∧ Obeys nodes told o.node o.seen []) ∨
      ∃ ms, Reads false .members t (.obj ms) r ∧ Obeys nodes told o.node o.seen ms
  | .keyExpected, t, r => ∃ ms, Reads false .members t (.obj ms) r ∧ Obeys nodes told o.node o.seen ms
  | .key, t, r =>
    Begun o.key o.escape → ∃ t₁ t₂ t₃ t₄ k v ms, Chars (o.key ++ t) k t₁ ∧ Ws t₁ (':' :: t₂) ∧ Ws t₂ t₃ ∧
      Reads false .value t₃ v t₄ ∧ MoreMembers t₄ ms r ∧ Obeys nodes told o.node o.seen ((k, v) :: ms)
  | .colon, t, r =>
    ∃ t₂ t₃ t₄ v ms, Ws t (':' :: t₂) ∧ Ws t₂ t₃ ∧ Reads false .value t₃ v t₄ ∧ MoreMembers t₄ ms r ∧
      Obeys nodes told o.node o.seen ms ∧
      ∀ n children required additional p, o.node = some n → nodes[n]? = some (.object children required additional) →
        children.find? (fun p => p.1 = o.key) = some p → Fits nodes told (some p.2) v
  | .value, t, r | .next, t, r => ∃ ms, MoreMembers t ms r ∧ Obeys nodes told o.node o.seen ms

def ArrayFrame.Finishes (a : ArrayFrame) : ArrState → Text → Text → Prop
  | .start, t, r =>
    Ws t (']' :: r) ∨ ∃ vs, Reads false .elements t (.arr vs) r ∧ ∀ v ∈ vs, Fits nodes told a.items v
  | .valueExpected, t, r => ∃ vs, Reads false .elements t (.arr vs) r ∧ ∀ v ∈ vs, Fits nodes told a.items v
  | .value, t, r | .next, t, r => ∃ vs, MoreElements t vs r ∧ ∀ v ∈ vs, Fits nodes told a.items v

/-- The text finishes the frame's value and leaves a rest. -/
def Frame.Finishes : Frame → Text → Text → Prop
  | .value id, t, r => ∃ t₁ v, Ws t t₁ ∧ Reads false .value t₁ v r ∧ Fits nodes told id v
  | .str escape _, t, r => escape ≤ 5 → ∃ us, Chars (pending escape ++ t) us r
  | .number n, t, r => ∃ lit, t = lit ++ r ∧ n.Tail lit
  | .word alts matched, t, r =>
    ∃ a ∈ alts, t = (byteChars a).drop matched ++ r ∧ (told → ∀ c ∈ (byteChars a).drop matched, c.toNat < 0x80)
  | .object o, t, r => o.Finishes nodes told o.state t r
  | .array a, t, r => a.Finishes nodes told a.state t r

/-- Outside a key whitespace is skipped. -/
theorem ObjectFrame.Finishes.ws {o : ObjectFrame} {state : ObjState} {c : Char} {t r : Text} (ws : isWs c)
    (outside : state ≠ .key) (h : o.Finishes nodes told state t r) : o.Finishes nodes told state (c :: t) r := by
  cases state with
  | start =>
    rcases h with ⟨close, obeys⟩ | ⟨ms, members, obeys⟩
    · exact .inl ⟨.cons ws close, obeys⟩
    · exact .inr ⟨ms, members_ws ws members, obeys⟩
  | keyExpected =>
    obtain ⟨ms, members, obeys⟩ := h
    exact ⟨ms, members_ws ws members, obeys⟩
  | key => exact absurd rfl outside
  | colon =>
    obtain ⟨t₂, t₃, t₄, v, ms, colon, rest⟩ := h
    exact ⟨t₂, t₃, t₄, v, ms, .cons ws colon, rest⟩
  | value | next =>
    obtain ⟨ms, more, obeys⟩ := h
    exact ⟨ms, more.ws ws, obeys⟩

theorem ArrayFrame.Finishes.ws {a : ArrayFrame} {state : ArrState} {c : Char} {t r : Text} (ws : isWs c)
    (h : a.Finishes nodes told state t r) : a.Finishes nodes told state (c :: t) r := by
  cases state with
  | start =>
    rcases h with close | ⟨vs, elements, all⟩
    · exact .inl (.cons ws close)
    · exact .inr ⟨vs, elements_ws ws elements, all⟩
  | valueExpected =>
    obtain ⟨vs, elements, all⟩ := h
    exact ⟨vs, elements_ws ws elements, all⟩
  | value | next =>
    obtain ⟨vs, more, all⟩ := h
    exact ⟨vs, more.ws ws, all⟩

/-- The text finishes the containers under a value. -/
def Under : List Frame → Text → Prop
  | [], t => Ws t []
  | .object o :: rest, t => ∃ r, (Frame.object { o with state := .next }).Finishes nodes told t r ∧ Under rest r
  | .array a :: rest, t => ∃ r, (Frame.array { a with state := .next }).Finishes nodes told t r ∧ Under rest r
  | _ :: _, _ => False

theorem Under.ends {stack : List Frame} {t : Text} (h : Under nodes told stack t) : Ends t := by
  cases stack with
  | nil =>
    cases h with
    | nil => simp [JsonGrammar.Ends]
    | @cons c t _ ws _ =>
      refine Document.ends_of_mark ?_ t
      rcases isWs_cases ws with rfl | rfl | rfl | rfl <;> decide
  | cons f rest =>
    cases f with
    | object o =>
      obtain ⟨r, ⟨ms, more, -⟩, -⟩ := h
      exact more.ends
    | array a =>
      obtain ⟨r, ⟨vs, more, -⟩, -⟩ := h
      exact more.ends
    | _ => exact h.elim

/-- The text completes the machine's document. -/
def Machine.Completes (m : Machine) (t : Text) : Prop :=
  if m.done then Ws t []
  else
    match m.stack with
    | [] => False
    | f :: rest => ∃ r, f.Finishes nodes told t r ∧ Under nodes told rest r

end Finishes

end Vapi.Structured
