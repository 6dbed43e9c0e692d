import Vapi.Gateway.Calls
import Vapi.Gateway.Decisions

/-!
# Calls read back

Calls written out in Python's syntax, with blanks wherever there may be any,
are read back as they were. Of every text there is a result or an error, and
each slice is at a character.
-/

namespace Vapi.Gateway

open Engine (fromByte fromByte_append)
open OpenAi (decimal)
open Worker (isWhitespace)

variable {F : Type} {lit : Literals F}

namespace Parser

variable {p : Parser} {a r : Text}

/-- The parser is before this text. -/
def At (p : Parser) (r : Text) : Prop := ∃ before, p.s = before ++ r ∧ p.i = bytes before

/-- The parser when it has taken a text. -/
def past (p : Parser) (a : Text) : Parser := { p with i := p.i + bytes a }

@[simp] theorem past_s : (p.past a).s = p.s := rfl

theorem bytes_cons (c : Char) (a : Text) : bytes (c :: a) = c.utf8Size + bytes a := by simp [bytes]

@[simp] theorem past_past : (p.past a).past r = p.past (a ++ r) := by
  simp [past, bytes_append, Nat.add_assoc]

@[simp] theorem past_nil : p.past [] = p := rfl

theorem At.past (here : At p (a ++ r)) : At (p.past a) r := by
  obtain ⟨before, is, at_⟩ := here
  exact ⟨before ++ a, by simpa using is, by rw [Parser.past, at_, bytes_append]⟩

theorem At.length_le (here : At p r) : r.length ≤ p.s.length := by
  obtain ⟨before, is, -⟩ := here
  rw [is, List.length_append]
  omega

theorem At.rest (here : At p r) : p.rest = pure r := by
  obtain ⟨before, is, at_⟩ := here
  rw [Parser.rest, is, at_, show fromByte (bytes before) (before ++ r) = some r from fromByte_append before r]
  rfl

theorem At.since (here : At p (a ++ r)) : (p.past a).since p.i = pure a := by
  obtain ⟨before, is, at_⟩ := here
  rw [Parser.since, if_pos (show p.i ≤ (p.past a).i from Nat.le_add_right _ _), past_s, is, at_,
    show fromByte (bytes before) (before ++ (a ++ r)) = some (a ++ r) from fromByte_append before _, Option.bind_some,
    Parser.past, at_, Nat.add_sub_cancel_left, uptoByte_append]
  rfl

theorem takeFrom_eq {kind : Char → Bool} (all : ∀ c ∈ a, kind c) (stops : ∀ c ∈ r.head?, kind c = false) {fuel : Nat}
    (enough : a.length < fuel) (here : At p (a ++ r)) : takeFrom kind fuel p = pure (p.past a) := by
  induction fuel generalizing a p with
  | zero => omega
  | succ fuel ih =>
    rw [takeFrom, here.rest, pure_bind]
    cases a with
    | nil =>
      cases r with
      | nil => rfl
      | cons c r =>
        have other := stops c rfl
        simp [other]
    | cons c a =>
      have next : At (p.past [c]) (a ++ r) := At.past (a := [c]) here
      have more := ih (fun d mem => all d (List.mem_cons_of_mem c mem)) (Nat.lt_of_succ_lt_succ enough) next
      rw [past_past, List.singleton_append] at more
      simpa [all c List.mem_cons_self, Parser.past, bytes] using more

theorem take_eq {kind : Char → Bool} (all : ∀ c ∈ a, kind c) (stops : ∀ c ∈ r.head?, kind c = false)
    (here : At p (a ++ r)) : p.take kind = pure (p.past a) :=
  takeFrom_eq all stops (by have := here.length_le; rw [List.length_append] at this; omega) here

theorem eat_here {c : Char} (here : At p (c :: r)) : p.eat c = pure (true, p.past [c]) := by
  rw [eat, here.rest, pure_bind, if_pos (show (c :: r).head? = some c from rfl)]
  simp [past, bytes]

theorem eat_other {c : Char} (here : At p r) (other : r.head? ≠ some c) : p.eat c = pure (false, p) := by
  rw [eat, here.rest, pure_bind, if_neg other]

theorem not_atEnd {c : Char} (here : At p (c :: r)) : p.atEnd = false := by
  obtain ⟨before, is, at_⟩ := here
  have := c.utf8Size_pos
  simp only [atEnd, is, at_, bytes_append, bytes_cons, decide_eq_false_iff_not]
  omega

end Parser

section Texts

def Blank (w : Text) : Prop := ∀ c ∈ w, isWhitespace c

def Ident (lit : Literals F) (name : Text) : Prop := name ≠ [] ∧ ∀ c ∈ name, Parser.isIdent lit c

def intText : Int → Text
  | .ofNat n => decimal n
  | .negSucc n => '-' :: decimal (n + 1)

def escapeChar (quote c : Char) : Text :=
  if c = '\\' ∨ c = quote then ['\\', c]
  else if c = '\n' then ['\\', 'n']
  else if c = '\r' then ['\\', 'r']
  else if c = '\t' then ['\\', 't']
  else [c]

/-- A text as it stands in quotes. -/
def escape (quote : Char) (s : Text) : Text := s.flatMap (escapeChar quote)

/-- How a value is written. A JSON literal is a text that the deserializer takes for the value, whatever follows. -/
inductive ValueText (lit : Literals F) : Value F → Text → Prop
  | int {n : Int} : -2 ^ 63 ≤ n → n < 2 ^ 63 → ValueText lit (.int n) (intText n)
  | yes : ValueText lit (.bool true) "True".toList
  | no : ValueText lit (.bool false) "False".toList
  | null : ValueText lit .null "None".toList
  | string {quote : Char} (s : Text) : quote = '\'' ∨ quote = '"' →
      ValueText lit (.string s) (quote :: (escape quote s ++ [quote]))
  | json {v : Value F} {t : Text} : t.head? = some '{' ∨ t.head? = some '[' →
      (∀ r, lit.next (t ++ r) = some (v, bytes t)) → ValueText lit v t

/-- How an argument is written, up to the comma or parenthesis behind it. -/
inductive ArgumentText (lit : Literals F) : Text × Value F → Text → Prop
  | mk {w₀ w₁ w₂ w₃ key t : Text} {v : Value F} : Blank w₀ → Ident lit key → Blank w₁ → Blank w₂ → ValueText lit v t →
      Blank w₃ → ArgumentText lit (key, v) (w₀ ++ (key ++ (w₁ ++ '=' :: (w₂ ++ (t ++ w₃)))))

/-- How arguments are written, with the parenthesis behind them; the last may have a comma. -/
inductive ArgumentsText (lit : Literals F) : List (Text × Value F) → Text → Prop
  | close {w : Text} : Blank w → ArgumentsText lit [] (w ++ [')'])
  | last {arg : Text × Value F} {t : Text} : ArgumentText lit arg t → ArgumentsText lit [arg] (t ++ [')'])
  | more {arg : Text × Value F} {args : List (Text × Value F)} {t rest : Text} : ArgumentText lit arg t →
      ArgumentsText lit args rest → ArgumentsText lit (arg :: args) (t ++ ',' :: rest)

inductive CallText (lit : Literals F) : Text × List (Text × Value F) → Text → Prop
  | mk {w₀ name w₁ t w₂ : Text} {args : List (Text × Value F)} : Blank w₀ → Ident lit name → Blank w₁ →
      ArgumentsText lit args t → (args.map Prod.fst).Nodup → Blank w₂ →
      CallText lit (name, args) (w₀ ++ (name ++ (w₁ ++ '(' :: (t ++ w₂))))

/-- How calls are written, with the bracket behind them; the last may have a comma. -/
inductive CallsText (lit : Literals F) : List (Text × List (Text × Value F)) → Text → Prop
  | close {w : Text} : Blank w → CallsText lit [] (w ++ [']'])
  | last {c : Text × List (Text × Value F)} {t : Text} : CallText lit c t → CallsText lit [c] (t ++ [']'])
  | more {c : Text × List (Text × Value F)} {calls : List (Text × List (Text × Value F))} {t rest : Text} :
      CallText lit c t → CallsText lit calls rest → CallsText lit (c :: calls) (t ++ ',' :: rest)

end Texts

section Reads

variable {p : Parser} {a r w t : Text}

theorem decimal_digits (n : Nat) : decimal n ≠ [] ∧ ∀ d ∈ decimal n, d.isDigit = true := by
  rw [decimal, Nat.toString_eq_repr, Nat.toList_repr]
  exact ⟨Nat.toDigits_ne_nil, fun d mem => Nat.isDigit_of_mem_toDigits (b := 10) (by decide) (by decide) mem⟩

theorem intText_first (n : Int) : ∃ c t, intText n = c :: t ∧ (c = '-' ∨ c.isDigit = true) ∧ ∀ d ∈ t, d.isDigit = true := by
  cases n with
  | negSucc n => exact ⟨'-', _, rfl, .inl rfl, (decimal_digits (n + 1)).2⟩
  | ofNat n =>
    obtain ⟨c, t, is⟩ := List.exists_cons_of_ne_nil (decimal_digits n).1
    have all := (decimal_digits n).2
    rw [is] at all
    exact ⟨c, t, is, .inr (all c List.mem_cons_self), fun d mem => all d (List.mem_cons_of_mem c mem)⟩

theorem parseI64_intText {n : Int} (low : -2 ^ 63 ≤ n) (high : n < 2 ^ 63) : parseI64 (intText n) = some n := by
  have read : ∀ n, decimal n ≠ [] ∧ (decimal n).all Char.isDigit = true :=
    fun n => ⟨(decimal_digits n).1, List.all_eq_true.mpr (decimal_digits n).2⟩
  cases n with
  | negSucc n =>
    rw [intText, parseI64, if_pos (read (n + 1))]
    rw [Int.negSucc_eq] at low high ⊢
    simp only [OpenAi.ofDigitChars_decimal, if_true]
    exact if_pos ⟨low, high⟩
  | ofNat n =>
    obtain ⟨c, t, is⟩ := List.exists_cons_of_ne_nil (read n).1
    have digit : c.isDigit = true := (decimal_digits n).2 c (is ▸ List.mem_cons_self)
    rw [intText, parseI64, if_pos (read n)]
    · simp only [OpenAi.ofDigitChars_decimal, Bool.false_eq_true, if_false]
      exact if_pos ⟨low, high⟩
    · intro digits same
      rw [is] at same
      rw [(List.cons.inj same).1] at digit
      cases digit
    · intro digits same
      rw [is] at same
      rw [(List.cons.inj same).1] at digit
      cases digit

theorem isIdent_apart {c : Char} (is : Parser.isIdent lit c) :
    isWhitespace c = false ∧ c ∉ ['(', ')', '[', ']', '=', ','] := by
  simp only [Parser.isIdent, Bool.or_eq_true, decide_eq_true_eq] at is
  rcases is with ((letter | rfl) | rfl) | rfl
  · exact lit.apart c letter
  all_goals decide

theorem digit_word {c : Char} (digit : c.isDigit = true) : Parser.isWord c = true := by
  have range := Char.isDigit_iff_toNat.mp digit
  have apart : ∀ m : Char, m.toNat < 48 ∨ 57 < m.toNat → c ≠ m := by
    rintro m outside rfl
    have : '0'.toNat = 48 ∧ '9'.toNat = 57 := ⟨rfl, rfl⟩
    omega
  have plain : isWhitespace c = false := by
    have : '0'.toNat = 48 ∧ '9'.toNat = 57 := ⟨rfl, rfl⟩
    simp [isWhitespace]
    omega
  simp [Parser.isWord, plain, apart ',' (by decide), apart ')' (by decide), apart ']' (by decide)]

/-- What comes after blanks is a blank or the mark behind them. -/
theorem head_blank {kind : Char → Bool} (blank : Blank w) (blanks : ∀ c, isWhitespace c = true → kind c = false) {m : Char}
    (mark : kind m = false) : ∀ c ∈ (w ++ m :: r).head?, kind c = false := by
  cases w with
  | nil =>
    rintro _ ⟨⟩
    exact mark
  | cons c w =>
    rintro _ ⟨⟩
    exact blanks c (blank c List.mem_cons_self)

theorem ws_eq (blank : Blank w) (stops : ∀ c ∈ r.head?, isWhitespace c = false) (here : p.At (w ++ r)) :
    p.ws = pure (p.past w) :=
  Parser.take_eq blank stops here

theorem ident_eq {name : Text} (is : Ident lit name) (stops : ∀ c ∈ r.head?, Parser.isIdent lit c = false)
    (here : p.At (name ++ r)) : p.ident lit = pure (name, p.past name) := by
  have moved : p.i ≠ (p.past name).i := by
    obtain ⟨c, t, rfl⟩ := List.exists_cons_of_ne_nil is.1
    have := c.utf8Size_pos
    simp only [Parser.past, Parser.bytes_cons]
    omega
  rw [Parser.ident, Parser.take_eq is.2 stops here, pure_bind, if_neg moved, here.since, pure_bind]

theorem quoted_end {quote : Char} (plain : quote ≠ '\\') (off : Nat) : Parser.quoted quote off (quote :: r) = some ([], off) := by
  unfold Parser.quoted
  rw [if_neg plain, if_pos rfl]

theorem quoted_plain {quote c : Char} (plain : c ≠ '\\') (other : c ≠ quote) (off : Nat) :
    Parser.quoted quote off (c :: r) =
      (Parser.quoted quote (off + c.utf8Size) r).map fun out => (c :: out.1, out.2) := by
  conv_lhs => unfold Parser.quoted
  rw [if_neg plain, if_neg other]

theorem quoted_escaped {quote e : Char} (off : Nat) : Parser.quoted quote off ('\\' :: e :: r) =
    (Parser.quoted quote (off + '\\'.utf8Size + e.utf8Size) r).map fun out => (Parser.escaped e :: out.1, out.2) := by
  conv_lhs => unfold Parser.quoted
  rw [if_pos rfl]

theorem escape_cons (quote c : Char) (s : Text) : escape quote (c :: s) = escapeChar quote c ++ escape quote s :=
  List.flatMap_cons

theorem quoted_escape {quote : Char} (is : quote = '\'' ∨ quote = '"') (s : Text) (off : Nat) :
    Parser.quoted quote off (escape quote s ++ quote :: r) = some (s, off + bytes (escape quote s)) := by
  have plain : quote ≠ '\\' := by rcases is with rfl | rfl <;> decide
  induction s generalizing off with
  | nil => exact quoted_end plain off
  | cons c s ih =>
    have escaped : ∀ e, Parser.escaped e = c → escape quote (c :: s) = '\\' :: e :: escape quote s →
        Parser.quoted quote off (escape quote (c :: s) ++ quote :: r) =
          some (c :: s, off + bytes (escape quote (c :: s))) := by
      intro e means written
      rw [written, List.cons_append, List.cons_append, quoted_escaped, ih, Option.map_some, means, Parser.bytes_cons,
        Parser.bytes_cons]
      simp only [Nat.add_assoc]
    by_cases special : c = '\\' ∨ c = quote
    · refine escaped c ?_ (by rw [escape_cons, escapeChar, if_pos special]; rfl)
      rcases special with rfl | rfl
      · rfl
      · rcases is with rfl | rfl <;> rfl
    by_cases newline : c = '\n'
    · exact escaped 'n' newline.symm (by rw [escape_cons, escapeChar, if_neg special, if_pos newline]; rfl)
    by_cases carriage : c = '\r'
    · exact escaped 'r' carriage.symm (by
        rw [escape_cons, escapeChar, if_neg special, if_neg newline, if_pos carriage]; rfl)
    by_cases tab : c = '\t'
    · exact escaped 't' tab.symm (by
        rw [escape_cons, escapeChar, if_neg special, if_neg newline, if_neg carriage, if_pos tab]; rfl)
    have written : escape quote (c :: s) = c :: escape quote s := by
      rw [escape_cons, escapeChar, if_neg special, if_neg newline, if_neg carriage, if_neg tab]
      rfl
    rw [not_or] at special
    rw [written, List.cons_append, quoted_plain special.1 special.2, ih, Option.map_some, Parser.bytes_cons, Nat.add_assoc]

theorem word_eq {c : Char} (first : ¬(c = '\'' ∨ c = '"') ∧ ¬(c = '{' ∨ c = '[')) (all : ∀ d ∈ c :: t, Parser.isWord d)
    (stops : ∀ d ∈ r.head?, Parser.isWord d = false) (here : p.At (c :: t ++ r)) :
    p.value lit = pure (Parser.word lit (c :: t), p.past (c :: t)) := by
  rw [Parser.value, here.rest, pure_bind]
  simp only [List.cons_append, if_neg first.1, if_neg first.2]
  rw [Parser.take_eq all stops here, pure_bind, here.since, pure_bind]

theorem value_eq {v : Value F} (text : ValueText lit v t) (stops : ∀ c ∈ r.head?, Parser.isWord c = false)
    (here : p.At (t ++ r)) : p.value lit = pure (v, p.past t) := by
  cases text with
  | @int n low high =>
    obtain ⟨c, t, is, first, digits⟩ := intText_first n
    have differs : ∀ (m : Char) (u : Text), m ≠ '-' → m.isDigit = false → intText n ≠ m :: u := by
      rintro m u sign digit same
      rw [is] at same
      rcases first with rfl | first
      · exact sign (List.cons.inj same).1.symm
      · rw [(List.cons.inj same).1, digit] at first
        cases first
    have means : Parser.word lit (intText n) = .int n := by
      have other : ¬(intText n = "True".toList ∨ intText n = "true".toList) ∧
          ¬(intText n = "False".toList ∨ intText n = "false".toList) ∧
            ¬(intText n = "None".toList ∨ intText n = "null".toList) :=
        ⟨not_or.mpr ⟨differs 'T' _ (by decide) (by decide), differs 't' _ (by decide) (by decide)⟩,
          not_or.mpr ⟨differs 'F' _ (by decide) (by decide), differs 'f' _ (by decide) (by decide)⟩,
          not_or.mpr ⟨differs 'N' _ (by decide) (by decide), differs 'n' _ (by decide) (by decide)⟩⟩
      rw [Parser.word, if_neg other.1, if_neg other.2.1, if_neg other.2.2, parseI64_intText low high]
    rw [← means]
    rw [is] at here ⊢
    have apart : ∀ m : Char, m ≠ '-' → m.isDigit = false → c ≠ m := fun m sign digit same =>
      differs m t sign digit (same ▸ is)
    refine word_eq ⟨not_or.mpr ⟨apart _ (by decide) (by decide), apart _ (by decide) (by decide)⟩,
      not_or.mpr ⟨apart _ (by decide) (by decide), apart _ (by decide) (by decide)⟩⟩ (fun d mem => ?_) stops here
    rcases List.mem_cons.mp mem with rfl | later
    · rcases first with rfl | digit
      · decide
      · exact digit_word digit
    · exact digit_word (digits d later)
  | yes => exact word_eq (by decide) (List.all_eq_true.mp rfl) stops here
  | no => exact word_eq (by decide) (List.all_eq_true.mp rfl) stops here
  | null => exact word_eq (by decide) (List.all_eq_true.mp rfl) stops here
  | @string quote s is =>
    have next : (p.past [quote]).At (escape quote s ++ quote :: r) := by
      have := here
      simp only [List.cons_append, List.append_assoc] at this
      exact Parser.At.past (a := [quote]) this
    have one : quote.utf8Size = 1 := by rcases is with rfl | rfl <;> rfl
    have moved : ({ p with i := p.i + 1 } : Parser) = p.past [quote] := by simp [Parser.past, bytes, one]
    rw [Parser.value, here.rest, pure_bind]
    simp only [List.cons_append, if_pos is]
    rw [Parser.string, moved, next.rest, pure_bind, quoted_escape is]
    simp [Parser.past, bytes, one, Nat.add_assoc, Nat.add_comm]
  | json starts reads =>
    obtain ⟨c, t, rfl⟩ : ∃ c u, t = c :: u := by
      cases t with
      | nil => rcases starts with none | none <;> cases none
      | cons c u => exact ⟨c, u, rfl⟩
    have brace : c = '{' ∨ c = '[' := by simpa using starts
    have unquoted : ¬(c = '\'' ∨ c = '"') := by rcases brace with rfl | rfl <;> decide
    rw [Parser.value, here.rest, pure_bind]
    simp only [List.cons_append, if_neg unquoted, if_pos brace]
    rw [← List.cons_append, reads r]
    rfl

theorem ValueText.first {v : Value F} (text : ValueText lit v t) : ∀ c ∈ (t ++ r).head?, isWhitespace c = false := by
  cases text with
  | @int n low high =>
    obtain ⟨c, u, is, first, -⟩ := intText_first n
    rw [is]
    rintro _ ⟨⟩
    rcases first with rfl | digit
    · decide
    · have := digit_word digit
      simp only [Parser.isWord, Bool.and_eq_true, Bool.not_eq_true'] at this
      exact this.2
  | yes => rintro _ ⟨⟩; decide
  | no => rintro _ ⟨⟩; decide
  | null => rintro _ ⟨⟩; decide
  | string s is =>
    rintro _ ⟨⟩
    rcases is with rfl | rfl <;> decide
  | json starts _ =>
    cases t with
    | nil => rcases starts with none | none <;> cases none
    | cons c u =>
      rintro _ ⟨⟩
      rcases starts with brace | brace <;> cases brace <;> decide

theorem Ident.first {name : Text} (is : Ident lit name) : ∀ c ∈ (name ++ r).head?, isWhitespace c = false ∧
    c ∉ ['(', ')', '[', ']', '=', ','] := by
  obtain ⟨c, u, rfl⟩ := List.exists_cons_of_ne_nil is.1
  rintro _ ⟨⟩
  exact isIdent_apart (is.2 c List.mem_cons_self)

theorem Ident.head_ne {name : Text} (is : Ident lit name) {m : Char} (mark : m ∈ ['(', ')', '[', ']', '=', ',']) :
    (name ++ r).head? ≠ some m := fun same => (is.first m same).2 mark

theorem mark_stops {m : Char} (mark : m ∈ ['(', ')', '[', ']', '=', ',']) : Parser.isIdent lit m = false := by
  cases is : Parser.isIdent lit m with
  | false => rfl
  | true => exact absurd mark (isIdent_apart is).2

theorem blank_stops (c : Char) (blank : isWhitespace c = true) : Parser.isIdent lit c = false := by
  cases is : Parser.isIdent lit c with
  | false => rfl
  | true => exact absurd (isIdent_apart is).1 (by simp [blank])

/-- An argument and what stands behind it. -/
theorem argument_eq {arg : Text × Value F} (text : ArgumentText lit arg t) {m : Char} (mark : m = ',' ∨ m = ')')
    (here : p.At (t ++ m :: r)) (args : List (Text × Value F)) :
    p.argument lit args = pure (decide (m = ','), Parser.insert arg.1 arg.2 args, p.past (t ++ [m])) := by
  cases text with
  | @mk w₀ w₁ w₂ w₃ key u v blank₀ name blank₁ blank₂ value blank₃ =>
    simp only [List.append_assoc, List.cons_append] at here
    have sep : isWhitespace m = false ∧ Parser.isWord m = false := by rcases mark with rfl | rfl <;> decide
    have at₁ := here.past
    have at₂ := at₁.past
    have at₃ := at₂.past
    have at₄ := Parser.At.past (a := ['=']) at₃
    have at₅ := at₄.past
    have at₆ := at₅.past
    have at₇ := at₆.past
    have step₀ := ws_eq blank₀ (fun c mem => (name.first c mem).1) here
    have step₁ := Parser.eat_other at₁ (name.head_ne (m := ')') (by decide))
    have step₂ := ident_eq name (head_blank blank₁ blank_stops (mark_stops (by decide))) at₁
    have step₃ := ws_eq blank₁ (by rintro _ ⟨⟩; decide) at₂
    have step₄ := Parser.eat_here at₃
    have step₅ := ws_eq blank₂ value.first at₄
    have step₆ := value_eq value (head_blank blank₃ (fun c blank => by simp [Parser.isWord, blank]) sep.2) at₅
    have step₇ := ws_eq blank₃ (by rintro _ ⟨⟩; exact sep.1) at₆
    simp only [Parser.argument, step₀, step₁, step₂, step₃, step₄, step₅, step₆, step₇, pure_bind, Bool.not_true,
      Bool.false_eq_true, if_false]
    rcases mark with rfl | rfl
    · rw [Parser.eat_here at₇, pure_bind]
      simp
    · rw [Parser.eat_other at₇ (by simp), pure_bind]
      simp only [Bool.false_eq_true, if_false]
      rw [Parser.eat_here at₇, pure_bind]
      simp

theorem argument_close (blank : Blank w) (here : p.At (w ++ ')' :: r)) (args : List (Text × Value F)) :
    p.argument lit args = pure (false, args, p.past (w ++ [')'])) := by
  rw [Parser.argument, ws_eq blank (by rintro _ ⟨⟩; decide) here, pure_bind, Parser.eat_here here.past, pure_bind]
  simp

theorem insert_new {key : Text} {v : Value F} {args : List (Text × Value F)} (new : key ∉ args.map Prod.fst) :
    Parser.insert key v args = args ++ [(key, v)] := by
  induction args with
  | nil => rfl
  | cons m args ih =>
    rw [List.map_cons, List.mem_cons, not_or] at new
    rw [Parser.insert, if_neg (Ne.symm new.1), ih new.2]
    rfl

theorem insert_last {before later : List (Text × Value F)} {arg : Text × Value F}
    (distinct : ((before ++ arg :: later).map Prod.fst).Nodup) : Parser.insert arg.1 arg.2 before = before ++ [arg] := by
  rw [List.map_append] at distinct
  exact insert_new fun old => (List.nodup_append.mp distinct).2.2 _ old _ List.mem_cons_self rfl

theorem arguments_eq {args : List (Text × Value F)} (text : ArgumentsText lit args t) (before : List (Text × Value F))
    (distinct : ((before ++ args).map Prod.fst).Nodup) {fuel : Nat} (enough : t.length < fuel) (here : p.At (t ++ r)) :
    p.argumentsFrom lit fuel before = pure (before ++ args, p.past t) := by
  induction text generalizing p before fuel with
  | close blank =>
    obtain ⟨fuel, rfl⟩ := Nat.exists_eq_add_one_of_ne_zero (Nat.ne_of_gt (Nat.zero_lt_of_lt enough))
    rw [List.append_assoc, List.singleton_append] at here
    rw [Parser.argumentsFrom, argument_close blank here, pure_bind]
    simp
  | last arg =>
    obtain ⟨fuel, rfl⟩ := Nat.exists_eq_add_one_of_ne_zero (Nat.ne_of_gt (Nat.zero_lt_of_lt enough))
    rw [List.append_assoc, List.singleton_append] at here
    rw [Parser.argumentsFrom, argument_eq arg (.inr rfl) here, pure_bind, insert_last distinct]
    simp
  | @more first args u rest arg _ ih =>
    obtain ⟨fuel, rfl⟩ := Nat.exists_eq_add_one_of_ne_zero (Nat.ne_of_gt (Nat.zero_lt_of_lt enough))
    rw [List.append_assoc, List.cons_append] at here
    have next : (p.past (u ++ [','])).At (rest ++ r) := Parser.At.past (by simpa using here)
    rw [Parser.argumentsFrom, argument_eq arg (.inl rfl) here, pure_bind, insert_last distinct]
    simp only [decide_true, if_true]
    rw [ih (before ++ [first]) (by simpa using distinct) (by simp at enough; omega) next]
    simp

theorem call_eq {c : Text × List (Text × Value F)} (text : CallText lit c t) {m : Char} (mark : m = ',' ∨ m = ']')
    (here : p.At (t ++ m :: r)) (calls : List (Text × Value F)) :
    Parser.call lit true p calls = pure (decide (m = ','), calls ++ [(c.1, .object c.2)], p.past (t ++ [m])) := by
  cases text with
  | @mk w₀ name w₁ u w₂ args blank₀ named blank₁ written distinct blank₂ =>
    simp only [List.append_assoc, List.cons_append] at here
    have sep : isWhitespace m = false := by rcases mark with rfl | rfl <;> decide
    have at₁ := here.past
    have at₂ := at₁.past
    have at₃ := at₂.past
    have at₄ := Parser.At.past (a := ['(']) at₃
    have at₅ := at₄.past
    have at₆ := at₅.past
    have step₀ := ws_eq blank₀ (fun c mem => (named.first c mem).1) here
    have step₁ := Parser.eat_other at₁ (named.head_ne (m := ']') (by decide))
    have step₂ : (p.past w₀).atEnd = false := by
      obtain ⟨d, name, rfl⟩ := List.exists_cons_of_ne_nil named.1
      exact Parser.not_atEnd at₁
    have step₃ := ident_eq named (head_blank blank₁ blank_stops (mark_stops (by decide))) at₁
    have step₄ := ws_eq blank₁ (by rintro _ ⟨⟩; decide) at₂
    have step₅ := Parser.eat_here at₃
    have enough : u.length < (((p.past w₀).past name).past w₁ |>.past ['(']).s.length + 1 := by
      have : (u ++ (w₂ ++ m :: r)).length ≤ _ := at₄.length_le
      rw [List.length_append] at this
      omega
    have step₆ := arguments_eq written [] distinct enough at₄
    have step₇ := ws_eq blank₂ (by rintro _ ⟨⟩; exact sep) at₅
    simp only [Parser.call, Parser.eatIf, if_true, step₀, step₁, step₂, step₃, step₄, step₅, step₆, step₇, pure_bind, Bool.not_true,
      Bool.false_eq_true, if_false, List.nil_append]
    rcases mark with rfl | rfl
    · rw [Parser.eat_here at₆, pure_bind]
      simp
    · have step₈ := ws_eq (w := []) (fun _ none => absurd none List.not_mem_nil) (by rintro _ ⟨⟩; exact sep) at₆
      rw [Parser.eat_other at₆ (by simp), pure_bind]
      simp only [Bool.false_eq_true, if_false, step₈, pure_bind, Parser.past_nil]
      rw [Parser.eat_here at₆, pure_bind]
      simp

theorem call_close (blank : Blank w) (here : p.At (w ++ ']' :: r)) (calls : List (Text × Value F)) :
    Parser.call lit true p calls = pure (false, calls, p.past (w ++ [']'])) := by
  simp only [Parser.call, Parser.eatIf, if_true, ws_eq blank (by rintro _ ⟨⟩; decide) here, pure_bind, Parser.eat_here here.past,
    Parser.past_past]

/-- What comes of calls that are read back. -/
def readBack (calls : List (Text × List (Text × Value F))) : List (Text × Value F) :=
  calls.map fun c => (c.1, .object c.2)

theorem calls_eq {calls : List (Text × List (Text × Value F))} (text : CallsText lit calls t)
    (before : List (Text × Value F)) {fuel : Nat} (enough : t.length < fuel) (here : p.At (t ++ r)) :
    Parser.callsFrom lit true fuel p before = pure (before ++ readBack calls) := by
  induction text generalizing p before fuel with
  | close blank =>
    obtain ⟨fuel, rfl⟩ := Nat.exists_eq_add_one_of_ne_zero (Nat.ne_of_gt (Nat.zero_lt_of_lt enough))
    rw [List.append_assoc, List.singleton_append] at here
    rw [Parser.callsFrom, call_close blank here, pure_bind]
    simp [readBack]
  | last c =>
    obtain ⟨fuel, rfl⟩ := Nat.exists_eq_add_one_of_ne_zero (Nat.ne_of_gt (Nat.zero_lt_of_lt enough))
    rw [List.append_assoc, List.singleton_append] at here
    rw [Parser.callsFrom, call_eq c (.inr rfl) here, pure_bind]
    simp [readBack]
  | @more first calls u rest c _ ih =>
    obtain ⟨fuel, rfl⟩ := Nat.exists_eq_add_one_of_ne_zero (Nat.ne_of_gt (Nat.zero_lt_of_lt enough))
    rw [List.append_assoc, List.cons_append] at here
    have next : (p.past (u ++ [','])).At (rest ++ r) := Parser.At.past (by simpa using here)
    rw [Parser.callsFrom, call_eq c (.inl rfl) here, pure_bind]
    simp only [decide_true, if_true]
    have shorter : rest.length < fuel := by
      rw [List.length_append, List.length_cons] at enough
      omega
    rw [ih (before ++ [(first.1, Value.object first.2)]) shorter next]
    simp [readBack]

theorem dropWhile_blank {f : Char → Bool} (blank : ∀ c ∈ w, f c = true) (stops : ∀ c ∈ r.head?, f c = false) :
    (w ++ r).dropWhile f = r := by
  induction w with
  | nil =>
    cases r with
    | nil => rfl
    | cons c r => rw [List.nil_append, List.dropWhile_cons, stops c rfl]; rfl
  | cons c w ih =>
    rw [List.cons_append, List.dropWhile_cons, blank c List.mem_cons_self, if_pos rfl]
    exact ih fun d mem => blank d (List.mem_cons_of_mem c mem)

theorem CallsText.ends {calls : List (Text × List (Text × Value F))} (text : CallsText lit calls t) :
    t.getLast? = some ']' := by
  induction text with
  | close _ => simp
  | last _ => simp
  | more _ _ ih => simp [List.getLast?_append, List.getLast?_cons, ih]

theorem trim_eq {w' : Text} (blank : Blank w) (blank' : Blank w') {c d : Char} (first : t.head? = some c)
    (plain : isWhitespace c = false) (last : t.getLast? = some d) (plain' : isWhitespace d = false) :
    trim (w ++ (t ++ w')) = t := by
  rw [trim, dropWhile_blank blank, List.reverse_append, dropWhile_blank fun e mem => blank' e (List.mem_reverse.mp mem),
    List.reverse_reverse]
  · rintro e is
    rw [List.head?_reverse, last] at is
    cases is
    exact plain'
  · rintro e is
    rw [List.head?_append, first] at is
    cases is
    exact plain

/-- Calls as a whole, in brackets. -/
def Spelled (lit : Literals F) (calls : List (Text × List (Text × Value F))) (text : Text) : Prop :=
  ∃ w body w', Blank w ∧ CallsText lit calls body ∧ Blank w' ∧ text = w ++ ('[' :: body ++ w')

theorem reads_back {calls : List (Text × List (Text × Value F))} {text : Text} (spelled : Spelled lit calls text) :
    parseCalls lit text = pure (readBack calls) := by
  obtain ⟨w, body, w', blank, written, blank', rfl⟩ := spelled
  have last : ('[' :: body).getLast? = some ']' := by rw [List.getLast?_cons, written.ends]; rfl
  have start : (⟨'[' :: body, 0⟩ : Parser).At ([] ++ '[' :: body) := ⟨[], rfl, rfl⟩
  have step₀ := ws_eq (w := []) (fun _ none => absurd none List.not_mem_nil) (by rintro _ ⟨⟩; decide) start
  have opened : ((⟨'[' :: body, 0⟩ : Parser).past ['[']).At (body ++ []) := by
    rw [List.append_nil]
    exact Parser.At.past (a := ['[']) start
  have enough : body.length < ((⟨'[' :: body, 0⟩ : Parser).past ['[']).s.length + 1 := by simp
  rw [parseCalls, trim_eq blank blank' rfl (by decide) last (by decide), step₀, pure_bind, Parser.past_nil,
    Parser.eat_here start, pure_bind]
  exact calls_eq written [] enough opened

end Reads

section Total

variable {p : Parser} {n : Nat}

/-- The parser is at a character, or the end, with fewer than so many characters left. -/
def Before (n : Nat) (p : Parser) : Prop := ∃ r, p.At r ∧ r.length < n

theorem Before.mono {m : Nat} (before : Before m p) (le : m ≤ n) : Before n p := by
  obtain ⟨r, here, less⟩ := before
  exact ⟨r, here, Nat.lt_of_lt_of_le less le⟩

theorem take_total (kind : Char → Bool) {r : Text} (here : p.At r) : p.take kind = pure (p.past (r.takeWhile kind)) ∧
    (p.past (r.takeWhile kind)).At (r.dropWhile kind) := by
  have split : p.At (r.takeWhile kind ++ r.dropWhile kind) := by rwa [List.takeWhile_append_dropWhile]
  refine ⟨Parser.take_eq (fun c mem => List.mem_takeWhile_imp mem) (fun c mem => ?_) split, split.past⟩
  have stopped := List.head?_dropWhile_not kind r
  rwa [Option.mem_def.mp mem] at stopped

theorem ws_ends (before : Before n p) : Faults.Ends p.ws (Before n) := by
  obtain ⟨r, here, less⟩ := before
  obtain ⟨is, next⟩ := take_total isWhitespace here
  rw [Parser.ws, is]
  exact .pure ⟨_, next, Nat.lt_of_le_of_lt (List.length_dropWhile_le _ _) less⟩

theorem eat_ends (before : Before n p) (c : Char) :
    Faults.Ends (p.eat c) fun x => Before n x.2 ∧ (x.1 = true → Before (n - 1) x.2) := by
  obtain ⟨r, here, less⟩ := before
  by_cases eaten : r.head? = some c
  · obtain ⟨r, rfl⟩ := List.head?_eq_some_iff.mp eaten
    have fewer : Before (n - 1) (p.past [c]) := ⟨r, Parser.At.past (a := [c]) here, Nat.lt_sub_of_add_lt less⟩
    rw [Parser.eat_here here]
    exact .pure ⟨fewer.mono (Nat.sub_le n 1), fun _ => fewer⟩
  · rw [Parser.eat_other here eaten]
    exact .pure ⟨⟨r, here, less⟩, nofun⟩

theorem ident_ends (before : Before n p) : Faults.Ends (p.ident lit) fun x => Before (n - 1) x.2 := by
  obtain ⟨r, here, less⟩ := before
  obtain ⟨is, next⟩ := take_total (Parser.isIdent lit) here
  rw [Parser.ident, is, pure_bind]
  by_cases same : p.i = (p.past (r.takeWhile (Parser.isIdent lit))).i
  · rw [if_pos same, next.rest, pure_bind]
    exact .throw _ _
  · have split : p.At (r.takeWhile (Parser.isIdent lit) ++ r.dropWhile (Parser.isIdent lit)) := by
      rwa [List.takeWhile_append_dropWhile]
    rw [if_neg same, split.since, pure_bind]
    refine .pure ⟨_, next, ?_⟩
    have some_ : 0 < (r.takeWhile (Parser.isIdent lit)).length := by
      refine List.length_pos_iff.mpr fun none => same ?_
      rw [none, Parser.past_nil]
    have total := congrArg List.length (List.takeWhile_append_dropWhile (p := Parser.isIdent lit) (l := r))
    rw [List.length_append] at total
    omega

/-- A string ends at a quote. -/
theorem quoted_some {quote : Char} {off o : Nat} {t out : Text} (found : Parser.quoted quote off t = some (out, o)) :
    ∃ a r, t = a ++ quote :: r ∧ o = off + bytes a := by
  fun_induction Parser.quoted quote off t generalizing out with
  | case1 => cases found
  | case2 => cases found
  | case3 off e chars ih =>
    obtain ⟨⟨_, _⟩, inner, same⟩ := Option.map_eq_some_iff.mp found
    cases same
    obtain ⟨a, r, rfl, rfl⟩ := ih inner
    exact ⟨'\\' :: e :: a, r, rfl, by simp only [Parser.bytes_cons]; omega⟩
  | case4 off chars _ =>
    cases found
    exact ⟨[], chars, rfl, rfl⟩
  | case5 off c chars _ _ ih =>
    obtain ⟨⟨_, _⟩, inner, same⟩ := Option.map_eq_some_iff.mp found
    cases same
    obtain ⟨a, r, rfl, rfl⟩ := ih inner
    exact ⟨c :: a, r, rfl, by simp only [Parser.bytes_cons]; omega⟩

theorem value_ends (before : Before n p) : Faults.Ends (p.value lit) fun x => Before n x.2 := by
  obtain ⟨r, here, less⟩ := before
  rw [Parser.value, here.rest, pure_bind]
  cases r with
  | nil => exact .throw _ _
  | cons c r =>
    dsimp only
    by_cases quote : c = '\'' ∨ c = '"'
    · have next : (p.past [c]).At r := Parser.At.past (a := [c]) here
      have one : c.utf8Size = 1 := by rcases quote with rfl | rfl <;> rfl
      have moved : ({ p with i := p.i + 1 } : Parser) = p.past [c] := by simp [Parser.past, bytes, one]
      rw [if_pos quote, Parser.string, moved, next.rest, pure_bind]
      cases found : Parser.quoted c 0 r with
      | none => exact .throw _ _
      | some x =>
        obtain ⟨a, r', rfl, is⟩ := quoted_some found
        have next : (p.past [c]).At ((a ++ [c]) ++ r') := by simpa using next
        have there : ({ p.past [c] with i := (p.past [c]).i + (x.2 + 1) } : Parser) = (p.past [c]).past (a ++ [c]) := by
          simp [Parser.past, bytes, is, one]
        refine .pure ⟨r', there ▸ next.past, ?_⟩
        simp at less
        omega
    · rw [if_neg quote]
      split
      · cases read : lit.next (c :: r) with
        | none => exact .throw _ _
        | some x =>
          obtain ⟨a, ⟨r', is⟩, length⟩ := lit.reports _ _ _ read
          have there : ({ p with i := p.i + x.2 } : Parser) = p.past a := by simp [Parser.past, length]
          refine .pure ⟨r', there ▸ Parser.At.past (is ▸ here), ?_⟩
          rw [← is, List.length_append] at less
          omega
      · obtain ⟨is, next⟩ := take_total Parser.isWord here
        have split : p.At ((c :: r).takeWhile Parser.isWord ++ (c :: r).dropWhile Parser.isWord) := by
          rwa [List.takeWhile_append_dropWhile]
        rw [is, pure_bind, split.since, pure_bind]
        exact .pure ⟨_, next, Nat.lt_of_le_of_lt (List.length_dropWhile_le _ _) less⟩

theorem argument_ends (before : Before n p) (args : List (Text × Value F)) :
    Faults.Ends (p.argument lit args) fun x => Before n x.2.2 ∧ (x.1 = true → Before (n - 1) x.2.2) := by
  refine .bind (ws_ends before) fun p before => .bind (eat_ends before ')') fun (closed, p) ⟨before, _⟩ => ?_
  dsimp only
  split
  · exact .pure ⟨before, nofun⟩
  refine .bind (ident_ends before) fun (key, p) before => .bind (ws_ends before) fun p before =>
    .bind (eat_ends before '=') fun (equals, p) ⟨before, _⟩ => ?_
  dsimp only at before ⊢
  split
  · exact .throw _ _
  refine .bind (ws_ends before) fun p before => .bind (value_ends before) fun (v, p) before =>
    .bind (ws_ends before) fun p before => .bind (eat_ends before ',') fun (comma, p) ⟨before, _⟩ => ?_
  dsimp only at before ⊢
  split
  · exact .pure ⟨before.mono (Nat.sub_le n 1), fun _ => before⟩
  refine .bind (eat_ends before ')') fun (closed, p) ⟨before, _⟩ => ?_
  dsimp only at before ⊢
  split
  · exact .pure ⟨before.mono (Nat.sub_le n 1), nofun⟩
  · exact .throw _ _

/-- Each further turn begins with fewer characters left, so the turns end. -/
theorem arguments_end {fuel : Nat} (le : n ≤ fuel) (before : Before n p) (args : List (Text × Value F)) :
    Faults.Ends (p.argumentsFrom lit fuel args) fun x => Before n x.2 := by
  induction fuel generalizing n p args with
  | zero =>
    obtain ⟨r, -, less⟩ := before
    omega
  | succ fuel ih =>
    refine .bind (argument_ends before args) fun (more, args, p) ⟨before, fewer⟩ => ?_
    dsimp only
    split
    · rename_i again
      exact (ih (by omega) (fewer again) args).mono fun x before => before.mono (Nat.sub_le n 1)
    · exact .pure before

theorem call_ends (bracketed : Bool) (before : Before n p) (calls : List (Text × Value F)) :
    Faults.Ends (Parser.call lit bracketed p calls) fun x => Before n x.2.2 ∧ (x.1 = true → Before (n - 1) x.2.2) := by
  refine .bind (ws_ends before) fun p before => ?_
  have closing : Faults.Ends (p.eatIf bracketed ']') fun x => Before n x.2 := by
    unfold Parser.eatIf
    split
    · exact (eat_ends before ']').mono fun x is => is.1
    · exact .pure before
  refine .bind closing fun (closed, p) before => ?_
  dsimp only at before ⊢
  split
  · exact .pure ⟨before, nofun⟩
  split
  · split
    · exact .throw _ _
    · exact .pure ⟨before, nofun⟩
  refine .bind (ident_ends before) fun (name, p) before => .bind (ws_ends before) fun p before =>
    .bind (eat_ends before '(') fun (opened, p) ⟨before, _⟩ => ?_
  dsimp only at before ⊢
  split
  · exact .throw _ _
  have within : Faults.Ends (p.argumentsFrom lit (p.s.length + 1) []) fun x => Before (n - 1) x.2 := by
    obtain ⟨r, here, less⟩ := before
    refine (arguments_end (Nat.succ_le_succ here.length_le) ⟨r, here, Nat.lt_succ_self _⟩ []).mono fun x before => ?_
    exact before.mono less
  refine .bind within fun (args, p) before => .bind (ws_ends before) fun p before =>
    .bind (eat_ends before ',') fun (comma, p) ⟨before, _⟩ => ?_
  dsimp only at before ⊢
  split
  · exact .pure ⟨before.mono (Nat.sub_le n 1), fun _ => before⟩
  split
  · refine .bind (ws_ends before) fun p before => .bind (eat_ends before ']') fun (closed, p) ⟨before, _⟩ => ?_
    dsimp only at before ⊢
    split
    · exact .pure ⟨before.mono (Nat.sub_le n 1), nofun⟩
    · exact .throw _ _
  · exact .pure ⟨before.mono (Nat.sub_le n 1), fun _ => before⟩

theorem calls_end (bracketed : Bool) {fuel : Nat} (le : n ≤ fuel) (before : Before n p) (calls : List (Text × Value F)) :
    Faults.Ends (Parser.callsFrom lit bracketed fuel p calls) fun _ => True := by
  induction fuel generalizing n p calls with
  | zero =>
    obtain ⟨r, -, less⟩ := before
    omega
  | succ fuel ih =>
    refine .bind (call_ends bracketed before calls) fun (more, calls, p) ⟨before, fewer⟩ => ?_
    dsimp only
    split
    · rename_i again
      exact ih (by omega) (fewer again) calls
    · exact .pure trivial

theorem parseCalls_ends (lit : Literals F) (text : Text) : Faults.Ends (parseCalls lit text) fun _ => True := by
  have start : Before ((trim text).length + 1) ⟨trim text, 0⟩ := ⟨trim text, ⟨[], rfl, rfl⟩, Nat.lt_succ_self _⟩
  refine .bind (ws_ends start) fun p before => .bind (eat_ends before '[') fun (bracketed, p) ⟨before, _⟩ => ?_
  obtain ⟨r, here, -⟩ := before
  exact calls_end bracketed (Nat.succ_le_succ here.length_le) ⟨r, here, Nat.lt_succ_self _⟩ []

end Total

/-- Calls that are written out are read back, and every text has a result or an error. -/
theorem calls_read_back (lit : Literals F) :
    (∀ calls text, Spelled lit calls text → (parseCalls lit text).run = some (.ok (readBack calls))) ∧
      ∀ text, ∃ r, (parseCalls lit text).run = some r := by
  constructor
  · intro calls text spelled
    rw [reads_back spelled]
    rfl
  · intro text
    obtain ⟨r, is, -⟩ := parseCalls_ends lit text
    exact ⟨r, is⟩

section Example

theorem ascii_apart (c : Char) (letter : c.isAlphanum = true) :
    isWhitespace c = false ∧ c ∉ ['(', ')', '[', ']', '=', ','] := by
  have range : (65 ≤ c.toNat ∧ c.toNat ≤ 90) ∨ (97 ≤ c.toNat ∧ c.toNat ≤ 122) ∨ 48 ≤ c.toNat ∧ c.toNat ≤ 57 := by
    change ((decide (c.val ≥ 'A'.val ∧ c.val ≤ 'Z'.val) || (c.val ≥ 'a'.val && c.val ≤ 'z'.val)) ||
      (c.val ≥ '0'.val && c.val ≤ '9'.val)) = true at letter
    simpa [UInt32.le_iff_toNat_le, or_assoc] using letter
  constructor
  · simp [isWhitespace]
    omega
  · intro mark
    simp only [List.mem_cons, List.not_mem_nil, or_false] at mark
    rcases mark with rfl | rfl | rfl | rfl | rfl | rfl <;> cases letter

def sampleJson : Text := "\x7b\"k\":[1,2]\x7d".toList

def sampleValue : Value Unit := .object [(['k'], .array [.int 1, .int 2])]

/-- ASCII letters and digits, and a deserializer of one object. -/
def sampleLiterals : Literals Unit where
  isAlphanumeric := Char.isAlphanum
  apart := ascii_apart
  debug text := toString (repr (String.ofList text))
  parseF64 _ := none
  isFinite _ := true
  next t := if sampleJson <+: t then some (sampleValue, bytes sampleJson) else none
  reports t v n read := by
    split at read
    · rename_i starts
      cases read
      exact ⟨sampleJson, starts, rfl⟩
    · cases read

def sampleCalls : List (Text × List (Text × Value Unit)) :=
  [("f".toList, [("n".toList, .int (-3)), ("s".toList, .string "it's\n".toList), ("o".toList, sampleValue)]), ("g".toList, [])]

def sampleText : Text := " [f(n = -3,s='it\\'s\\n', o=\x7b\"k\":[1,2]\x7d ) , g()]\n".toList

theorem sample_spelled : Spelled sampleLiterals sampleCalls sampleText := by
  have blank : Blank [' '] ∧ Blank [] ∧ Blank ['\n']   :=
    ⟨List.all_eq_true.mp rfl, List.all_eq_true.mp rfl, List.all_eq_true.mp rfl⟩
  have number : ArgumentText sampleLiterals ("n".toList, .int (-3)) "n = -3".toList :=
    .mk blank.2.1 ⟨by decide, List.all_eq_true.mp rfl⟩ blank.1 blank.1 (.int (by decide) (by decide)) blank.2.1
  have string : ArgumentText sampleLiterals ("s".toList, .string "it's\n".toList) "s='it\\'s\\n'".toList :=
    .mk blank.2.1 ⟨by decide, List.all_eq_true.mp rfl⟩ blank.2.1 blank.2.1 (.string "it's\n".toList (.inl rfl)) blank.2.1
  have json : ValueText sampleLiterals sampleValue sampleJson :=
    .json (.inl rfl) fun r => by
      show (if sampleJson <+: sampleJson ++ r then _ else none) = _
      exact if_pos (List.prefix_append sampleJson r)
  have object : ArgumentText sampleLiterals ("o".toList, sampleValue) " o=\x7b\"k\":[1,2]\x7d ".toList :=
    .mk blank.1 ⟨by decide, List.all_eq_true.mp rfl⟩ blank.2.1 blank.2.1 json blank.1
  have first : CallText sampleLiterals ("f".toList, _) "f(n = -3,s='it\\'s\\n', o=\x7b\"k\":[1,2]\x7d ) ".toList :=
    .mk blank.2.1 ⟨by decide, List.all_eq_true.mp rfl⟩ blank.2.1 (.more number (.more string (.last object))) (by decide) blank.1
  have second : CallText sampleLiterals ("g".toList, []) " g()".toList :=
    .mk blank.1 ⟨by decide, List.all_eq_true.mp rfl⟩ blank.2.1 (.close blank.2.1) .nil blank.2.1
  exact ⟨_, _, _, blank.1, .more first (.last second), blank.2.2, rfl⟩

theorem calls_read_back_two : (parseCalls sampleLiterals sampleText).run = some (.ok (readBack sampleCalls)) :=
  (calls_read_back sampleLiterals).1 sampleCalls sampleText sample_spelled

end Example

end Vapi.Gateway
