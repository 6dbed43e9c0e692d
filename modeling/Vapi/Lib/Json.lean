import Mathlib.Data.List.Basic

/-!
# JSON texts

The grammar of RFC 8259 over lists of characters, with the value a text
denotes. `Reads strict part t v r` says that `t` is a text of `v` followed by
`r`; a number in it is as long as it can be. Without `strict`, an integer part
may have leading zeros, which is what the scan at the end looks for.

Strings denote their UTF-16 code units, so an escape denotes one unit whether
or not it is half of a pair. Numbers denote their literals.
-/

namespace JsonGrammar

inductive Value
  | null
  | bool (b : Bool)
  | num (lit : List Char)
  | str (units : List Nat)
  | arr (items : List Value)
  | obj (members : List (List Nat × Value))

section Strings

/-- The UTF-16 code units of a character. -/
def charUnits (c : Char) : List Nat :=
  if c.toNat < 0x10000 then [c.toNat]
  else [0xD800 + (c.toNat - 0x10000) / 0x400, 0xDC00 + (c.toNat - 0x10000) % 0x400]

def units (s : List Char) : List Nat := s.flatMap charUnits

/-- What a one-letter escape denotes. -/
def simpleEscape : Char → Option Nat
  | '"' => some 0x22
  | '\\' => some 0x5C
  | '/' => some 0x2F
  | 'b' => some 0x08
  | 'f' => some 0x0C
  | 'n' => some 0x0A
  | 'r' => some 0x0D
  | 't' => some 0x09
  | _ => none

def isHex (c : Char) : Bool :=
  c.isDigit || ('a' ≤ c && c ≤ 'f') || ('A' ≤ c && c ≤ 'F')

def hexValue (c : Char) : Nat :=
  if c.isDigit then c.toNat - 0x30
  else if 'a' ≤ c then c.toNat - 0x61 + 10
  else c.toNat - 0x41 + 10

def hex4 (a b c d : Char) : Nat :=
  ((hexValue a * 16 + hexValue b) * 16 + hexValue c) * 16 + hexValue d

/-- A character that stands for itself in a string. -/
def Plain (c : Char) : Prop := 0x20 ≤ c.toNat ∧ c ≠ '"' ∧ c ≠ '\\'

instance (c : Char) : Decidable (Plain c) := by unfold Plain; infer_instance

/-- The rest of a string, from inside it to behind its closing quote. -/
inductive Chars : List Char → List Nat → List Char → Prop
  | close {r : List Char} : Chars ('"' :: r) [] r
  | plain {c : Char} {t r : List Char} {us : List Nat} :
      Plain c → Chars t us r → Chars (c :: t) (charUnits c ++ us) r
  | escape {e : Char} {u : Nat} {t r : List Char} {us : List Nat} :
      simpleEscape e = some u → Chars t us r → Chars ('\\' :: e :: t) (u :: us) r
  | unicode {a b c d : Char} {t r : List Char} {us : List Nat} :
      isHex a → isHex b → isHex c → isHex d → Chars t us r →
      Chars ('\\' :: 'u' :: a :: b :: c :: d :: t) (hex4 a b c d :: us) r

end Strings

section Numbers

def Digits (ds : List Char) : Prop := ds ≠ [] ∧ ∀ c ∈ ds, c.isDigit

inductive Sign : List Char → Prop
  | none : Sign []
  | minus : Sign ['-']

inductive Fraction : List Char → Prop
  | none : Fraction []
  | some {ds : List Char} : Digits ds → Fraction ('.' :: ds)

inductive Exponent : List Char → Prop
  | none : Exponent []
  | bare {e : Char} {ds : List Char} : e = 'e' ∨ e = 'E' → Digits ds → Exponent (e :: ds)
  | signed {e s : Char} {ds : List Char} : e = 'e' ∨ e = 'E' → s = '+' ∨ s = '-' → Digits ds → Exponent (e :: s :: ds)

/-- A number literal; a strict one has no leading zero before another digit. -/
inductive Number (strict : Bool) : List Char → Prop
  | mk {sign int frac exp : List Char} : Sign sign → Digits int → (strict → int.head? = some '0' → int = ['0']) →
      Fraction frac → Exponent exp → Number strict (sign ++ (int ++ (frac ++ exp)))

def isNumberChar (c : Char) : Bool :=
  c.isDigit || c = '-' || c = '+' || c = '.' || c = 'e' || c = 'E'

/-- Nothing that would go on with a number. -/
def Ends (r : List Char) : Prop := ∀ c, r.head? = some c → isNumberChar c = false

end Numbers

section Grammar

def isWs (c : Char) : Bool := c = ' ' || c = '\t' || c = '\n' || c = '\r'

inductive Ws : List Char → List Char → Prop
  | nil {t : List Char} : Ws t t
  | cons {c : Char} {t r : List Char} : isWs c → Ws t r → Ws (c :: t) r

inductive Part
  | value
  | elements
  | members

/-- The elements of an array come as the array, the members of an object as
the object, each with the closing bracket. -/
inductive Reads (strict : Bool) : Part → List Char → Value → List Char → Prop
  | null {r : List Char} : Reads strict .value ('n' :: 'u' :: 'l' :: 'l' :: r) .null r
  | true_ {r : List Char} : Reads strict .value ('t' :: 'r' :: 'u' :: 'e' :: r) (.bool true) r
  | false_ {r : List Char} : Reads strict .value ('f' :: 'a' :: 'l' :: 's' :: 'e' :: r) (.bool false) r
  | num {t lit r : List Char} : Number strict lit → Ends r → t = lit ++ r → Reads strict .value t (.num lit) r
  | str {t r : List Char} {us : List Nat} : Chars t us r → Reads strict .value ('"' :: t) (.str us) r
  | emptyArray {t r : List Char} : Ws t (']' :: r) → Reads strict .value ('[' :: t) (.arr []) r
  | array {t r : List Char} {v : Value} : Reads strict .elements t v r → Reads strict .value ('[' :: t) v r
  | emptyObject {t r : List Char} : Ws t ('}' :: r) → Reads strict .value ('{' :: t) (.obj []) r
  | object {t r : List Char} {v : Value} : Reads strict .members t v r → Reads strict .value ('{' :: t) v r
  | lastElement {t t₁ t₂ r : List Char} {v : Value} : Ws t t₁ → Reads strict .value t₁ v t₂ → Ws t₂ (']' :: r) →
      Reads strict .elements t (.arr [v]) r
  | element {t t₁ t₂ t₃ r : List Char} {v : Value} {vs : List Value} : Ws t t₁ → Reads strict .value t₁ v t₂ →
      Ws t₂ (',' :: t₃) → Reads strict .elements t₃ (.arr vs) r → Reads strict .elements t (.arr (v :: vs)) r
  | lastMember {t t₁ t₂ t₃ t₄ t₅ r : List Char} {k : List Nat} {v : Value} : Ws t ('"' :: t₁) → Chars t₁ k t₂ →
      Ws t₂ (':' :: t₃) → Ws t₃ t₄ → Reads strict .value t₄ v t₅ → Ws t₅ ('}' :: r) →
      Reads strict .members t (.obj [(k, v)]) r
  | member {t t₁ t₂ t₃ t₄ t₅ t₆ r : List Char} {k : List Nat} {v : Value} {ms : List (List Nat × Value)} :
      Ws t ('"' :: t₁) → Chars t₁ k t₂ → Ws t₂ (':' :: t₃) → Ws t₃ t₄ → Reads strict .value t₄ v t₅ →
      Ws t₅ (',' :: t₆) → Reads strict .members t₆ (.obj ms) r → Reads strict .members t (.obj ((k, v) :: ms)) r

/-- A whole text of a value. -/
def Text (strict : Bool) (t : List Char) (v : Value) : Prop :=
  ∃ t₁ r, Ws t t₁ ∧ Reads strict .value t₁ v r ∧ Ws r []

end Grammar

section Unique

variable {strict : Bool} {t r r' : List Char}

/-- Whitespace before the same text ends at the same place. -/
theorem Ws.unique {c d : Char} (h : Ws t (c :: r)) (h' : Ws t (d :: r')) (hc : isWs c = false)
    (hd : isWs d = false) : c = d ∧ r = r' := by
  generalize e : c :: r = u at h
  induction h with
  | nil =>
    subst e
    cases h' with
    | nil => exact ⟨rfl, rfl⟩
    | cons ws => rw [hc] at ws; cases ws
  | cons ws _ ih =>
    cases h' with
    | nil => rw [hd] at ws; cases ws
    | cons _ rest => exact ih rest e

theorem Chars.unique {us us' : List Nat} (h : Chars t us r) (h' : Chars t us' r') : us = us' ∧ r = r' := by
  induction h generalizing us' with
  | close =>
    cases h' with
    | close => exact ⟨rfl, rfl⟩
    | plain p => exact absurd rfl p.2.1
  | plain p _ ih =>
    cases h' with
    | close => exact absurd rfl p.2.1
    | plain _ rest =>
      obtain ⟨rfl, rfl⟩ := ih rest
      exact ⟨rfl, rfl⟩
    | escape => exact absurd rfl p.2.2
    | unicode => exact absurd rfl p.2.2
  | escape e _ ih =>
    cases h' with
    | plain p => exact absurd rfl p.2.2
    | escape e' rest =>
      obtain ⟨rfl, rfl⟩ := ih rest
      exact ⟨congrArg (· :: _) (Option.some.inj (e.symm.trans e')), rfl⟩
    | unicode => cases e
  | unicode _ _ _ _ _ ih =>
    cases h' with
    | plain p => exact absurd rfl p.2.2
    | escape e => cases e
    | unicode _ _ _ _ rest =>
      obtain ⟨rfl, rfl⟩ := ih rest
      exact ⟨rfl, rfl⟩

/-- The units a string's contents denote. -/
def denoted : List Char → List Nat
  | '\\' :: 'u' :: a :: b :: c :: d :: t => hex4 a b c d :: denoted t
  | '\\' :: e :: t => (simpleEscape e).getD 0 :: denoted t
  | c :: t => charUnits c ++ denoted t
  | [] => []

theorem denoted_plain {c : Char} (h : c ≠ '\\') (t : List Char) : denoted (c :: t) = charUnits c ++ denoted t := by
  rw [denoted]
  · rintro _ _ _ _ _ rfl
    exact absurd rfl h
  · rintro _ _ rfl
    exact absurd rfl h

theorem denoted_escape {e : Char} {u : Nat} (h : simpleEscape e = some u) (t : List Char) :
    denoted ('\\' :: e :: t) = u :: denoted t := by
  rw [denoted, h, Option.getD_some]
  rintro _ _ _ _ _ rfl
  cases h

theorem denoted_of_plain {l : List Char} (h : '\\' ∉ l) : denoted l = units l := by
  induction l with
  | nil => rfl
  | cons c l ih =>
    rw [List.mem_cons, not_or] at h
    rw [denoted_plain (Ne.symm h.1), ih h.2]
    rfl

/-- What is read from inside a string to its closing quote. -/
theorem Chars.body {us : List Nat} (h : Chars t us r) : ∃ b, t = b ++ '"' :: r ∧ denoted b = us := by
  induction h with
  | close => exact ⟨[], rfl, rfl⟩
  | @plain c t r us p _ ih =>
    obtain ⟨b, rfl, rfl⟩ := ih
    exact ⟨c :: b, rfl, denoted_plain p.2.2 b⟩
  | escape e _ ih =>
    obtain ⟨b, rfl, rfl⟩ := ih
    exact ⟨_ :: _ :: b, rfl, denoted_escape e b⟩
  | unicode _ _ _ _ _ ih =>
    obtain ⟨b, rfl, rfl⟩ := ih
    exact ⟨_ :: _ :: _ :: _ :: _ :: _ :: b, rfl, rfl⟩

theorem charUnits_injective {c d : Char} {us vs : List Nat} (h : charUnits c ++ us = charUnits d ++ vs) :
    c = d ∧ us = vs := by
  have scalar : ∀ x : Char, x.toNat < 0xD800 ∨ 0xDFFF < x.toNat ∧ x.toNat < 0x110000 := fun x => x.valid
  have hc := scalar c
  have hd := scalar d
  unfold charUnits at h
  split at h <;> split at h
  · obtain ⟨same, rest⟩ := List.cons.inj h
    exact ⟨Char.toNat_inj.mp same, rest⟩
  · have := (List.cons.inj h).1
    omega
  · have := (List.cons.inj h).1
    omega
  · obtain ⟨high, rest⟩ := List.cons.inj h
    obtain ⟨low, rest⟩ := List.cons.inj rest
    exact ⟨Char.toNat_inj.mp (by omega), rest⟩

theorem units_injective {s t : List Char} (h : units s = units t) : s = t := by
  have ne : ∀ (c : Char) us, charUnits c ++ us ≠ [] := by
    intro c us
    unfold charUnits
    split <;> simp
  induction s generalizing t with
  | nil =>
    cases t with
    | nil => rfl
    | cons d t => exact absurd h.symm (ne d _)
  | cons c s ih =>
    cases t with
    | nil => exact absurd h (ne c _)
    | cons d t =>
      obtain ⟨rfl, rest⟩ := charUnits_injective h
      rw [ih rest]

theorem isNumberChar_of_isDigit {c : Char} (h : c.isDigit) : isNumberChar c := by
  simp [isNumberChar, h]

theorem Number.chars {lit : List Char} (h : Number strict lit) : ∀ c ∈ lit, isNumberChar c := by
  have digits : ∀ {ds : List Char}, Digits ds → ∀ c ∈ ds, isNumberChar c :=
    fun h c hc => isNumberChar_of_isDigit (h.2 c hc)
  obtain ⟨sign, int, -, frac, exp⟩ := h
  intro c hc
  simp only [List.mem_append] at hc
  rcases hc with hc | hc | hc | hc
  · cases sign with
    | none => cases hc
    | minus => simp [List.mem_singleton.mp hc, isNumberChar]
  · exact digits int c hc
  · cases frac with
    | none => cases hc
    | some ds =>
      rcases List.mem_cons.mp hc with rfl | hc
      · simp [isNumberChar]
      · exact digits ds c hc
  · cases exp with
    | none => cases hc
    | bare e ds =>
      rcases List.mem_cons.mp hc with rfl | hc
      · rcases e with rfl | rfl <;> simp [isNumberChar]
      · exact digits ds c hc
    | signed e s ds =>
      rcases List.mem_cons.mp hc with rfl | hc
      · rcases e with rfl | rfl <;> simp [isNumberChar]
      · rcases List.mem_cons.mp hc with rfl | hc
        · rcases s with rfl | rfl <;> simp [isNumberChar]
        · exact digits ds c hc

/-- A number begins with a sign or a digit. -/
theorem Number.head {lit : List Char} (h : Number strict lit) :
    ∃ c l, lit = c :: l ∧ (c = '-' ∨ c.isDigit) := by
  obtain ⟨sign, int, -, -, -⟩ := h
  cases sign with
  | minus => exact ⟨'-', _, rfl, .inl rfl⟩
  | none =>
    obtain ⟨some_, digits⟩ := int
    obtain ⟨c, l, rfl⟩ := List.exists_cons_of_ne_nil some_
    exact ⟨c, _, rfl, .inr (digits c (by simp))⟩

/-- Two runs of number characters that nothing goes on with are one. -/
theorem ends_unique {a b : List Char} (ha : ∀ c ∈ a, isNumberChar c) (hb : ∀ c ∈ b, isNumberChar c)
    (hr : Ends r) (hr' : Ends r') (e : a ++ r = b ++ r') : a = b ∧ r = r' := by
  induction a generalizing b with
  | nil =>
    cases b with
    | nil => exact ⟨rfl, e⟩
    | cons d b =>
      have go := hr d (by rw [show r = d :: b ++ r' from e]; rfl)
      rw [hb d (by simp)] at go
      cases go
  | cons c a ih =>
    cases b with
    | nil =>
      have go := hr' c (by rw [show r' = c :: a ++ r from e.symm]; rfl)
      rw [ha c (by simp)] at go
      cases go
    | cons d b =>
      obtain ⟨rfl, tails⟩ := List.cons.inj e
      obtain ⟨rfl, rfl⟩ := ih (fun x hx => ha x (by simp [hx])) (fun x hx => hb x (by simp [hx])) tails
      exact ⟨rfl, rfl⟩

/-- What a value may begin with. -/
def startsValue (c : Char) : Bool :=
  c = 'n' || c = 't' || c = 'f' || c = '"' || c = '[' || c = '{' || c = '-' || c.isDigit

theorem Reads.starts {v : Value} (h : Reads strict .value t v r) : ∃ c l, t = c :: l ∧ startsValue c := by
  cases h with
  | num n _ e =>
    obtain ⟨c, l, rfl, hc⟩ := n.head
    refine ⟨c, l ++ r, e, ?_⟩
    rcases hc with rfl | hc
    · rfl
    · simp [startsValue, hc]
  | _ => exact ⟨_, _, rfl, rfl⟩

theorem startsValue_not_ws {c : Char} (h : startsValue c) : isWs c = false := by
  by_contra ws
  rw [Bool.not_eq_false] at ws
  simp only [isWs, Bool.or_eq_true, decide_eq_true_eq] at ws
  rcases ws with ((rfl | rfl) | rfl) | rfl <;> exact absurd h (by decide)

theorem Ws.unique_value {v v' : Value} {t₁ t₂ : List Char} (h : Ws t t₁) (h' : Ws t t₂)
    (hv : Reads strict .value t₁ v r) (hv' : Reads strict .value t₂ v' r') : t₁ = t₂ := by
  obtain ⟨c, l, rfl, hc⟩ := hv.starts
  obtain ⟨d, l', rfl, hd⟩ := hv'.starts
  obtain ⟨rfl, rfl⟩ := h.unique h' (startsValue_not_ws hc) (startsValue_not_ws hd)
  rfl

/-- No value begins with a mark that closes. -/
theorem Ws.not_value {v : Value} {c : Char} {t₁ t₂ : List Char} (h : Ws t (c :: t₂)) (h' : Ws t t₁)
    (hv : Reads strict .value t₁ v r) (hc : isWs c = false) (closes : startsValue c = false) : False := by
  obtain ⟨d, l, rfl, hd⟩ := hv.starts
  obtain ⟨rfl, -⟩ := h.unique h' hc (startsValue_not_ws hd)
  rw [closes] at hd
  cases hd

/-- What a text reads as is determined by it, and so is where it ends. -/
theorem Reads.unique {p : Part} {v v' : Value} (h : Reads strict p t v r) (h' : Reads strict p t v' r') :
    v = v' ∧ r = r' := by
  have number : ∀ {c : Char} {l lit r : List Char}, Number strict lit → c :: l = lit ++ r → c = '-' ∨ c.isDigit := by
    intro c l lit r n e
    obtain ⟨d, l', rfl, hd⟩ := n.head
    obtain ⟨rfl, -⟩ := List.cons.inj e
    exact hd
  induction h generalizing v' r' with
  | null =>
    cases h' with
    | null => exact ⟨rfl, rfl⟩
    | num n _ e => exact absurd (number n e) (by decide)
  | true_ =>
    cases h' with
    | true_ => exact ⟨rfl, rfl⟩
    | num n _ e => exact absurd (number n e) (by decide)
  | false_ =>
    cases h' with
    | false_ => exact ⟨rfl, rfl⟩
    | num n _ e => exact absurd (number n e) (by decide)
  | num n ends e =>
    cases h' with
    | num n' ends' e' =>
      obtain ⟨rfl, rfl⟩ := ends_unique n.chars n'.chars ends ends' (e.symm.trans e')
      exact ⟨rfl, rfl⟩
    | _ => exact absurd (number n e) (by decide)
  | str chars =>
    cases h' with
    | str chars' =>
      obtain ⟨rfl, rfl⟩ := chars.unique chars'
      exact ⟨rfl, rfl⟩
    | num n _ e => exact absurd (number n e) (by decide)
  | emptyArray ws =>
    cases h' with
    | emptyArray ws' => exact ⟨rfl, (ws.unique ws' rfl rfl).2⟩
    | array elements =>
      cases elements with
      | lastElement ws' v _ => exact (ws.not_value ws' v rfl rfl).elim
      | element ws' v _ _ => exact (ws.not_value ws' v rfl rfl).elim
    | num n _ e => exact absurd (number n e) (by decide)
  | array elements ih =>
    cases h' with
    | emptyArray ws' =>
      cases elements with
      | lastElement ws v _ => exact (ws'.not_value ws v rfl rfl).elim
      | element ws v _ _ => exact (ws'.not_value ws v rfl rfl).elim
    | array elements' => exact ih elements'
    | num n _ e => exact absurd (number n e) (by decide)
  | emptyObject ws =>
    cases h' with
    | emptyObject ws' => exact ⟨rfl, (ws.unique ws' rfl rfl).2⟩
    | object members =>
      cases members with
      | lastMember ws' => exact absurd (ws.unique ws' rfl rfl).1 (by decide)
      | member ws' => exact absurd (ws.unique ws' rfl rfl).1 (by decide)
    | num n _ e => exact absurd (number n e) (by decide)
  | object members ih =>
    cases h' with
    | emptyObject ws' =>
      cases members with
      | lastMember ws => exact absurd (ws.unique ws' rfl rfl).1 (by decide)
      | member ws => exact absurd (ws.unique ws' rfl rfl).1 (by decide)
    | object members' => exact ih members'
    | num n _ e => exact absurd (number n e) (by decide)
  | lastElement ws v after ih =>
    cases h' with
    | lastElement ws' v' after' =>
      obtain rfl := ws.unique_value ws' v v'
      obtain ⟨rfl, rfl⟩ := ih v'
      exact ⟨rfl, (after.unique after' rfl rfl).2⟩
    | element ws' v' after' _ =>
      obtain rfl := ws.unique_value ws' v v'
      obtain ⟨rfl, rfl⟩ := ih v'
      exact absurd (after.unique after' rfl rfl).1 (by decide)
  | element ws v after _ ih ihs =>
    cases h' with
    | lastElement ws' v' after' =>
      obtain rfl := ws.unique_value ws' v v'
      obtain ⟨rfl, rfl⟩ := ih v'
      exact absurd (after.unique after' rfl rfl).1 (by decide)
    | element ws' v' after' vs' =>
      obtain rfl := ws.unique_value ws' v v'
      obtain ⟨rfl, rfl⟩ := ih v'
      obtain ⟨-, rfl⟩ := after.unique after' rfl rfl
      obtain ⟨same, rfl⟩ := ihs vs'
      rw [Value.arr.inj same]
      exact ⟨rfl, rfl⟩
  | lastMember ws k colon ws₂ v after ih =>
    cases h' with
    | lastMember ws' k' colon' ws₂' v' after' =>
      obtain ⟨-, rfl⟩ := ws.unique ws' rfl rfl
      obtain ⟨rfl, rfl⟩ := k.unique k'
      obtain ⟨-, rfl⟩ := colon.unique colon' rfl rfl
      obtain rfl := ws₂.unique_value ws₂' v v'
      obtain ⟨rfl, rfl⟩ := ih v'
      exact ⟨rfl, (after.unique after' rfl rfl).2⟩
    | member ws' k' colon' ws₂' v' after' _ =>
      obtain ⟨-, rfl⟩ := ws.unique ws' rfl rfl
      obtain ⟨rfl, rfl⟩ := k.unique k'
      obtain ⟨-, rfl⟩ := colon.unique colon' rfl rfl
      obtain rfl := ws₂.unique_value ws₂' v v'
      obtain ⟨rfl, rfl⟩ := ih v'
      exact absurd (after.unique after' rfl rfl).1 (by decide)
  | member ws k colon ws₂ v after _ ih ihs =>
    cases h' with
    | lastMember ws' k' colon' ws₂' v' after' =>
      obtain ⟨-, rfl⟩ := ws.unique ws' rfl rfl
      obtain ⟨rfl, rfl⟩ := k.unique k'
      obtain ⟨-, rfl⟩ := colon.unique colon' rfl rfl
      obtain rfl := ws₂.unique_value ws₂' v v'
      obtain ⟨rfl, rfl⟩ := ih v'
      exact absurd (after.unique after' rfl rfl).1 (by decide)
    | member ws' k' colon' ws₂' v' after' ms' =>
      obtain ⟨-, rfl⟩ := ws.unique ws' rfl rfl
      obtain ⟨rfl, rfl⟩ := k.unique k'
      obtain ⟨-, rfl⟩ := colon.unique colon' rfl rfl
      obtain rfl := ws₂.unique_value ws₂' v v'
      obtain ⟨rfl, rfl⟩ := ih v'
      obtain ⟨-, rfl⟩ := after.unique after' rfl rfl
      obtain ⟨same, rfl⟩ := ihs ms'
      rw [Value.obj.inj same]
      exact ⟨rfl, rfl⟩

/-- A text denotes at most one value. -/
theorem Text.unique {v v' : Value} (h : Text strict t v) (h' : Text strict t v') : v = v' := by
  obtain ⟨t₁, r, ws, reads, -⟩ := h
  obtain ⟨t₂, r', ws', reads', -⟩ := h'
  obtain rfl := ws.unique_value ws' reads reads'
  exact (reads.unique reads').1

end Unique

section LeadingZeros

variable {t r : List Char}

theorem Number.lax {strict : Bool} {lit : List Char} (h : Number strict lit) : Number false lit := by
  obtain ⟨sign, int, -, frac, exp⟩ := h
  exact .mk sign int (by simp) frac exp

theorem Reads.lax {strict : Bool} {p : Part} {v : Value} (h : Reads strict p t v r) : Reads false p t v r := by
  induction h with
  | null => exact .null
  | true_ => exact .true_
  | false_ => exact .false_
  | num n ends e => exact .num n.lax ends e
  | str chars => exact .str chars
  | emptyArray ws => exact .emptyArray ws
  | array _ ih => exact .array ih
  | emptyObject ws => exact .emptyObject ws
  | object _ ih => exact .object ih
  | lastElement ws _ after ih => exact .lastElement ws ih after
  | element ws _ after _ ih ihs => exact .element ws ih after ihs
  | lastMember ws k colon ws₂ _ after ih => exact .lastMember ws k colon ws₂ ih after
  | member ws k colon ws₂ _ after _ ih ihs => exact .member ws k colon ws₂ ih after ihs

theorem Text.lax {strict : Bool} {v : Value} (h : Text strict t v) : Text false t v := by
  obtain ⟨t₁, r, ws, reads, after⟩ := h
  exact ⟨t₁, r, ws, reads.lax, after⟩

/-- Where a scan for leading zeros is. -/
inductive Scan
  | out
  | str
  | escaped
  | minus
  | zero
  | num
  deriving DecidableEq, Repr

/-- Outside strings and numbers. -/
def Scan.outside (c : Char) : Scan :=
  if c = '"' then .str
  else if c = '-' then .minus
  else if c = '0' then .zero
  else if c.isDigit then .num
  else .out

/-- None at a digit right after a zero that begins a number. -/
def Scan.step : Scan → Char → Option Scan
  | .out, c => some (outside c)
  | .str, c => some (if c = '"' then .out else if c = '\\' then .escaped else .str)
  | .escaped, _ => some .str
  | .minus, c => some (if c = '0' then .zero else if c.isDigit then .num else outside c)
  | .zero, c => if c.isDigit then none else some (if isNumberChar c then .num else outside c)
  | .num, c => some (if isNumberChar c then .num else outside c)

/-- No number of the text has a zero before its first other digit. -/
def noLeadingZero : Scan → List Char → Bool
  | _, [] => true
  | s, c :: t =>
    match s.step c with
    | none => false
    | some s => noLeadingZero s t

theorem noLeadingZero_cons (s : Scan) (c : Char) (t : List Char) {s' : Scan} (step : s.step c = some s') :
    noLeadingZero s (c :: t) = noLeadingZero s' t := by
  simp [noLeadingZero, step]

/-- After a number the scan is outside again. -/
theorem Ends.scan (h : Ends r) {s : Scan} (at_ : s = .zero ∨ s = .num) : noLeadingZero s r = noLeadingZero .out r := by
  cases r with
  | nil => rfl
  | cons c r =>
    have stop := h c rfl
    have nodigit : c.isDigit = false := by
      by_contra digit
      rw [isNumberChar_of_isDigit (by simpa using digit)] at stop
      cases stop
    have step : s.step c = some (Scan.outside c) := by
      rcases at_ with rfl | rfl <;> simp [Scan.step, stop, nodigit]
    rw [noLeadingZero_cons s c r step, noLeadingZero_cons .out c r rfl]

theorem scan_numberChars {a : List Char} (h : ∀ c ∈ a, isNumberChar c) (r : List Char) :
    noLeadingZero .num (a ++ r) = noLeadingZero .num r := by
  induction a with
  | nil => rfl
  | cons c a ih =>
    have step : Scan.num.step c = some .num := by simp [Scan.step, h c (by simp)]
    rw [List.cons_append, noLeadingZero_cons _ _ _ step, ih fun x hx => h x (by simp [hx])]

theorem Ws.scan (h : Ws t r) : noLeadingZero .out t = noLeadingZero .out r := by
  induction h with
  | nil => rfl
  | @cons c t r ws _ ih =>
    have step : Scan.out.step c = some .out := by
      simp only [isWs, Bool.or_eq_true, decide_eq_true_eq] at ws
      rcases ws with ((rfl | rfl) | rfl) | rfl <;> rfl
    rw [noLeadingZero_cons _ _ _ step, ih]

theorem scan_units (a : List Char) (h : ∀ c ∈ a, c ≠ '"' ∧ c ≠ '\\') (r : List Char) :
    noLeadingZero .str (a ++ r) = noLeadingZero .str r := by
  induction a with
  | nil => rfl
  | cons c a ih =>
    have step : Scan.str.step c = some .str := by simp [Scan.step, h c (by simp)]
    rw [List.cons_append, noLeadingZero_cons _ _ _ step, ih fun x hx => h x (by simp [hx])]

theorem isHex_plain {c : Char} (h : isHex c) : c ≠ '"' ∧ c ≠ '\\' := by
  constructor <;> rintro rfl <;> exact absurd h (by decide)

theorem scan_backslash (t : List Char) : noLeadingZero .str ('\\' :: t) = noLeadingZero .escaped t :=
  noLeadingZero_cons _ _ _ rfl

theorem Chars.scan {us : List Nat} (h : Chars t us r) : noLeadingZero .str t = noLeadingZero .out r := by
  induction h with
  | close => rfl
  | @plain c t r us p _ ih =>
    have step : Scan.str.step c = some .str := by simp [Scan.step, p.2.1, p.2.2]
    rw [noLeadingZero_cons _ _ _ step, ih]
  | @escape e u t r us _ _ ih =>
    have step : Scan.escaped.step e = some .str := rfl
    rw [scan_backslash, noLeadingZero_cons _ _ _ step, ih]
  | @unicode a b c d t r us ha hb hc hd _ ih =>
    have step : Scan.escaped.step 'u' = some .str := rfl
    rw [scan_backslash, noLeadingZero_cons _ _ _ step]
    refine (scan_units [a, b, c, d] ?_ t).trans ih
    simp only [List.mem_cons, List.not_mem_nil, or_false]
    rintro x (rfl | rfl | rfl | rfl)
    exacts [isHex_plain ha, isHex_plain hb, isHex_plain hc, isHex_plain hd]

/-- What follows the integer part of a number. -/
theorem tail_chars {frac exp : List Char} (hf : Fraction frac) (he : Exponent exp) :
    (∀ c ∈ frac ++ exp, isNumberChar c) ∧ ∀ c l, frac ++ exp = c :: l → c.isDigit = false := by
  constructor
  · have zero : Digits ['0'] := ⟨by simp, by simp⟩
    have number : Number false ([] ++ (['0'] ++ (frac ++ exp))) := .mk .none zero (by simp) hf he
    exact fun c hc => number.chars c (List.mem_append_right [] (List.mem_append_right ['0'] hc))
  · intro c l e
    cases hf with
    | some => cases e; rfl
    | none =>
      cases he with
      | none => cases e
      | bare mark => cases e; rcases mark with rfl | rfl <;> rfl
      | signed mark => cases e; rcases mark with rfl | rfl <;> rfl

/-- A number passes the scan unless a zero begins its integer part and is not
all of it. -/
theorem number_scan {sign int frac exp : List Char} (hs : Sign sign) (hi : Digits int) (hf : Fraction frac)
    (he : Exponent exp) (ends : Ends r) :
    noLeadingZero .out (sign ++ (int ++ (frac ++ exp)) ++ r) = true ↔
      (int.head? = some '0' → int = ['0']) ∧ noLeadingZero .out r = true := by
  obtain ⟨chars, head⟩ := tail_chars hf he
  generalize frac ++ exp = u at chars head
  obtain ⟨some_, digits⟩ := hi
  obtain ⟨d, ds, rfl⟩ := List.exists_cons_of_ne_nil some_
  have digit := digits d (by simp)
  have start : ∀ s : Scan, s = .out ∨ s = .minus → s.step d = some (if d = '0' then .zero else .num) := by
    have quote : d ≠ '"' := by rintro rfl; exact absurd digit (by decide)
    have dash : d ≠ '-' := by rintro rfl; exact absurd digit (by decide)
    rintro s (rfl | rfl)
    · simp only [Scan.step, Scan.outside, if_neg quote, if_neg dash, if_pos digit]
    · by_cases zero : d = '0' <;> simp [Scan.step, zero, digit]
  have body : noLeadingZero (if d = '0' then .zero else .num) (ds ++ (u ++ r)) = true ↔
      ((d :: ds).head? = some '0' → d :: ds = ['0']) ∧ noLeadingZero .out r = true := by
    by_cases zero : d = '0'
    · subst zero
      rw [if_pos rfl]
      cases ds with
      | cons e ds => simp [noLeadingZero, Scan.step, digits e (by simp)]
      | nil =>
        cases u with
        | nil => simp [ends.scan (.inl rfl)]
        | cons c u =>
          have step : Scan.zero.step c = some .num := by simp [Scan.step, head c u rfl, chars c (by simp)]
          rw [List.nil_append, List.cons_append, noLeadingZero_cons _ _ _ step,
            scan_numberChars (fun x hx => chars x (by simp [hx])), ends.scan (.inr rfl)]
          simp
    · rw [if_neg zero, ← List.append_assoc, scan_numberChars, ends.scan (.inr rfl)]
      · simp [zero]
      · intro x hx
        rcases List.mem_append.mp hx with hx | hx
        · exact isNumberChar_of_isDigit (digits x (by simp [hx]))
        · exact chars x hx
  rw [List.append_assoc, List.append_assoc]
  cases hs with
  | none =>
    rw [List.nil_append, List.cons_append, noLeadingZero_cons _ _ _ (start .out (.inl rfl))]
    exact body
  | minus =>
    rw [List.singleton_append, noLeadingZero_cons .out _ _ rfl, List.cons_append]
    change noLeadingZero .minus _ = true ↔ _
    rw [noLeadingZero_cons _ _ _ (start .minus (.inr rfl))]
    exact body

/-- A strict text passes the scan. -/
theorem Reads.scan {p : Part} {v : Value} (h : Reads true p t v r) :
    noLeadingZero .out r = true → noLeadingZero .out t = true := by
  induction h with
  | null => exact id
  | true_ => exact id
  | false_ => exact id
  | num n ends e =>
    intro after
    obtain ⟨sign, int, strict, frac, exp⟩ := n
    rw [e]
    exact (number_scan sign int frac exp ends).mpr ⟨strict rfl, after⟩
  | str chars => exact fun after => chars.scan.trans after
  | emptyArray ws => exact fun after => ws.scan.trans after
  | array _ ih => exact ih
  | emptyObject ws => exact fun after => ws.scan.trans after
  | object _ ih => exact ih
  | lastElement ws _ close ih => exact fun after => ws.scan.trans (ih (close.scan.trans after))
  | element ws _ comma _ ih ihs => exact fun after => ws.scan.trans (ih (comma.scan.trans (ihs after)))
  | lastMember ws k colon ws₂ _ close ih =>
    exact fun after => ws.scan.trans (k.scan.trans (colon.scan.trans (ws₂.scan.trans (ih (close.scan.trans after)))))
  | member ws k colon ws₂ _ comma _ ih ihs =>
    exact fun after =>
      ws.scan.trans (k.scan.trans (colon.scan.trans (ws₂.scan.trans (ih (comma.scan.trans (ihs after))))))

/-- A text that passes it is strict. -/
theorem Reads.strict {p : Part} {v : Value} (h : Reads false p t v r) :
    noLeadingZero .out t = true → Reads true p t v r ∧ noLeadingZero .out r = true := by
  induction h with
  | null => exact fun pass => ⟨.null, pass⟩
  | true_ => exact fun pass => ⟨.true_, pass⟩
  | false_ => exact fun pass => ⟨.false_, pass⟩
  | num n ends e =>
    intro pass
    obtain ⟨sign, int, -, frac, exp⟩ := n
    rw [e] at pass
    obtain ⟨strict, after⟩ := (number_scan sign int frac exp ends).mp pass
    exact ⟨.num (.mk sign int (fun _ => strict) frac exp) ends e, after⟩
  | str chars => exact fun pass => ⟨.str chars, chars.scan.symm.trans pass⟩
  | emptyArray ws => exact fun pass => ⟨.emptyArray ws, ws.scan.symm.trans pass⟩
  | array _ ih => exact fun pass => (ih pass).imp_left .array
  | emptyObject ws => exact fun pass => ⟨.emptyObject ws, ws.scan.symm.trans pass⟩
  | object _ ih => exact fun pass => (ih pass).imp_left .object
  | lastElement ws _ close ih =>
    intro pass
    obtain ⟨v, after⟩ := ih (ws.scan.symm.trans pass)
    exact ⟨.lastElement ws v close, close.scan.symm.trans after⟩
  | element ws _ comma _ ih ihs =>
    intro pass
    obtain ⟨v, after⟩ := ih (ws.scan.symm.trans pass)
    obtain ⟨vs, after⟩ := ihs (comma.scan.symm.trans after)
    exact ⟨.element ws v comma vs, after⟩
  | lastMember ws k colon ws₂ _ close ih =>
    intro pass
    have pass := colon.scan.symm.trans (k.scan.symm.trans (ws.scan.symm.trans pass))
    obtain ⟨v, after⟩ := ih (ws₂.scan.symm.trans pass)
    exact ⟨.lastMember ws k colon ws₂ v close, close.scan.symm.trans after⟩
  | member ws k colon ws₂ _ comma _ ih ihs =>
    intro pass
    have pass := colon.scan.symm.trans (k.scan.symm.trans (ws.scan.symm.trans pass))
    obtain ⟨v, after⟩ := ih (ws₂.scan.symm.trans pass)
    obtain ⟨ms, after⟩ := ihs (comma.scan.symm.trans after)
    exact ⟨.member ws k colon ws₂ v comma ms, after⟩

/-- A lax text is a JSON text exactly when it has no leading zeros. -/
theorem Text.strict_iff {v : Value} (h : Text false t v) :
    (∃ v, Text true t v) ↔ noLeadingZero .out t = true := by
  constructor
  · rintro ⟨v, t₁, r, ws, reads, after⟩
    exact ws.scan.trans (reads.scan (after.scan.trans rfl))
  · intro pass
    obtain ⟨t₁, r, ws, reads, after⟩ := h
    exact ⟨v, t₁, r, ws, (reads.strict (ws.scan.symm.trans pass)).1, after⟩

end LeadingZeros

end JsonGrammar
