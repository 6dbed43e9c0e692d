import Vapi.Lib.Json

/-!
# JSON documents

A parsed JSON document, as a schema or one of its options is given, and the
text it is written back as: no whitespace, and escapes only where needed.
-/

namespace Vapi.Structured

open JsonGrammar (Reads Chars Plain Ends Number Value units charUnits)

/-- A string, as its characters. -/
abbrev Text := List Char

/-- A number as it is written. -/
structure Numeral where
  text : Text
  valid : Number true text

inductive Document
  | null
  | bool (b : Bool)
  | number (n : Numeral)
  | string (s : Text)
  | array (items : List Document)
  | object (fields : List (Text × Document))

namespace Document

def get (fields : List (Text × Document)) (name : String) : Option Document :=
  (fields.find? fun f => f.1 = name.toList).map Prod.snd

def hexDigit (n : Nat) : Char := if n < 10 then Char.ofNat (0x30 + n) else Char.ofNat (0x61 + (n - 10))

def escapeChar (c : Char) : Text :=
  if c = '"' then ['\\', '"']
  else if c = '\\' then ['\\', '\\']
  else if c = '\n' then ['\\', 'n']
  else if c = '\r' then ['\\', 'r']
  else if c = '\t' then ['\\', 't']
  else if c.toNat = 0x08 then ['\\', 'b']
  else if c.toNat = 0x0C then ['\\', 'f']
  else if c.toNat < 0x20 then ['\\', 'u', '0', '0', hexDigit (c.toNat / 16), hexDigit (c.toNat % 16)]
  else [c]

def quoted (s : Text) : Text := '"' :: (s.flatMap escapeChar ++ ['"'])

mutual

/-- A JSON value written the one way the machine will accept it. -/
def canonical : Document → Text
  | .null => ['n', 'u', 'l', 'l']
  | .bool true => ['t', 'r', 'u', 'e']
  | .bool false => ['f', 'a', 'l', 's', 'e']
  | .number n => n.text
  | .string s => quoted s
  | .array [] => ['[', ']']
  | .array (d :: ds) => '[' :: (canonical d ++ canonicalItems ds)
  | .object [] => ['{', '}']
  | .object ((k, d) :: fs) => '{' :: (quoted k ++ ':' :: (canonical d ++ canonicalFields fs))

def canonicalItems : List Document → Text
  | [] => [']']
  | d :: ds => ',' :: (canonical d ++ canonicalItems ds)

def canonicalFields : List (Text × Document) → Text
  | [] => ['}']
  | (k, d) :: fs => ',' :: (quoted k ++ ':' :: (canonical d ++ canonicalFields fs))

end

mutual

/-- The value a document is, with its strings' characters replaced by `g`. -/
def valueWith (g : Char → Text) : Document → Value
  | .null => .null
  | .bool b => .bool b
  | .number n => .num n.text
  | .string s => .str (units (s.flatMap g))
  | .array ds => .arr (itemsWith g ds)
  | .object fs => .obj (fieldsWith g fs)

def itemsWith (g : Char → Text) : List Document → List Value
  | [] => []
  | d :: ds => valueWith g d :: itemsWith g ds

def fieldsWith (g : Char → Text) : List (Text × Document) → List (List Nat × Value)
  | [] => []
  | (k, d) :: fs => (units (k.flatMap g), valueWith g d) :: fieldsWith g fs

end

def value (d : Document) : Value := d.valueWith fun c => [c]

/-- Characters of ASCII stay, and the others are replaced by others. -/
structure Faithful (g : Char → Text) : Prop where
  ascii : ∀ c : Char, c.toNat < 0x80 → g c = [c]
  wide : ∀ c : Char, 0x80 ≤ c.toNat → ∀ x ∈ g c, 0x80 ≤ x.toNat

theorem faithful_id : Faithful fun c => [c] :=
  ⟨fun _ _ => rfl, fun c h x hx => by rw [List.mem_singleton.mp hx]; exact h⟩

section Reading

variable {g : Char → Text} {r : Text}

theorem plain_of_wide {c : Char} (h : 0x80 ≤ c.toNat) : Plain c := by
  refine ⟨by omega, ?_, ?_⟩ <;> rintro rfl <;> exact absurd h (by decide)

/-- Plain characters stand for themselves. -/
theorem chars_plain {l t : Text} {us : List Nat} (plain : ∀ c ∈ l, Plain c) (h : Chars t us r) :
    Chars (l ++ t) (units l ++ us) r := by
  induction l with
  | nil => exact h
  | cons c l ih =>
    have rest := ih fun x hx => plain x (by simp [hx])
    rw [units, List.flatMap_cons, List.append_assoc]
    exact .plain (plain c (by simp)) rest

theorem charUnits_ascii {c : Char} (h : c.toNat < 0x80) : charUnits c = [c.toNat] := by
  unfold charUnits
  rw [if_pos (by omega)]

theorem hexDigits : ∀ n < 0x20, JsonGrammar.isHex (hexDigit (n / 16)) = true ∧ JsonGrammar.isHex (hexDigit (n % 16)) = true ∧
    JsonGrammar.hex4 '0' '0' (hexDigit (n / 16)) (hexDigit (n % 16)) = n ∧
    (hexDigit (n / 16)).toNat < 0x80 ∧ (hexDigit (n % 16)).toNat < 0x80 := by
  decide

/-- A string's escapes denote its characters. -/
theorem chars_escaped (f : Faithful g) (s : Text) :
    Chars ((s.flatMap escapeChar).flatMap g ++ '"' :: r) (units (s.flatMap g)) r := by
  induction s with
  | nil => exact .close
  | cons c s ih =>
    have letter : ∀ e u, c.toNat < 0x80 → JsonGrammar.simpleEscape e = some u → c.toNat = u → e.toNat < 0x80 →
        Chars ((['\\', e] ++ s.flatMap escapeChar).flatMap g ++ '"' :: r) (units (g c ++ s.flatMap g)) r := by
      intro e u small escape same ascii
      rw [f.ascii c small, List.flatMap_append]
      simp only [List.flatMap_cons, List.flatMap_nil, f.ascii '\\' (by decide), f.ascii e ascii,
        List.cons_append, List.nil_append, units, charUnits_ascii small, same]
      exact .escape escape ih
    rw [List.flatMap_cons, List.flatMap_cons]
    unfold escapeChar
    by_cases quote : c = '"'
    · rw [if_pos quote]
      exact letter '"' 0x22 (by rw [quote]; decide) rfl (by rw [quote]; rfl) (by decide)
    rw [if_neg quote]
    by_cases backslash : c = '\\'
    · rw [if_pos backslash]
      exact letter '\\' 0x5C (by rw [backslash]; decide) rfl (by rw [backslash]; rfl) (by decide)
    rw [if_neg backslash]
    by_cases newline : c = '\n'
    · rw [if_pos newline]
      exact letter 'n' 0x0A (by rw [newline]; decide) rfl (by rw [newline]; rfl) (by decide)
    rw [if_neg newline]
    by_cases cr : c = '\r'
    · rw [if_pos cr]
      exact letter 'r' 0x0D (by rw [cr]; decide) rfl (by rw [cr]; rfl) (by decide)
    rw [if_neg cr]
    by_cases tab : c = '\t'
    · rw [if_pos tab]
      exact letter 't' 0x09 (by rw [tab]; decide) rfl (by rw [tab]; rfl) (by decide)
    rw [if_neg tab]
    by_cases backspace : c.toNat = 0x08
    · rw [if_pos backspace]
      exact letter 'b' 0x08 (by omega) rfl backspace (by decide)
    rw [if_neg backspace]
    by_cases feed : c.toNat = 0x0C
    · rw [if_pos feed]
      exact letter 'f' 0x0C (by omega) rfl feed (by decide)
    rw [if_neg feed]
    by_cases control : c.toNat < 0x20
    · rw [if_pos control]
      obtain ⟨hi, lo, same, hi', lo'⟩ := hexDigits c.toNat control
      have small : c.toNat < 0x80 := by omega
      have digits := Chars.unicode (a := '0') (b := '0') rfl rfl hi lo ih
      rw [same] at digits
      rw [f.ascii c small, List.flatMap_append]
      simp only [List.flatMap_cons, List.flatMap_nil, f.ascii '\\' (by decide), f.ascii 'u' (by decide),
        f.ascii '0' (by decide), f.ascii _ hi', f.ascii _ lo', List.cons_append, List.nil_append,
        units, charUnits_ascii small]
      exact digits
    · rw [if_neg control, List.flatMap_append, List.flatMap_singleton, List.append_assoc, units, List.flatMap_append]
      refine chars_plain (fun x hx => ?_) ih
      by_cases small : c.toNat < 0x80
      · rw [f.ascii c small] at hx
        obtain rfl := List.mem_singleton.mp hx
        exact ⟨by omega, quote, backslash⟩
      · exact plain_of_wide (f.wide c (by omega) x hx)

theorem isNumberChar_ascii {c : Char} (h : JsonGrammar.isNumberChar c) : c.toNat < 0x80 := by
  simp only [JsonGrammar.isNumberChar, Bool.or_eq_true, decide_eq_true_eq] at h
  rcases h with ((((digit | rfl) | rfl) | rfl) | rfl) | rfl
  · simp only [Char.isDigit, Bool.and_eq_true, decide_eq_true_eq] at digit
    have := UInt32.le_iff_toNat_le.mp digit.2
    simp at this
    omega
  all_goals decide

theorem flatMap_ascii (f : Faithful g) {l : Text} (ascii : ∀ c ∈ l, c.toNat < 0x80) : l.flatMap g = l := by
  induction l with
  | nil => rfl
  | cons c l ih =>
    rw [List.flatMap_cons, f.ascii c (ascii c (by simp)), ih fun x hx => ascii x (by simp [hx])]
    rfl

theorem flatMap_cons_ascii (f : Faithful g) {c : Char} (h : c.toNat < 0x80) (l : Text) :
    (c :: l).flatMap g = c :: l.flatMap g := by
  rw [List.flatMap_cons, f.ascii c h, List.singleton_append]

theorem chars_quoted (f : Faithful g) (s t : Text) :
    ∃ t', (quoted s ++ t).flatMap g ++ r = '"' :: t' ∧ Chars t' (units (s.flatMap g)) (t.flatMap g ++ r) := by
  refine ⟨(s.flatMap escapeChar).flatMap g ++ '"' :: (t.flatMap g ++ r), ?_, chars_escaped f s⟩
  unfold quoted
  rw [List.cons_append, flatMap_cons_ascii f (by decide), List.append_assoc, List.singleton_append,
    List.flatMap_append, flatMap_cons_ascii f (by decide), List.cons_append, List.append_assoc, List.cons_append]

theorem ends_of_mark {c : Char} (h : JsonGrammar.isNumberChar c = false) (t : Text) : Ends (c :: t) := by
  intro x hx
  rw [← Option.some.inj hx]
  exact h

mutual

/-- What is written back reads as the document. -/
theorem canonical_reads (f : Faithful g) (d : Document) (r : Text) (ends : Ends r) :
    Reads true .value ((canonical d).flatMap g ++ r) (d.valueWith g) r := by
  cases d with
  | null =>
    rw [canonical, flatMap_ascii f (by simp)]
    exact .null
  | bool b =>
    cases b
    · rw [canonical, flatMap_ascii f (by simp)]
      exact .false_
    · rw [canonical, flatMap_ascii f (by simp)]
      exact .true_
  | number n =>
    rw [canonical, flatMap_ascii f fun c hc => isNumberChar_ascii (n.valid.chars c hc)]
    exact .num n.valid ends rfl
  | string s =>
    obtain ⟨t, e, chars⟩ := chars_quoted (r := r) f s []
    rw [canonical, ← List.append_nil (quoted s), e]
    exact .str chars
  | array ds =>
    cases ds with
    | nil =>
      rw [canonical, flatMap_ascii f (by simp)]
      exact .emptyArray .nil
    | cons d ds =>
      rw [canonical, flatMap_cons_ascii f (by decide), List.flatMap_append, List.cons_append, List.append_assoc]
      exact .array (items_read f d ds r)
  | object fs =>
    cases fs with
    | nil =>
      rw [canonical, flatMap_ascii f (by simp)]
      exact .emptyObject .nil
    | cons kd fs =>
      obtain ⟨k, d⟩ := kd
      rw [canonical, flatMap_cons_ascii f (by decide), List.cons_append]
      exact .object (fields_read f k d fs r)
termination_by sizeOf d

theorem items_read (f : Faithful g) (d : Document) (ds : List Document) (r : Text) :
    Reads true .elements ((canonical d).flatMap g ++ ((canonicalItems ds).flatMap g ++ r))
      (.arr (valueWith g d :: itemsWith g ds)) r := by
  cases ds with
  | nil =>
    rw [canonicalItems, flatMap_cons_ascii f (by decide)]
    exact .lastElement .nil (canonical_reads f d _ (ends_of_mark rfl r)) .nil
  | cons e ds =>
    rw [canonicalItems, flatMap_cons_ascii f (by decide), List.flatMap_append, List.cons_append, List.append_assoc]
    exact .element .nil (canonical_reads f d _ (ends_of_mark rfl _)) .nil (items_read f e ds r)
termination_by sizeOf d + sizeOf ds

theorem fields_read (f : Faithful g) (k : Text) (d : Document) (fs : List (Text × Document)) (r : Text) :
    Reads true .members ((quoted k ++ ':' :: (canonical d ++ canonicalFields fs)).flatMap g ++ r)
      (.obj ((units (k.flatMap g), valueWith g d) :: fieldsWith g fs)) r := by
  obtain ⟨t, e, chars⟩ := chars_quoted (r := r) f k (':' :: (canonical d ++ canonicalFields fs))
  rw [e]
  rw [flatMap_cons_ascii f (by decide), List.flatMap_append, List.cons_append, List.append_assoc] at chars
  cases fs with
  | nil =>
    rw [canonicalFields, flatMap_cons_ascii f (by decide)] at chars
    exact .lastMember .nil chars .nil .nil (canonical_reads f d _ (ends_of_mark rfl r)) .nil
  | cons kd fs =>
    obtain ⟨k', d'⟩ := kd
    rw [canonicalFields, flatMap_cons_ascii f (by decide), List.cons_append] at chars
    exact .member .nil chars .nil .nil (canonical_reads f d _ (ends_of_mark rfl _)) .nil (fields_read f k' d' fs r)
termination_by sizeOf d + sizeOf fs

end

end Reading

end Document

end Vapi.Structured
