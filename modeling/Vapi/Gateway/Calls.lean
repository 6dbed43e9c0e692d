import Vapi.Lib.Faults
import Vapi.Worker.Slices
import Vapi.Worker.Constraint

/-!
# Calls in Python's syntax

`vapi-gateway/src/output.rs`: the reader of `[name(arg=value, ...), ...]`. It
keeps a byte offset and slices the text there each time it looks, which would
be a panic outside the text or inside a character.
-/

namespace Vapi.Gateway

open Engine (fromByte)
open Faults (fault)
open Worker (isWhitespace)

/-- `serde_json::Value`; a map keeps the order of its keys. -/
inductive Value (F : Type)
  | null
  | bool (b : Bool)
  | int (n : Int)
  | float (f : F)
  | string (s : Text)
  | array (items : List (Value F))
  | object (members : List (Text × Value F))

/-- What the reader leaves to the standard library and to `serde_json`. -/
structure Literals (F : Type) where
  isAlphanumeric : Char → Bool
  /-- Blanks and the marks of a call are no letters or digits. -/
  apart : ∀ c, isAlphanumeric c → isWhitespace c = false ∧ c ∉ ['(', ')', '[', ']', '=', ',']
  /-- A text in quotes, as in an error. -/
  debug : Text → String
  parseF64 : Text → Option F
  isFinite : F → Bool
  /-- The first value that the streaming deserializer reads, and the byte where it ends. -/
  next : Text → Option (Value F × Nat)
  reports : ∀ t v n, next t = some (v, n) → ∃ a, a <+: t ∧ bytes a = n

/-- A result or an error; a panic is neither. -/
abbrev Reading (α : Type) := ExceptT String Option α

def parseI64 (word : Text) : Option Int :=
  let (negative, digits) := match word with
    | '-' :: digits => (true, digits)
    | '+' :: digits => (false, digits)
    | digits => (false, digits)
  if digits ≠ [] ∧ digits.all Char.isDigit then
    let n : Int := Nat.ofDigitChars 10 digits 0
    let n := if negative then -n else n
    if -2 ^ 63 ≤ n ∧ n < 2 ^ 63 then some n else none
  else none

structure Parser where
  s : Text
  i : Nat

namespace Parser

variable {F : Type} (lit : Literals F)

def atEnd (p : Parser) : Bool := bytes p.s ≤ p.i

def rest (p : Parser) : Reading Text := (fromByte p.i p.s).elim fault pure

/-- The text from a byte to where the parser is. -/
def since (p : Parser) (start : Nat) : Reading Text :=
  if start ≤ p.i then ((fromByte start p.s).bind (uptoByte (p.i - start))).elim fault pure else fault

/-- The loop that takes characters while they are of a kind, each turn with a slice of its own. -/
def takeFrom (kind : Char → Bool) : Nat → Parser → Reading Parser
  | 0, _ => fault
  | fuel + 1, p => do
    match ← p.rest with
    | c :: _ => if kind c then takeFrom kind fuel { p with i := p.i + c.utf8Size } else pure p
    | [] => pure p

/-- There are no more turns than characters. -/
def take (kind : Char → Bool) (p : Parser) : Reading Parser := takeFrom kind (p.s.length + 1) p

def ws (p : Parser) : Reading Parser := p.take isWhitespace

def eat (p : Parser) (c : Char) : Reading (Bool × Parser) := do
  if (← p.rest).head? = some c then pure (true, { p with i := p.i + c.utf8Size }) else pure (false, p)

/-- `eat` behind `&&`. -/
def eatIf (p : Parser) (first : Bool) (c : Char) : Reading (Bool × Parser) := if first then p.eat c else pure (false, p)

def isIdent (c : Char) : Bool := lit.isAlphanumeric c || c = '_' || c = '.' || c = '-'

def ident (p : Parser) : Reading (Text × Parser) := do
  let q ← p.take (isIdent lit)
  if p.i = q.i then do
    let rest ← q.rest
    throw ("expected a name at " ++ lit.debug (rest.take 10))
  else do
    let name ← q.since p.i
    pure (name, q)

def escaped : Char → Char
  | 'n' => '\n'
  | 'r' => '\r'
  | 't' => '\t'
  | other => other

/-- A string up to its quote, and where that is. -/
def quoted (quote : Char) (off : Nat) : Text → Option (Text × Nat)
  | [] => none
  | c :: chars =>
    if c = '\\' then
      match chars with
      | [] => none
      | e :: chars => (quoted quote (off + c.utf8Size + e.utf8Size) chars).map fun out => (escaped e :: out.1, out.2)
    else if c = quote then some ([], off)
    else (quoted quote (off + c.utf8Size) chars).map fun out => (c :: out.1, out.2)

def string (p : Parser) (quote : Char) : Reading (Value F × Parser) := do
  let p := { p with i := p.i + 1 }
  match quoted quote 0 (← p.rest) with
  | some (out, off) => pure (.string out, { p with i := p.i + (off + 1) })
  | none => throw "unterminated string"

/-- What a word that is neither quoted nor JSON means. -/
def word (text : Text) : Value F :=
  if text = "True".toList ∨ text = "true".toList then .bool true
  else if text = "False".toList ∨ text = "false".toList then .bool false
  else if text = "None".toList ∨ text = "null".toList then .null
  else match parseI64 text with
    | some n => .int n
    | none =>
      match lit.parseF64 text with
      | some f => if lit.isFinite f then .float f else .null
      | none => .string text

def isWord (c : Char) : Bool := !(c = ',' || c = ')' || c = ']') && !isWhitespace c

def value (p : Parser) : Reading (Value F × Parser) := do
  let rest ← p.rest
  match rest with
  | [] => throw "expected a value"
  | c :: _ =>
    if c = '\'' ∨ c = '"' then p.string c
    else if c = '{' ∨ c = '[' then
      match lit.next rest with
      | some (v, offset) => pure (v, { p with i := p.i + offset })
      | none => throw "bad JSON literal"
    else do
      let q ← p.take isWord
      let text ← q.since p.i
      pure (word lit text, q)

/-- `serde_json::Map::insert`. -/
def insert (key : Text) (value : Value F) : List (Text × Value F) → List (Text × Value F)
  | [] => [(key, value)]
  | m :: members => if m.1 = key then (key, value) :: members else m :: insert key value members

/-- A turn of the loop over the arguments, and whether there is another. -/
def argument (p : Parser) (args : List (Text × Value F)) : Reading (Bool × List (Text × Value F) × Parser) := do
  let p ← p.ws
  let (closed, p) ← p.eat ')'
  if closed then pure (false, args, p)
  else do
    let (key, p) ← p.ident lit
    let p ← p.ws
    let (equals, p) ← p.eat '='
    if !equals then throw ("expected '=' after argument " ++ String.ofList key)
    else do
      let p ← p.ws
      let (v, p) ← p.value lit
      let p ← p.ws
      let (comma, p) ← p.eat ','
      if comma then pure (true, insert key v args, p)
      else do
        let (closed, p) ← p.eat ')'
        if closed then pure (false, insert key v args, p) else throw "expected ',' or ')' in arguments"

def argumentsFrom : Nat → Parser → List (Text × Value F) → Reading (List (Text × Value F) × Parser)
  | 0, _, _ => fault
  | fuel + 1, p, args => do
    let (more, args, p) ← p.argument lit args
    if more then argumentsFrom fuel p args else pure (args, p)

/-- A turn of the loop over the calls, and whether there is another. -/
def call (bracketed : Bool) (p : Parser) (calls : List (Text × Value F)) :
    Reading (Bool × List (Text × Value F) × Parser) := do
  let p ← p.ws
  let (closed, p) ← p.eatIf bracketed ']'
  if closed then pure (false, calls, p)
  else if p.atEnd then if bracketed then throw "unterminated call list" else pure (false, calls, p)
  else do
    let (name, p) ← p.ident lit
    let p ← p.ws
    let (opened, p) ← p.eat '('
    if !opened then throw ("expected '(' after " ++ String.ofList name)
    else do
      let (args, p) ← argumentsFrom lit (p.s.length + 1) p []
      let calls := calls ++ [(name, .object args)]
      let p ← p.ws
      let (comma, p) ← p.eat ','
      if comma then pure (true, calls, p)
      else if bracketed then do
        let p ← p.ws
        let (closed, p) ← p.eat ']'
        if closed then pure (false, calls, p) else throw "expected ',' or ']' after a call"
      else pure (true, calls, p)

def callsFrom (bracketed : Bool) : Nat → Parser → List (Text × Value F) → Reading (List (Text × Value F))
  | 0, _, _ => fault
  | fuel + 1, p, calls => do
    let (more, calls, p) ← call lit bracketed p calls
    if more then callsFrom bracketed fuel p calls else pure calls

end Parser

/-- `str::trim`. -/
def trim (text : Text) : Text := ((text.dropWhile isWhitespace).reverse.dropWhile isWhitespace).reverse

def parseCalls {F : Type} (lit : Literals F) (text : Text) : Reading (List (Text × Value F)) := do
  let p : Parser := ⟨trim text, 0⟩
  let p ← p.ws
  let (bracketed, p) ← p.eat '['
  Parser.callsFrom lit bracketed (p.s.length + 1) p []

end Vapi.Gateway
