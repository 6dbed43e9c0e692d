import Vapi.Structured.Schema

/-!
# The constraint machine

An incremental validator: it reads an answer one character at a time and says
whether it can still become a document of its schema. Its state is a stack of
frames, the innermost first here. A step that returns none is a character
that cannot be valid.
-/

namespace Vapi.Structured

open JsonGrammar (isWs isHex)

inductive ObjState
  | start
  | key
  | colon
  | value
  | next
  | keyExpected
  deriving DecidableEq, Repr

inductive ArrState
  | start
  | value
  | next
  | valueExpected
  deriving DecidableEq, Repr

structure NumberFrame where
  integer : Bool
  seenDigit : Bool
  seenDot : Bool := false
  seenExp : Bool := false
  expDigit : Bool := false
  afterSign : Bool
  len : Nat := 1
  deriving DecidableEq, Repr

/-- `node` is none for an object of any properties. -/
structure ObjectFrame where
  node : Option Nat
  state : ObjState := .start
  seen : List Nat := []
  key : Text := []
  escape : Nat := 0
  deriving DecidableEq, Repr

structure ArrayFrame where
  items : Option Nat
  state : ArrState := .start
  deriving DecidableEq, Repr

/-- Where the machine is inside one value. The indices that the source marks
by the greatest of their type are none. -/
inductive Frame
  | value (node : Option Nat)
  | str (escape len : Nat)
  | number (n : NumberFrame)
  | word (alts : List Text) (matched : Nat)
  | object (o : ObjectFrame)
  | array (a : ArrayFrame)
  deriving DecidableEq, Repr

structure Machine where
  schema : Schema
  stack : List Frame
  done : Bool := false
  started : Bool := false
  wsRun : Nat := 0
  deriving DecidableEq, Repr

def maxWsRun : Nat := 16
def maxNumberChars : Nat := 32
def maxStringChars : Nat := 8192

def asBytes (t : Text) : List UInt8 := t.flatMap String.utf8EncodeChar

/-- Each byte taken for a character. -/
def byteChars (t : Text) : Text := (asBytes t).map fun b => Char.ofNat b.toNat

def NumberFrame.complete (n : NumberFrame) : Bool := n.seenDigit && (!n.seenExp || n.expDigit)

/-- Whether a character may follow in an escape with this many to come, the
backslash itself being five. -/
def escapeOk (escape : Nat) (c : Char) : Bool :=
  if escape = 5 then c ∈ ['"', '\\', '/', 'b', 'f', 'n', 'r', 't', 'u'] else isHex c

def nextEscape (escape : Nat) (c : Char) : Nat :=
  if escape = 5 then if c = 'u' then 4 else 0 else escape - 1

namespace Machine

def new (schema : Schema) : Machine := { schema, stack := [.value (some 0)] }

/-- The machine with another innermost frame. -/
def setTop (m : Machine) (f : Frame) : Machine := { m with stack := f :: m.stack.tail }

def node (m : Machine) (id : Option Nat) : Option Node := do
  let id ← id
  m.schema.nodes[id]?

/-- Whether a complete, valid document has been read. -/
def complete (m : Machine) : Bool :=
  m.done ||
    match m.stack with
    | [.number n] => n.complete
    | _ => false

/-- Inside a string's contents, where whitespace is just a character. -/
def inStringBody (m : Machine) : Bool :=
  match m.stack with
  | .str _ _ :: _ => true
  | .object o :: _ => o.state = .key
  | _ => false

/-- One value finished: pop it and tell the frame underneath. -/
def finishValue (m : Machine) : Option Machine :=
  match m.stack.tail with
  | [] => some { m with stack := [], done := true }
  | .object o :: rest => some { m with stack := .object { o with state := .next } :: rest }
  | .array a :: rest => some { m with stack := .array { a with state := .next } :: rest }
  | _ => none

/-- A word that has matched a whole option is a finished value. -/
def settleWord (m : Machine) : Option Machine :=
  match m.stack with
  | .word alts matched :: _ => if alts.any fun a => (asBytes a).length = matched then m.finishValue else some m
  | _ => some m

/-- What a value of a node other than an object, an array or a choice may
begin with. -/
def allowed (n : Node) (c : Char) : Option Frame :=
  if (n = .any ∨ n = .str) ∧ c = '"' then some (.str 0 0)
  else if n = .any ∧ c = '{' then some (.object { node := none })
  else if n = .any ∧ c = '[' then some (.array { items := none })
  else if (n = .any ∨ n = .number true ∨ n = .number false) ∧ (c = '-' ∨ c.isDigit) then
    some (.number { integer := n = .number true, seenDigit := c ≠ '-', afterSign := c = '-' })
  else if (n = .any ∨ n = .bool) ∧ c = 't' then some (.word ["true".toList] 1)
  else if (n = .any ∨ n = .bool) ∧ c = 'f' then some (.word ["false".toList] 1)
  else if (n = .any ∨ n = .null) ∧ c = 'n' then some (.word ["null".toList] 1)
  else none

def startFrame (id : Option Nat) (n : Node) (c : Char) : Option Frame :=
  match n with
  | .object _ _ _ => if c = '{' then some (.object { node := id }) else allowed n c
  | .array items => if c = '[' then some (.array { items := some items }) else allowed n c
  | .choice options =>
    let alts := options.filter fun o => o.head? = some c
    if alts.isEmpty then none else some (.word alts 1)
  | n => allowed n c

def startValue (m : Machine) (id : Option Nat) (c : Char) : Option Machine :=
  if isWs c then some m
  else do
    let n ← m.node id
    let frame ← startFrame id n c
    (m.setTop frame).settleWord

def inString (m : Machine) (escape len : Nat) (c : Char) : Option Machine :=
  -- Past the cap the only character left is the one that ends it
  if maxStringChars ≤ len ∧ c ≠ '"' then none
  else if 0 < escape then
    if escapeOk escape c then some (m.setTop (.str (nextEscape escape c) (len + 1))) else none
  else if c = '"' then m.finishValue
  else if c = '\\' then some (m.setTop (.str 5 (len + 1)))
  else if c.toNat < 0x20 then none
  else some (m.setTop (.str 0 (len + 1)))

/-- `again` is `pushChar`, for the character that ends a number. -/
def inNumber (again : Machine → Char → Option Machine) (m : Machine) (n : NumberFrame) (c : Char) : Option Machine :=
  let counted := { n with len := n.len + 1 }
  if maxNumberChars ≤ n.len ∧ (c.isDigit ∨ c ∈ ['.', 'e', 'E', '+', '-']) then none
  else if c.isDigit then
    some (m.setTop (.number
      (if n.seenExp then { counted with expDigit := true, afterSign := false }
        else { counted with seenDigit := true, afterSign := false })))
  else if c = '.' ∧ ¬n.integer ∧ ¬n.seenDot ∧ ¬n.seenExp ∧ n.seenDigit then
    some (m.setTop (.number { counted with seenDot := true, seenDigit := false }))
  else if (c = 'e' ∨ c = 'E') ∧ ¬n.integer ∧ ¬n.seenExp ∧ n.seenDigit then
    some (m.setTop (.number { counted with seenExp := true, afterSign := false }))
  else if (c = '+' ∨ c = '-') ∧ n.seenExp ∧ ¬n.expDigit ∧ ¬n.afterSign then
    some (m.setTop (.number { counted with afterSign := true }))
  else if n.complete then do
    let m ← m.finishValue
    again m c
  else none

def inWord (m : Machine) (alts : List Text) (matched : Nat) (c : Char) : Option Machine :=
  let alts := alts.filter fun a => (asBytes a)[matched]?.map (fun b => Char.ofNat b.toNat) = some c
  if alts.isEmpty then none else (m.setTop (.word alts (matched + 1))).settleWord

/-- `}` is only allowed when every required property has appeared. -/
def closeObject (m : Machine) (id : Option Nat) (seen : List Nat) : Option Machine :=
  match m.node id with
  | some (.object _ required _) => if required.all (· ∈ seen) then m.finishValue else none
  | _ => m.finishValue

/-- Whether this object accepts property names outside its schema. -/
def keysAreFree (m : Machine) (id : Option Nat) : Bool :=
  id = none ||
    match m.node id with
    | some (.object _ _ additional) => additional
    | _ => false

/-- A property not seen yet whose name starts with what has been typed. -/
def propertyPossible (properties : List (Text × Nat)) (seen : List Nat) (key : Text) : Bool :=
  properties.zipIdx.any fun p => p.2 ∉ seen && key.isPrefixOf p.1.1

/-- Could any allowed property name still start with `key`? -/
def keyPossible (m : Machine) (id : Option Nat) (seen : List Nat) (key : Text) : Bool :=
  id = none ||
    match m.node id with
    | some (.object properties _ additional) => additional || propertyPossible properties seen key
    | _ => false

/-- A key just closed: record it, and reject an unknown or repeated one. -/
def checkKey (m : Machine) (o : ObjectFrame) : Option Machine :=
  if o.node = none then some (m.setTop (.object o))
  else match m.node o.node with
    | some (.object properties _ additional) =>
      match properties.findIdx? (fun p => p.1 = o.key) with
      | some i => if i ∈ o.seen then none else some (m.setTop (.object { o with seen := o.seen ++ [i] }))
      | none => if additional then some (m.setTop (.object o)) else none
    | _ => none

/-- The first `any` node of the schema. -/
def anyNode (m : Machine) : Option Nat := m.schema.nodes.findIdx? (· = .any)

/-- The node a property's value must satisfy. -/
def valueNodeFor (m : Machine) (id : Option Nat) (key : Text) : Option (Option Nat) :=
  if id = none then some m.anyNode
  else match m.node id with
    | some (.object properties _ additional) =>
      match properties.find? (fun p => p.1 = key) with
      | some p => some (some p.2)
      | none => if additional then some m.anyNode else none
    | _ => none

def inKey (m : Machine) (o : ObjectFrame) (c : Char) : Option Machine :=
  if 0 < o.escape then
    if escapeOk o.escape c then
      some (m.setTop (.object { o with escape := nextEscape o.escape c, key := o.key ++ [c] }))
    else none
  else if c = '"' then m.checkKey { o with state := .colon }
  else if c = '\\' then
    if m.keysAreFree o.node then some (m.setTop (.object { o with escape := 5, key := o.key ++ [c] })) else none
  else if c.toNat < 0x20 then none
  else if m.keyPossible o.node o.seen (o.key ++ [c]) then some (m.setTop (.object { o with key := o.key ++ [c] }))
  else none

def inObject (m : Machine) (o : ObjectFrame) (c : Char) : Option Machine :=
  match o.state with
  | .start | .keyExpected =>
    if isWs c then some m
    else if c = '}' ∧ o.state = .start then m.closeObject o.node o.seen
    else if c ≠ '"' then none
    else some (m.setTop (.object { o with key := [], escape := 0, state := .key }))
  | .key => m.inKey o c
  | .colon =>
    if isWs c then some m
    else if c ≠ ':' then none
    else do
      let id ← m.valueNodeFor o.node o.key
      some { m with stack := .value id :: .object { o with state := .value } :: m.stack.tail }
  | .value => none
  | .next =>
    if isWs c then some m
    else if c = ',' then some (m.setTop (.object { o with state := .keyExpected }))
    else if c = '}' then m.closeObject o.node o.seen
    else none

/-- `again` is `pushChar`, for the character that begins an element. -/
def inArray (again : Machine → Char → Option Machine) (m : Machine) (a : ArrayFrame) (c : Char) : Option Machine :=
  match a.state with
  | .start | .valueExpected =>
    if isWs c then some m
    else if c = ']' ∧ a.state = .start then m.finishValue
    else
      match a.items <|> m.anyNode with
      | none => none
      | some id => again { m with stack := .value (some id) :: .array { a with state := .value } :: m.stack.tail } c
  | .value => none
  | .next =>
    if isWs c then some m
    else if c = ',' then some (m.setTop (.array { a with state := .valueExpected }))
    else if c = ']' then m.finishValue
    else none

/-- Bound whitespace, and refuse it before the document has started. -/
def enter (m : Machine) (c : Char) : Option Machine :=
  if isWs c ∧ ¬m.inStringBody then
    if ¬m.started ∨ maxWsRun ≤ m.wsRun then none else some { m with wsRun := m.wsRun + 1 }
  else some { m with wsRun := 0, started := true }

/-- `pushChar` with the calls it makes of itself as `again`. -/
def pushWith (again : Machine → Char → Option Machine) (m : Machine) (c : Char) : Option Machine := do
  let m ← m.enter c
  if m.done then if isWs c then some m else none
  else match m.stack with
    | [] => none
    | .value id :: _ => m.startValue id c
    | .str escape len :: _ => m.inString escape len c
    | .number n :: _ => m.inNumber again n c
    | .word alts matched :: _ => m.inWord alts matched c
    | .object o :: _ => m.inObject o c
    | .array a :: _ => m.inArray again a c

/-- Feed one character. What it calls itself for makes no such call again. -/
def pushChar : Machine → Char → Option Machine := pushWith (pushWith fun _ _ => none)

/-- Feed a whole text, stopping at the first character that cannot be valid. -/
def push : Machine → Text → Option Machine
  | m, [] => some m
  | m, c :: text => do
    let m ← m.pushChar c
    push m text

def frameViable (m : Machine) : Frame → Bool
  | .word alts _ => !alts.isEmpty
  | .object o =>
    o.node = none ||
      match m.node o.node with
      | some (.object properties required additional) =>
        let morePossible := additional || (List.range properties.length).any (· ∉ o.seen)
        let canClose := required.all (· ∈ o.seen)
        match o.state with
        | .start | .next => canClose || morePossible
        | .keyExpected => morePossible
        | .key => additional || propertyPossible properties o.seen o.key
        | .colon | .value => true
      | _ => false
  | _ => true

/-- Can a valid document still be reached from here? -/
def viable (m : Machine) : Bool := m.done || m.stack.all m.frameViable

/-- Whether `text` could follow what has been read, and still lead somewhere. -/
def allows (m : Machine) (text : Text) : Bool := (m.push text).any viable

/-- How many containers are still open. -/
def depth (m : Machine) : Nat :=
  m.stack.countP fun
    | .object _ | .array _ => true
    | _ => false

end Machine

/-- The text is read to its end, and is a complete document. -/
def Machine.Accepts (m : Machine) (text : Text) : Prop := ∃ m', m.push text = some m' ∧ m'.complete

instance (m : Machine) (text : Text) : Decidable (m.Accepts text) :=
  decidable_of_iff ((m.push text).any Machine.complete) (by
    unfold Machine.Accepts
    cases m.push text <;> simp)

end Vapi.Structured
