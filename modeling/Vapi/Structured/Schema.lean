import Vapi.Structured.Document

/-!
# Schemas

A JSON schema is flattened into an arena of nodes, children before parents,
and the root is swapped to the front. Read as a tree, the arena is the
document it was compiled from.
-/

namespace Vapi.Structured

open Document (get canonical)

inductive Node
  | any
  | object (properties : List (Text × Nat)) (required : List Nat) (additional : Bool)
  | array (items : Nat)
  | str
  | number (integer : Bool)
  | bool
  | null
  | choice (options : List Text)
  deriving DecidableEq, Repr

/-- A compiled schema: nodes in an arena, root at index 0. -/
structure Schema where
  nodes : List Node
  deriving DecidableEq, Repr

inductive SchemaError
  | tooDeep
  | notAnObject (got : Document)
  | keyword (key : Text)
  | enumNotArray
  | enumEmpty
  | typeList
  | typeNotString (got : Document)
  | propertiesNotObject
  | requiredNotArray
  | requiredNotStrings
  | requiredUnknown (name : Text)
  | additionalNotBool
  | onlyEmptyObject
  | unsupportedType (type : Text)

/-- The keywords a schema may have; an error names the first seven. -/
def supported : List String :=
  ["type", "properties", "required", "additionalProperties", "items", "enum", "const", "title", "description",
    "$schema", "default", "examples"]

def maxDepth : Nat := 32

def push (nodes : List Node) (node : Node) : List Node × Nat := (nodes ++ [node], nodes.length)

section Compile

variable (compile : Document → List Node → Except SchemaError (List Node × Nat))

/-- The properties in turn, each with the node of its subschema. -/
def compileProperties : List (Text × Document) → List Node → Except SchemaError (List Node × List (Text × Nat))
  | [], nodes => .ok (nodes, [])
  | (name, sub) :: rest, nodes => do
    let (nodes, id) ← compile sub nodes
    let (nodes, properties) ← compileProperties rest nodes
    .ok (nodes, (name, id) :: properties)

/-- The indices of the required names among the properties. -/
def requiredIndices (properties : List (Text × Nat)) : List Document → Except SchemaError (List Nat)
  | [] => .ok []
  | .string n :: rest =>
    match properties.findIdx? (fun p => p.1 = n) with
    | none => .error (.requiredUnknown n)
    | some i => do
      let out ← requiredIndices properties rest
      .ok (i :: out)
  | _ :: _ => .error .requiredNotStrings

def itemsOf (obj : List (Text × Document)) (nodes : List Node) : Except SchemaError (List Node × Nat) :=
  match get obj "items" with
  | none => .ok (push nodes .any)
  | some s => compile s nodes

def compileArray (obj : List (Text × Document)) (nodes : List Node) : Except SchemaError (List Node × Nat) := do
  let (nodes, items) ← itemsOf compile obj nodes
  .ok (push nodes (.array items))

def propertiesOf (obj : List (Text × Document)) (nodes : List Node) :
    Except SchemaError (List Node × List (Text × Nat)) :=
  match get obj "properties" with
  | none => .ok (nodes, [])
  | some (.object props) => compileProperties compile props nodes
  | some _ => .error .propertiesNotObject

def requiredOf (obj : List (Text × Document)) (properties : List (Text × Nat)) : Except SchemaError (List Nat) :=
  match get obj "required" with
  | none => .ok []
  | some (.array names) => requiredIndices properties names
  | some _ => .error .requiredNotArray

/-- Left out, it is false wherever there are properties. -/
def additionalOf (obj : List (Text × Document)) (properties : List (Text × Nat)) : Except SchemaError Bool :=
  match get obj "additionalProperties" with
  | none => .ok properties.isEmpty
  | some (.bool b) => .ok b
  | some _ => .error .additionalNotBool

def compileObject (obj : List (Text × Document)) (nodes : List Node) : Except SchemaError (List Node × Nat) := do
  let (nodes, properties) ← propertiesOf compile obj nodes
  let required ← requiredOf obj properties
  let additional ← additionalOf obj properties
  if properties.isEmpty ∧ ¬additional then .error .onlyEmptyObject
  else .ok (push nodes (.object properties required additional))

def compileType (ty : Text) (obj : List (Text × Document)) (nodes : List Node) :
    Except SchemaError (List Node × Nat) :=
  if ty = "string".toList then .ok (push nodes .str)
  else if ty = "integer".toList then .ok (push nodes (.number true))
  else if ty = "number".toList then .ok (push nodes (.number false))
  else if ty = "boolean".toList then .ok (push nodes .bool)
  else if ty = "null".toList then .ok (push nodes .null)
  else if ty = "array".toList then compileArray compile obj nodes
  else if ty = "object".toList then compileObject compile obj nodes
  else .error (.unsupportedType ty)

end Compile

/-- `levels` is how many levels of nesting are left: at depth `d`, one more
than `maxDepth - d`. -/
def compileNode : Nat → Document → List Node → Except SchemaError (List Node × Nat)
  | 0, _, _ => .error .tooDeep
  | levels + 1, schema, nodes =>
    match schema with
    | .bool true => .ok (push nodes .any)
    | .object obj =>
      match obj.find? (fun f => f.1 ∉ supported.map String.toList) with
      | some f => .error (.keyword f.1)
      | none =>
        match get obj "const", get obj "enum", get obj "type" with
        | some c, _, _ => .ok (push nodes (.choice [canonical c]))
        | none, some (.array os), _ =>
          if os.isEmpty then .error .enumEmpty else .ok (push nodes (.choice (os.map canonical)))
        | none, some _, _ => .error .enumNotArray
        | none, none, none => .ok (push nodes .any)
        | none, none, some (.string ty) => compileType (compileNode levels) ty obj nodes
        | none, none, some (.array _) => .error .typeList
        | none, none, some other => .error (.typeNotString other)
    | other => .error (.notAnObject other)

def swapIndex (a b i : Nat) : Nat := if i = a then b else if i = b then a else i

/-- A node with its indices renamed. -/
def Node.rename (f : Nat → Nat) : Node → Node
  | .object properties required additional => .object (properties.map fun p => (p.1, f p.2)) required additional
  | .array items => .array (f items)
  | node => node

/-- Swap two node indices everywhere they are referenced. -/
def remap (nodes : List Node) (a b : Nat) : List Node := nodes.map (Node.rename (swapIndex a b))

def swap (nodes : List Node) (a b : Nat) : List Node :=
  (nodes.set a (nodes.getD b .any)).set b (nodes.getD a .any)

namespace Schema

/-- The schema that accepts any JSON document. -/
def any : Schema := ⟨[.any]⟩

def compile (schema : Document) : Except SchemaError Schema := do
  let (nodes, root) ← compileNode (maxDepth + 1) schema []
  if root ≠ 0 then .ok ⟨remap (swap nodes 0 root) 0 root⟩ else .ok ⟨nodes⟩

end Schema

/-- An `any` node must exist for free-form values to be reachable. -/
def withAnyNode (schema : Schema) : Schema :=
  if .any ∈ schema.nodes then schema else ⟨schema.nodes ++ [.any]⟩

end Vapi.Structured
