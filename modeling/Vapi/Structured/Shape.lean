import Vapi.Structured.Schema

/-!
# What a schema says

A schema document read as a tree, the values such a tree admits, and the trees
an arena shows. Compiling keeps the tree: the root of the arena shows what the
document means.
-/

namespace Vapi.Structured

open Document (get canonical)
open JsonGrammar (Value units)

inductive Shape
  | any
  | object (properties : List (Text × Shape)) (required : List Nat) (additional : Bool)
  | array (items : Shape)
  | str
  | number (integer : Bool)
  | bool
  | null
  | choice (options : List Document)

/-- Which property a key of an object names. -/
def declared {α : Type} (properties : List (Text × α)) (key : List Nat) : Option Nat :=
  properties.findIdx? fun p => units p.1 = key

/-- The properties that occur in an object, in turn. -/
def occurring {α : Type} (properties : List (Text × α)) (members : List (List Nat × Value)) : List Nat :=
  members.filterMap fun m => declared properties m.1

/-- A number without fraction or exponent. -/
def Integral (lit : Text) : Prop := '.' ∉ lit ∧ 'e' ∉ lit ∧ 'E' ∉ lit

inductive Shape.Admits : Shape → Value → Prop
  | any {v : Value} : Admits .any v
  | object {properties : List (Text × Shape)} {required : List Nat} {additional : Bool}
      {members : List (List Nat × Value)} :
      (∀ m ∈ members, ∀ (i : Nat) name shape, declared properties m.1 = some i →
        properties[i]? = some (name, shape) → Admits shape m.2) →
      (occurring properties members).Nodup → (∀ i ∈ required, i ∈ occurring properties members) →
      (additional = false → ∀ m ∈ members, (declared properties m.1).isSome) →
      Admits (.object properties required additional) (.obj members)
  | array {items : Shape} {values : List Value} : (∀ v ∈ values, Admits items v) → Admits (.array items) (.arr values)
  | str {us : List Nat} : Admits .str (.str us)
  | number {integer : Bool} {lit : Text} : (integer → Integral lit) → Admits (.number integer) (.num lit)
  | bool {b : Bool} : Admits .bool (.bool b)
  | null : Admits .null .null
  | choice {options : List Document} {d : Document} : d ∈ options → Admits (.choice options) d.value

def Typed (fields : List (Text × Document)) (type : String) : Prop :=
  get fields "const" = none ∧ get fields "enum" = none ∧ get fields "type" = some (.string type.toList)

/-- A schema document, read as a tree. -/
inductive Means : Document → Shape → Prop
  | anything : Means (.bool true) .any
  | const {fields : List (Text × Document)} {d : Document} : get fields "const" = some d →
      Means (.object fields) (.choice [d])
  | enum {fields : List (Text × Document)} {options : List Document} : get fields "const" = none →
      get fields "enum" = some (.array options) → Means (.object fields) (.choice options)
  | untyped {fields : List (Text × Document)} : get fields "const" = none → get fields "enum" = none →
      get fields "type" = none → Means (.object fields) .any
  | str {fields : List (Text × Document)} : Typed fields "string" → Means (.object fields) .str
  | integer {fields : List (Text × Document)} : Typed fields "integer" → Means (.object fields) (.number true)
  | number {fields : List (Text × Document)} : Typed fields "number" → Means (.object fields) (.number false)
  | bool {fields : List (Text × Document)} : Typed fields "boolean" → Means (.object fields) .bool
  | null {fields : List (Text × Document)} : Typed fields "null" → Means (.object fields) .null
  | list {fields : List (Text × Document)} : Typed fields "array" → get fields "items" = none →
      Means (.object fields) (.array .any)
  | array {fields : List (Text × Document)} {d : Document} {items : Shape} : Typed fields "array" →
      get fields "items" = some d → Means d items → Means (.object fields) (.array items)
  | object {fields declared : List (Text × Document)} {properties : List (Text × Shape)} {required : List Nat}
      {names : List Text} {additional : Bool} : Typed fields "object" →
      (get fields "properties").getD (.object []) = .object declared →
      properties.map Prod.fst = declared.map Prod.fst →
      (∀ (k : Nat) name d shape, declared[k]? = some (name, d) → properties[k]? = some (name, shape) → Means d shape) →
      (get fields "required").getD (.array []) = .array (names.map .string) →
      required.map some = names.map (fun n => properties.findIdx? fun p => p.1 = n) →
      (get fields "additionalProperties").getD (.bool properties.isEmpty) = .bool additional →
      Means (.object fields) (.object properties required additional)

theorem Typed.eq {fields : List (Text × Document)} {type type' : String} (h : Typed fields type)
    (h' : Typed fields type') : type.toList = type'.toList :=
  Document.string.inj (Option.some.inj (h.2.2.symm.trans h'.2.2))

/-- A document is read in one way. -/
theorem Means.unique {d : Document} {shape shape' : Shape} (h : Means d shape) (h' : Means d shape') :
    shape = shape' := by
  induction h generalizing shape' with
  | anything =>
    cases h'
    rfl
  | const hc => cases h' <;> simp_all [Typed]
  | enum hc he => cases h' <;> simp_all [Typed]
  | untyped hc he ht => cases h' <;> simp_all [Typed]
  | str typed => cases h' <;> simp_all [Typed]
  | integer typed => cases h' <;> simp_all [Typed]
  | number typed => cases h' <;> simp_all [Typed]
  | bool typed => cases h' <;> simp_all [Typed]
  | null typed => cases h' <;> simp_all [Typed]
  | list typed none_ => cases h' <;> simp_all [Typed]
  | array typed some_ _ ih =>
    cases h' with
    | array _ some_' means =>
      obtain rfl := Option.some.inj (some_.symm.trans some_')
      rw [ih means]
    | _ => simp_all [Typed]
  | @object fields declared properties required names additional typed ofProps names_ _ ofRequired same ofMore ih =>
    cases h' with
    | @object _ declared' properties' required' names' additional' _ ofProps' names_' meant' ofRequired' same' ofMore' =>
      obtain rfl := Document.object.inj (ofProps.symm.trans ofProps')
      have one : properties = properties' := by
        refine List.ext_getElem? fun k => ?_
        have here : (properties[k]?).map Prod.fst = (properties'[k]?).map Prod.fst := by
          rw [← List.getElem?_map, ← List.getElem?_map, names_, names_']
        have there : (properties[k]?).map Prod.fst = (declared[k]?).map Prod.fst := by
          rw [← List.getElem?_map, ← List.getElem?_map, names_]
        cases hp : properties[k]? with
        | none =>
          rw [hp] at here
          exact (Option.map_eq_none_iff.mp here.symm).symm
        | some p =>
          obtain ⟨name, shape⟩ := p
          rw [hp] at here there
          obtain ⟨⟨name', shape'⟩, hp', rfl⟩ := Option.map_eq_some_iff.mp here.symm
          obtain ⟨⟨_, d⟩, hd, rfl⟩ := Option.map_eq_some_iff.mp there.symm
          rw [hp', ih k _ d shape hd hp (meant' k _ d shape' hd hp')]
      subst one
      have needs : names = names' :=
        List.map_injective_iff.mpr (fun _ _ e => Document.string.inj e)
          (Document.array.inj (ofRequired.symm.trans ofRequired'))
      subst needs
      obtain rfl := List.map_injective_iff.mpr (fun _ _ => Option.some.inj) (same.trans same'.symm)
      obtain rfl := Document.bool.inj (ofMore.symm.trans ofMore')
      rfl
    | _ => simp_all [Typed]

/-- The tree under a node of an arena. -/
inductive Shows (nodes : List Node) : Nat → Shape → Prop
  | any {i : Nat} : nodes[i]? = some .any → Shows nodes i .any
  | object {i : Nat} {children : List (Text × Nat)} {properties : List (Text × Shape)} {required : List Nat}
      {additional : Bool} : nodes[i]? = some (.object children required additional) →
      properties.map Prod.fst = children.map Prod.fst →
      (∀ (k : Nat) name id shape, children[k]? = some (name, id) → properties[k]? = some (name, shape) →
        Shows nodes id shape) →
      (∀ r ∈ required, ∃ name, children.findIdx? (fun p => p.1 = name) = some r) →
      Shows nodes i (.object properties required additional)
  | array {i items : Nat} {shape : Shape} : nodes[i]? = some (.array items) → Shows nodes items shape →
      Shows nodes i (.array shape)
  | str {i : Nat} : nodes[i]? = some .str → Shows nodes i .str
  | number {i : Nat} {integer : Bool} : nodes[i]? = some (.number integer) → Shows nodes i (.number integer)
  | bool {i : Nat} : nodes[i]? = some .bool → Shows nodes i .bool
  | null {i : Nat} : nodes[i]? = some .null → Shows nodes i .null
  | choice {i : Nat} {options : List Document} : options ≠ [] → nodes[i]? = some (.choice (options.map canonical)) →
      Shows nodes i (.choice options)

/-- What a node says of the trees it is the root of. -/
def Node.Roots (nodes : List Node) : Node → Shape → Prop
  | .any, shape => shape = .any
  | .object children required additional, shape =>
    ∃ properties : List (Text × Shape), shape = .object properties required additional ∧
      properties.map Prod.fst = children.map Prod.fst ∧
      (∀ (k : Nat) name id shape, children[k]? = some (name, id) → properties[k]? = some (name, shape) →
        Shows nodes id shape) ∧
      ∀ r ∈ required, ∃ name, children.findIdx? (fun p => p.1 = name) = some r
  | .array items, shape => ∃ inner, shape = .array inner ∧ Shows nodes items inner
  | .str, shape => shape = .str
  | .number integer, shape => shape = .number integer
  | .bool, shape => shape = .bool
  | .null, shape => shape = .null
  | .choice options, shape => ∃ docs : List Document, shape = .choice docs ∧ docs ≠ [] ∧ options = docs.map canonical

theorem Shows.roots {nodes : List Node} {i : Nat} {shape : Shape} {node : Node} (h : Shows nodes i shape)
    (e : nodes[i]? = some node) : node.Roots nodes shape := by
  cases h with
  | any e' =>
    obtain rfl := Option.some.inj (e.symm.trans e')
    exact rfl
  | object e' names shown found =>
    obtain rfl := Option.some.inj (e.symm.trans e')
    exact ⟨_, rfl, names, shown, found⟩
  | array e' shown =>
    obtain rfl := Option.some.inj (e.symm.trans e')
    exact ⟨_, rfl, shown⟩
  | str e' =>
    obtain rfl := Option.some.inj (e.symm.trans e')
    exact rfl
  | number e' =>
    obtain rfl := Option.some.inj (e.symm.trans e')
    exact rfl
  | bool e' =>
    obtain rfl := Option.some.inj (e.symm.trans e')
    exact rfl
  | null e' =>
    obtain rfl := Option.some.inj (e.symm.trans e')
    exact rfl
  | choice some_ e' =>
    obtain rfl := Option.some.inj (e.symm.trans e')
    exact ⟨_, rfl, some_, rfl⟩

section Arena

variable {nodes nodes' : List Node} {i : Nat} {shape : Shape}

/-- A tree is shown by whatever shows its nodes, under other indices. -/
theorem Shows.rename (f : Nat → Nat)
    (kept : ∀ i node, nodes[i]? = some node → nodes'[f i]? = some (node.rename f)) (h : Shows nodes i shape) :
    Shows nodes' (f i) shape := by
  induction h with
  | any e => exact .any (kept _ _ e)
  | @object i children properties required additional e names _ found ih =>
    refine .object (kept _ _ e) ?_ (fun k name id shape child property => ?_) ?_
    · rw [names, List.map_map]
      rfl
    · rw [List.getElem?_map] at child
      obtain ⟨⟨name', id'⟩, before, same⟩ := Option.map_eq_some_iff.mp child
      obtain ⟨rfl, rfl⟩ := Prod.mk.inj same
      exact ih k name' id' shape before property
    · intro r hr
      obtain ⟨name, here⟩ := found r hr
      exact ⟨name, by rw [List.findIdx?_map]; exact here⟩
  | array e _ ih => exact .array (kept _ _ e) ih
  | str e => exact .str (kept _ _ e)
  | number e => exact .number (kept _ _ e)
  | bool e => exact .bool (kept _ _ e)
  | null e => exact .null (kept _ _ e)
  | choice some_ e => exact .choice some_ (kept _ _ e)

theorem rename_id (node : Node) : node.rename (fun i => i) = node := by
  cases node <;> simp [Node.rename]

theorem Shows.append (h : Shows nodes i shape) (more : List Node) : Shows (nodes ++ more) i shape :=
  h.rename (fun i => i) fun i node e => by
    rw [rename_id, List.getElem?_append_left (List.getElem?_eq_some_iff.mp e).1, e]

theorem Shows.grow (h : Shows nodes i shape) (grown : nodes <+: nodes') : Shows nodes' i shape := by
  obtain ⟨more, rfl⟩ := grown
  exact h.append more

theorem push_shows (nodes : List Node) (node : Node) : (nodes ++ [node])[nodes.length]? = some node := by simp

/-- The arena after a swap has each node under its new index. -/
theorem remap_swap {root : Nat} (h0 : 0 < nodes.length) (hr : root < nodes.length) {node : Node}
    (e : nodes[i]? = some node) :
    (remap (swap nodes 0 root) 0 root)[swapIndex 0 root i]? = some (node.rename (swapIndex 0 root)) := by
  have lt := (List.getElem?_eq_some_iff.mp e).1
  have moved : (swap nodes 0 root)[swapIndex 0 root i]? = some node := by
    unfold swap swapIndex
    rw [List.getElem?_set, List.length_set, List.getElem?_set]
    by_cases first : i = 0
    · subst first
      rw [if_pos rfl, if_pos rfl, if_pos hr, List.getD_eq_getElem?_getD, e]
      rfl
    · rw [if_neg first]
      by_cases last : i = root
      · subst last
        rw [if_pos rfl, if_neg first, if_pos rfl, if_pos h0, List.getD_eq_getElem?_getD, e]
        rfl
      · rw [if_neg last, if_neg (Ne.symm last), if_neg (Ne.symm first), e]
  rw [remap, List.getElem?_map, moved]
  rfl

end Arena

section Compile

variable {nodes nodes' : List Node} {id : Nat}

theorem bind_ok {ε α β : Type} {x : Except ε α} {f : α → Except ε β} {b : β} (h : x >>= f = .ok b) :
    ∃ a, x = .ok a ∧ f a = .ok b := by
  cases x with
  | error e => cases h
  | ok a => exact ⟨a, rfl, h⟩

/-- The options of a choice are texts of documents. -/
def Node.Written : Node → Prop
  | .choice options => ∃ docs : List Document, options = docs.map canonical
  | _ => True

theorem Node.Written.rename {node : Node} (h : node.Written) (f : Nat → Nat) : (node.rename f).Written := by
  cases node <;> exact h

def Written (nodes : List Node) : Prop := ∀ node ∈ nodes, node.Written

theorem Written.push (h : Written nodes) {node : Node} (written : node.Written) : Written (nodes ++ [node]) := by
  intro n hn
  rcases List.mem_append.mp hn with hn | hn
  · exact h n hn
  · rw [List.mem_singleton.mp hn]
    exact written

/-- What a run of the compiler on a document has done. -/
structure Compiled (nodes nodes' : List Node) (d : Document) (id : Nat) : Prop where
  grown : nodes <+: nodes'
  inRange : id < nodes'.length
  shows : ∃ shape, Means d shape ∧ Shows nodes' id shape
  written : Written nodes → Written nodes'

theorem push_compiled {d : Document} {node : Node} {shape : Shape} (h : push nodes node = (nodes', id))
    (means : Means d shape) (shows_ : ∀ nodes' id, nodes'[id]? = some node → Shows nodes' id shape)
    (written : node.Written) : Compiled nodes nodes' d id := by
  obtain ⟨rfl, rfl⟩ := Prod.mk.inj h
  exact ⟨List.prefix_append .., by simp, ⟨shape, means, shows_ _ _ (push_shows nodes node)⟩, fun w => w.push written⟩

variable {compile : Document → List Node → Except SchemaError (List Node × Nat)}

theorem compileProperties_shows
    (sound : ∀ d nodes nodes' id, compile d nodes = .ok (nodes', id) → Compiled nodes nodes' d id)
    {props : List (Text × Document)} {children : List (Text × Nat)}
    (h : compileProperties compile props nodes = .ok (nodes', children)) :
    nodes <+: nodes' ∧ (Written nodes → Written nodes') ∧ ∃ properties : List (Text × Shape), children.map Prod.fst = props.map Prod.fst ∧
      properties.map Prod.fst = props.map Prod.fst ∧
      (∀ (k : Nat) name d shape, props[k]? = some (name, d) → properties[k]? = some (name, shape) → Means d shape) ∧
      ∀ (k : Nat) name id shape, children[k]? = some (name, id) → properties[k]? = some (name, shape) →
        Shows nodes' id shape := by
  induction props generalizing nodes children with
  | nil =>
    obtain ⟨rfl, rfl⟩ := Prod.mk.inj (Except.ok.inj h)
    exact ⟨List.prefix_refl _, id, [], rfl, rfl, by simp, by simp⟩
  | cons p props ih =>
    obtain ⟨name, sub⟩ := p
    obtain ⟨⟨nodes₁, id⟩, first, h⟩ := bind_ok h
    obtain ⟨⟨nodes₂, rest⟩, others, h⟩ := bind_ok h
    obtain ⟨rfl, rfl⟩ := Prod.mk.inj (Except.ok.inj h)
    obtain ⟨grown, -, ⟨shape, means, shown⟩, written⟩ := sound _ _ _ _ first
    obtain ⟨grown', written', properties, names, names', meant, shows_⟩ := ih others
    refine ⟨grown.trans grown', written' ∘ written, (name, shape) :: properties, by simp [names], by simp [names'], ?_, ?_⟩
    · intro k n d sh hd hs
      cases k with
      | zero =>
        obtain ⟨rfl, rfl⟩ := Prod.mk.inj (Option.some.inj hd)
        obtain ⟨-, rfl⟩ := Prod.mk.inj (Option.some.inj hs)
        exact means
      | succ k => exact meant k n d sh hd hs
    · intro k n id sh hc hs
      cases k with
      | zero =>
        obtain ⟨rfl, rfl⟩ := Prod.mk.inj (Option.some.inj hc)
        obtain ⟨-, rfl⟩ := Prod.mk.inj (Option.some.inj hs)
        exact shown.grow grown'
      | succ k => exact shows_ k n id sh hc hs

theorem requiredIndices_names {children : List (Text × Nat)} {docs : List Document} {required : List Nat}
    (h : requiredIndices children docs = .ok required) :
    ∃ names : List Text, docs = names.map .string ∧
      (∀ r ∈ required, ∃ name, children.findIdx? (fun p => p.1 = name) = some r) ∧
      required.map some = names.map (fun n => children.findIdx? fun p => p.1 = n) := by
  induction docs generalizing required with
  | nil =>
    obtain rfl := Except.ok.inj h
    exact ⟨[], rfl, by simp, rfl⟩
  | cons d docs ih =>
    cases d with
    | string n =>
      unfold requiredIndices at h
      cases found : children.findIdx? (fun p => p.1 = n) with
      | none =>
        rw [found] at h
        cases h
      | some i =>
        rw [found] at h
        obtain ⟨out, rest, h⟩ := bind_ok h
        obtain rfl := Except.ok.inj h
        obtain ⟨names, rfl, all, same⟩ := ih rest
        refine ⟨n :: names, rfl, ?_, ?_⟩
        · intro r hr
          rcases List.mem_cons.mp hr with rfl | hr
          · exact ⟨n, found⟩
          · exact all r hr
        · rw [List.map_cons, List.map_cons, same, found]
    | _ => cases h

/-- The properties an object declares, compiled. -/
theorem properties_shows
    (sound : ∀ d nodes nodes' id, compile d nodes = .ok (nodes', id) → Compiled nodes nodes' d id)
    {obj : List (Text × Document)} {children : List (Text × Nat)}
    (h : propertiesOf compile obj nodes = .ok (nodes', children)) :
    nodes <+: nodes' ∧ (Written nodes → Written nodes') ∧ ∃ (props : List (Text × Document)) (properties : List (Text × Shape)),
      (get obj "properties").getD (.object []) = .object props ∧ children.map Prod.fst = props.map Prod.fst ∧
      properties.map Prod.fst = props.map Prod.fst ∧
      (∀ (k : Nat) name d shape, props[k]? = some (name, d) → properties[k]? = some (name, shape) → Means d shape) ∧
      ∀ (k : Nat) name id shape, children[k]? = some (name, id) → properties[k]? = some (name, shape) →
        Shows nodes' id shape := by
  unfold propertiesOf at h
  cases hp : get obj "properties" with
  | none =>
    rw [hp] at h
    obtain ⟨rfl, rfl⟩ := Prod.mk.inj (Except.ok.inj h)
    exact ⟨List.prefix_refl _, id, [], [], rfl, rfl, rfl, by simp, by simp⟩
  | some d =>
    rw [hp] at h
    cases d with
    | object props =>
      obtain ⟨grown, written, properties, names, names', meant, shows_⟩ := compileProperties_shows sound h
      exact ⟨grown, written, props, properties, rfl, names, names', meant, shows_⟩
    | _ => cases h

/-- The names an object requires, found among its properties. -/
theorem required_names {obj : List (Text × Document)} {children : List (Text × Nat)} {required : List Nat}
    (h : requiredOf obj children = .ok required) :
    ∃ names : List Text, (get obj "required").getD (.array []) = .array (names.map .string) ∧
      (∀ r ∈ required, ∃ name, children.findIdx? (fun p => p.1 = name) = some r) ∧
      required.map some = names.map (fun n => children.findIdx? fun p => p.1 = n) := by
  unfold requiredOf at h
  cases hr : get obj "required" with
  | none =>
    rw [hr] at h
    obtain rfl := Except.ok.inj h
    exact ⟨[], rfl, by simp, rfl⟩
  | some d =>
    rw [hr] at h
    cases d with
    | array docs =>
      obtain ⟨names, rfl, all, same⟩ := requiredIndices_names h
      exact ⟨names, rfl, all, same⟩
    | _ => cases h

theorem compileObject_shows
    (sound : ∀ d nodes nodes' id, compile d nodes = .ok (nodes', id) → Compiled nodes nodes' d id)
    {obj : List (Text × Document)} (typed : Typed obj "object")
    (h : compileObject compile obj nodes = .ok (nodes', id)) : Compiled nodes nodes' (.object obj) id := by
  unfold compileObject at h
  obtain ⟨⟨nodes₁, children⟩, inner, h⟩ := bind_ok h
  obtain ⟨grown, written, props, properties, ofProps, names, names', meant, shows_⟩ := properties_shows sound inner
  obtain ⟨required, found, h⟩ := bind_ok h
  obtain ⟨needs, ofRequired, all, same⟩ := required_names found
  obtain ⟨additional, more, h⟩ := bind_ok h
  have together : properties.map Prod.fst = children.map Prod.fst := names'.trans names.symm
  have empty : properties.isEmpty = children.isEmpty := by
    have lengths := congrArg List.length together
    rw [List.length_map, List.length_map] at lengths
    cases properties <;> cases children <;> simp_all
  have ofAdditional : (get obj "additionalProperties").getD (.bool properties.isEmpty) = .bool additional := by
    unfold additionalOf at more
    cases ha : get obj "additionalProperties" with
    | none =>
      rw [ha] at more
      rw [empty, ← Except.ok.inj more]
      rfl
    | some d =>
      rw [ha] at more
      cases d with
      | bool b =>
        rw [← Except.ok.inj more]
        rfl
      | _ => cases more
  have sameNames : required.map some = needs.map fun n => properties.findIdx? fun p => p.1 = n := by
    rw [same]
    refine List.map_congr_left fun n _ => ?_
    have onNames := congrArg (List.findIdx? fun name => decide (name = n)) together
    rw [List.findIdx?_map, List.findIdx?_map] at onNames
    exact onNames.symm
  split at h
  · cases h
  · obtain ⟨rfl, rfl⟩ := Prod.mk.inj (Except.ok.inj h)
    refine ⟨grown.trans (List.prefix_append ..), by simp, ⟨.object properties required additional,
      .object typed ofProps names' meant ofRequired sameNames ofAdditional, ?_⟩, fun w => (written w).push trivial⟩
    exact .object (push_shows _ _) together (fun k name id shape hc hs => (shows_ k name id shape hc hs).append _)
      all

theorem compileType_shows
    (sound : ∀ d nodes nodes' id, compile d nodes = .ok (nodes', id) → Compiled nodes nodes' d id)
    {ty : Text} {obj : List (Text × Document)} (const : get obj "const" = none) (enum : get obj "enum" = none)
    (type : get obj "type" = some (.string ty)) (h : compileType compile ty obj nodes = .ok (nodes', id)) :
    Compiled nodes nodes' (.object obj) id := by
  have typed : ∀ name : String, ty = name.toList → Typed obj name := fun name same => ⟨const, enum, same ▸ type⟩
  unfold compileType at h
  split at h
  · rename_i same
    exact push_compiled (Except.ok.inj h) (.str (typed _ same)) (fun _ _ e => .str e) trivial
  split at h
  · rename_i same
    exact push_compiled (Except.ok.inj h) (.integer (typed _ same)) (fun _ _ e => .number e) trivial
  split at h
  · rename_i same
    exact push_compiled (Except.ok.inj h) (.number (typed _ same)) (fun _ _ e => .number e) trivial
  split at h
  · rename_i same
    exact push_compiled (Except.ok.inj h) (.bool (typed _ same)) (fun _ _ e => .bool e) trivial
  split at h
  · rename_i same
    exact push_compiled (Except.ok.inj h) (.null (typed _ same)) (fun _ _ e => .null e) trivial
  split at h
  · rename_i same
    unfold compileArray at h
    obtain ⟨⟨nodes₁, items⟩, inner, h⟩ := bind_ok h
    obtain ⟨rfl, rfl⟩ := Prod.mk.inj (Except.ok.inj h)
    unfold itemsOf at inner
    cases hi : get obj "items" with
    | none =>
      rw [hi] at inner
      obtain ⟨rfl, rfl⟩ := Prod.mk.inj (Except.ok.inj inner)
      refine ⟨⟨[.any, .array nodes.length], by simp⟩, by simp, ⟨_, .list (typed _ same) hi, ?_⟩,
        fun w => (w.push (show Node.any.Written from trivial)).push trivial⟩
      exact .array (push_shows _ _) ((Shows.any (push_shows _ _)).append _)
    | some d =>
      rw [hi] at inner
      obtain ⟨grown, -, ⟨shape, means, shown⟩, written⟩ := sound _ _ _ _ inner
      refine ⟨grown.trans (List.prefix_append ..), by simp, ⟨_, .array (typed _ same) hi means, ?_⟩,
        fun w => (written w).push trivial⟩
      exact .array (push_shows _ _) (shown.append _)
  split at h
  · rename_i same
    exact compileObject_shows sound (typed _ same) h
  · cases h

/-- What the compiler appends for a document shows what it means. -/
theorem compileNode_shows (levels : Nat) :
    ∀ (d : Document) (nodes nodes' : List Node) (id : Nat),
      compileNode levels d nodes = .ok (nodes', id) → Compiled nodes nodes' d id := by
  induction levels with
  | zero =>
    intro d nodes nodes' id h
    cases h
  | succ levels ih =>
    intro d nodes nodes' id h
    unfold compileNode at h
    cases d with
    | bool b =>
      cases b
      · cases h
      · exact push_compiled (Except.ok.inj h) .anything (fun _ _ e => .any e) trivial
    | object obj =>
      simp only at h
      split at h
      · cases h
      cases hc : get obj "const" with
      | some c =>
        rw [hc] at h
        exact push_compiled (Except.ok.inj h) (.const hc) (fun _ _ e => .choice (by simp) e) ⟨[c], rfl⟩
      | none =>
        rw [hc] at h
        cases he : get obj "enum" with
        | some options =>
          rw [he] at h
          cases options with
          | array os =>
            simp only at h
            split at h
            · cases h
            · rename_i some_
              refine push_compiled (Except.ok.inj h) (.enum hc he) (fun _ _ e => .choice (fun none_ => ?_) e) ⟨os, rfl⟩
              rw [none_] at some_
              exact some_ rfl
          | _ => cases h
        | none =>
          rw [he] at h
          cases ht : get obj "type" with
          | none =>
            rw [ht] at h
            exact push_compiled (Except.ok.inj h) (.untyped hc he ht) (fun _ _ e => .any e) trivial
          | some ty =>
            rw [ht] at h
            cases ty with
            | string ty => exact compileType_shows ih hc he ht h
            | _ => cases h
    | _ => cases h

/-- The root of a compiled schema shows what the document means. -/
theorem Schema.compile_shows {d : Document} {s : Schema} (h : Schema.compile d = .ok s) :
    ∃ shape, Means d shape ∧ Shows s.nodes 0 shape := by
  unfold Schema.compile at h
  obtain ⟨⟨nodes, root⟩, compiled, h⟩ := bind_ok h
  obtain ⟨-, inRange, ⟨shape, means, shown⟩, -⟩ := compileNode_shows _ _ _ _ _ compiled
  refine ⟨shape, means, ?_⟩
  by_cases first : root ≠ 0
  · obtain rfl := Except.ok.inj ((if_pos first).symm.trans h)
    have first : swapIndex 0 root root = 0 := by
      unfold swapIndex
      split
      · assumption
      · rw [if_pos rfl]
    have moved := shown.rename (swapIndex 0 root) fun i node e => remap_swap (Nat.zero_lt_of_lt inRange) inRange e
    rw [first] at moved
    exact moved
  · obtain rfl := Except.ok.inj ((if_neg first).symm.trans h)
    rw [not_not.mp first] at shown
    exact shown

theorem Schema.compile_written {d : Document} {s : Schema} (h : Schema.compile d = .ok s) : Written s.nodes := by
  unfold Schema.compile at h
  obtain ⟨⟨nodes, root⟩, compiled, h⟩ := bind_ok h
  obtain ⟨-, inRange, -, written⟩ := compileNode_shows _ _ _ _ _ compiled
  have here : Written nodes := written (by simp [Written])
  by_cases first : root ≠ 0
  · obtain rfl := Except.ok.inj ((if_pos first).symm.trans h)
    intro node hn
    obtain ⟨old, swapped, rfl⟩ := List.mem_map.mp hn
    refine Node.Written.rename ?_ _
    have getD : ∀ i, (nodes.getD i .any).Written := by
      intro i
      rw [List.getD_eq_getElem?_getD]
      cases hi : nodes[i]? with
      | none => trivial
      | some n => exact here n (List.mem_of_getElem? hi)
    rcases List.mem_or_eq_of_mem_set swapped with swapped | rfl
    · rcases List.mem_or_eq_of_mem_set swapped with swapped | rfl
      · exact here old swapped
      · exact getD root
    · exact getD 0
  · obtain rfl := Except.ok.inj ((if_neg first).symm.trans h)
    exact here

theorem withAnyNode_written {s : Schema} (h : Written s.nodes) : Written (withAnyNode s).nodes := by
  unfold withAnyNode
  split
  · exact h
  · exact h.push trivial

theorem any_written : Written Schema.any.nodes := by simp [Written, Schema.any, Node.Written]

theorem withAnyNode_shows {s : Schema} {i : Nat} {shape : Shape} (h : Shows s.nodes i shape) :
    Shows (withAnyNode s).nodes i shape := by
  unfold withAnyNode
  split
  · exact h
  · exact h.append _

theorem any_shows : Shows Schema.any.nodes 0 .any := .any rfl

end Compile

end Vapi.Structured
