import Vapi.Structured.Closing

/-!
# States that can be finished

A machine does not look ahead past the frame a character is read in. What it
does not see is whether a number or an escape still fits under its limit,
whether the whitespace of an option does, and whether the names and values an
object owes can be typed. Where all of these can, the document can be finished.
-/

namespace Vapi.Structured

open JsonGrammar (isHex)
open Document (canonical)

/-- Some value of the schema can be typed. -/
inductive Shape.Producible : Shape → Prop
  | any : Producible .any
  | object {properties : List (Text × Shape)} {required : List Nat} {additional : Bool} :
      (∀ r ∈ required, ∀ name shape, properties[r]? = some (name, shape) → writes additional 0 name) →
      (∀ r ∈ required, ∀ name shape, properties[r]? = some (name, shape) → Producible shape) →
      Producible (.object properties required additional)
  | array {items : Shape} : Producible (.array items)
  | str : Producible .str
  | number {integer : Bool} : Producible (.number integer)
  | bool : Producible .bool
  | null : Producible .null
  | choice {options : List Document} {d : Document} : d ∈ options → wsFits 0 (byteChars (canonical d)) →
      Producible (.choice options)

/-- The properties still owed by an object can be typed. -/
def Owed (properties : List (Text × Shape)) (required : List Nat) (additional : Bool) (seen : List Nat) : Prop :=
  ∀ r ∈ required, r ∉ seen → ∀ name shape, properties[r]? = some (name, shape) →
    writes additional 0 name ∧ shape.Producible

/-- A declared property not seen yet can be typed on from the key. -/
def Another (properties : List (Text × Shape)) (seen : List Nat) (key : Text) : Prop :=
  ∃ i t shape, properties.findIdx? (fun p => p.1 = key ++ t) = some i ∧ properties[i]? = some (key ++ t, shape) ∧
    i ∉ seen ∧ writes false 0 t ∧ shape.Producible

def ObjectFrame.Open (nodes : List Node) (o : ObjectFrame) : Prop :=
  ∀ n properties required additional, o.node = some n → Shows nodes n (.object properties required additional) →
    Owed properties required additional o.seen ∧
      match o.state with
      | .start | .value | .next => True
      | .keyExpected => additional ∨ Another properties o.seen []
      | .key => additional ∨ Another properties o.seen o.key
      | .colon => ∀ name shape, properties.find? (fun p => p.1 = o.key) = some (name, shape) → shape.Producible

/-- What is left of a frame's value can be typed, after so much whitespace. -/
def Frame.Open (nodes : List Node) (run : Nat) : Frame → Prop
  | .value id => ∀ n shape, id = some n → Shows nodes n shape → shape.Producible
  | .str escape len => escape = 0 ∨ escape = 5 ∨ len + escape ≤ maxStringChars
  | .number n => n.complete ∨ n.len < maxNumberChars
  | .word alts matched => ∃ a ∈ alts, wsFits run ((byteChars a).drop matched)
  | .object o => o.Open nodes
  | .array a => a.state = .valueExpected → ∀ n shape, a.items = some n → Shows nodes n shape → shape.Producible

def Machine.Open (m : Machine) : Prop := ∀ f ∈ m.stack, f.Open m.schema.nodes m.wsRun

namespace Machine

variable {s : Schema} {m m' : Machine} {P : Machine → Prop} {f : Frame} {rest : List Frame} {c : Char}

section Shapes

/-- A required property stands under its name in the arena and in the tree. -/
theorem required_child {children : List (Text × Nat)} {properties : List (Text × Shape)} {required : List Nat}
    (names : properties.map Prod.fst = children.map Prod.fst)
    (found : ∀ r ∈ required, ∃ name, children.findIdx? (fun p => p.1 = name) = some r) {r : Nat} (hr : r ∈ required) :
    ∃ name id shape, children.findIdx? (fun p => p.1 = name) = some r ∧ children[r]? = some (name, id) ∧
      properties[r]? = some (name, shape) := by
  obtain ⟨name, here⟩ := found r hr
  obtain ⟨lt, same, -⟩ := List.findIdx?_eq_some_iff_getElem.mp here
  have child : children[r]? = some (name, children[r].2) := by
    rw [List.getElem?_eq_getElem lt, ← of_decide_eq_true same]
  have property : (properties[r]?).map Prod.fst = some name := by
    rw [← List.getElem?_map, names, List.getElem?_map, child]
    rfl
  obtain ⟨⟨_, shape⟩, at_, rfl⟩ := Option.map_eq_some_iff.mp property
  exact ⟨_, _, shape, here, child, at_⟩

/-- The property found under a name is found there in the tree. -/
theorem find_child {properties : List (Text × Shape)} {children : List (Text × Nat)} {key : Text} {p : Text × Nat}
    (names : properties.map Prod.fst = children.map Prod.fst) (found : children.find? (fun p => p.1 = key) = some p) :
    ∃ i : Nat, children[i]? = some p ∧ ∃ shape, properties[i]? = some (p.1, shape) ∧
      properties.find? (fun p => p.1 = key) = some (p.1, shape) := by
  induction children generalizing properties with
  | nil => cases found
  | cons q children ih =>
    cases properties with
    | nil => cases names
    | cons property properties =>
      obtain ⟨name, shape⟩ := property
      obtain ⟨rfl, others⟩ := List.cons.inj names
      by_cases here : q.1 = key
      · rw [List.find?_cons_of_pos (by simpa using here)] at found
        obtain rfl := Option.some.inj found
        exact ⟨0, rfl, shape, rfl, List.find?_cons_of_pos (by simpa using here)⟩
      · rw [List.find?_cons_of_neg (by simpa using here)] at found
        obtain ⟨i, child, shape', property, named⟩ := ih others found
        exact ⟨i + 1, child, shape', property, by rw [List.find?_cons_of_neg (by simpa using here), named]⟩

/-- A value that can be typed for the tree can be filled in for its node. -/
theorem fillable {shape : Shape} (producible : shape.Producible) : ∀ {k : Nat}, Shows s.nodes k shape → Fillable s k := by
  induction producible with
  | any =>
    intro k shown m rest h schema e
    cases shown with
    | any at_ => exact begins_word h schema e at_ (c := 'n') rfl rfl (List.mem_singleton_self _) (r := "ull".toList) rfl rfl
  | @object properties required additional written _ ih =>
    intro k shown m rest h schema e
    cases shown with
    | @object _ children _ _ _ at_ names shown found =>
      obtain ⟨m₁, step, sound, schema₁, e₁⟩ := begins (c := '{') h schema e at_ rfl rfl (by simp)
      refine ⟨_, m₁, rfl, step, viable_of_top sound e₁ (between_viable (sound.top e₁) (.inl rfl)), .past ?_⟩
      refine object_start sound schema₁ e₁ rfl fun n' children' required' additional' isNode at_' r hr => .inr ?_
      obtain rfl := Option.some.inj isNode
      obtain ⟨rfl, rfl, rfl⟩ := Node.object.inj (Option.some.inj (at_.symm.trans at_'))
      obtain ⟨name, id, shape, here, child, property⟩ := required_child names found hr
      exact ⟨name, id, here, child, written r hr name shape property,
        ih r hr name shape property (shown r name id shape child property)⟩
  | array =>
    intro k shown m rest h schema e
    cases shown with
    | array at_ _ =>
      obtain ⟨m₁, step, sound, schema₁, e₁⟩ := begins (c := '[') h schema e at_ rfl rfl (by simp)
      exact ⟨_, m₁, rfl, step, viable_of_top sound e₁ rfl, .past (array_start sound schema₁ e₁ rfl)⟩
  | str =>
    intro k shown m rest h schema e
    cases shown with
    | str at_ =>
      obtain ⟨m₁, step, sound, schema₁, e₁⟩ := begins (c := '"') h schema e at_ rfl rfl (by simp)
      exact ⟨_, m₁, rfl, step, viable_of_top sound e₁ rfl, .past (string_gets sound schema₁ e₁ (.inl rfl))⟩
  | @number integer =>
    intro k shown m rest h schema e
    cases shown with
    | number at_ =>
      have frame : startFrame (some k) (.number integer) '0' =
          some (.number { integer, seenDigit := true, afterSign := false }) := by cases integer <;> rfl
      obtain ⟨m₁, step, sound, schema₁, e₁⟩ := begins (c := '0') h schema e at_ rfl frame (by simp)
      exact ⟨_, m₁, rfl, step, viable_of_top sound e₁ rfl, .here sound schema₁ (.inr ⟨_, e₁, rfl⟩)⟩
  | bool =>
    intro k shown m rest h schema e
    cases shown with
    | bool at_ => exact begins_word h schema e at_ (c := 't') rfl rfl (List.mem_singleton_self _) (r := "rue".toList) rfl rfl
  | null =>
    intro k shown m rest h schema e
    cases shown with
    | null at_ => exact begins_word h schema e at_ (c := 'n') rfl rfl (List.mem_singleton_self _) (r := "ull".toList) rfl rfl
  | @choice options d listed fits =>
    intro k shown m rest h schema e
    cases shown with
    | choice _ at_ =>
      obtain ⟨c, l, text, starts⟩ := canonical_starts d
      have noWs := JsonGrammar.startsValue_not_ws starts
      have bytes : byteChars (canonical d) = c :: l.flatMap latin := by
        rw [byteChars_eq, text, Document.flatMap_cons_ascii faithful_latin (startsValue_ascii starts)]
      have listed' : canonical d ∈ (options.map canonical).filter fun o => o.head? = some c :=
        List.mem_filter.mpr ⟨List.mem_map_of_mem listed, by simp [text]⟩
      have frame : startFrame (some k) (.choice (options.map canonical)) c =
          some (.word ((options.map canonical).filter fun o => o.head? = some c) 1) := by
        unfold startFrame
        simp only
        rw [if_neg]
        simpa using List.ne_nil_of_mem listed'
      rw [bytes, wsFits, if_neg (by simp [noWs])] at fits
      exact begins_word h schema e at_ noWs frame listed' bytes fits

end Shapes

section Keys

variable {o : ObjectFrame}

theorem writes_letters (n : Nat) : writes true 0 (List.replicate n 'x') := by
  induction n with
  | zero => rfl
  | succ n ih => simp [List.replicate_succ, writes, ih]

/-- Where any name is allowed, a key can be typed on for as long as one likes. -/
theorem writes_on {escape : Nat} (few : escape ≤ 5) (n : Nat) : ∃ t : Text, n ≤ t.length ∧ writes true escape t := by
  have letters := writes_letters n
  refine ⟨(if escape = 5 then ['n'] else List.replicate escape '0') ++ List.replicate n 'x', by simp, ?_⟩
  obtain rfl | rfl | rfl | rfl | rfl | rfl : escape = 0 ∨ escape = 1 ∨ escape = 2 ∨ escape = 3 ∨ escape = 4 ∨ escape = 5 := by
    omega
  all_goals simp [writes, escapeOk, nextEscape, List.replicate_succ, letters, isHex, Char.isDigit]

theorem names_bounded (children : List (Text × Nat)) : ∃ n, ∀ p ∈ children, p.1.length < n := by
  induction children with
  | nil => exact ⟨0, by simp⟩
  | cons p children ih =>
    obtain ⟨n, short⟩ := ih
    refine ⟨max n (p.1.length + 1), fun q hq => ?_⟩
    rcases List.mem_cons.mp hq with rfl | hq
    · omega
    · have := short q hq
      omega

/-- A key is typed on to a name of no property, and any value read for it. -/
theorem free_gets (any : .any ∈ s.nodes) (h : m.Sound) (schema : m.schema = s) (e : m.stack = .object o :: rest)
    (key : o.state = .key)
    (free : o.node = none ∨ ∃ n children required, o.node = some n ∧ s.nodes[n]? = some (.object children required true)) :
    ∃ key, Gets s m (Past · (.object { o with state := .value, key, escape := 0 } :: rest)) := by
  have few : o.escape ≤ 5 := (h.top e).1
  rcases free with free | ⟨n, children, required, isNode, at_⟩
  · obtain ⟨t, -, written⟩ := writes_on few 0
    have isFree : (new s).keysAreFree o.node = true := by simp [keysAreFree, free]
    refine ⟨_, (key_gets t h schema e key (by rw [isFree]; exact written) fun u _ => by simp [keyPossible, free]).trans
      fun m₁ sound schema e₁ => free_value any sound schema e₁ key rfl (.inl free)⟩
  · obtain ⟨n', short⟩ := names_bounded children
    obtain ⟨t, long, written⟩ := writes_on few n'
    refine ⟨_, (key_gets t h schema e key ?_ fun u _ => ?_).trans fun m₁ sound schema e₁ =>
      free_value any sound schema e₁ key rfl (.inr ⟨n, children, required, isNode, at_, fun p hp same => ?_⟩)⟩
    · rw [isNode, keysAreFree_object at_]
      exact written
    · rw [isNode, keyPossible_object at_, Bool.true_or]
    · have lengths := congrArg List.length same
      have := short p hp
      rw [List.length_append] at lengths
      omega

/-- What an object still owes, read in the arena. -/
theorem solvent_of {n : Nat} {children : List (Text × Nat)} {properties : List (Text × Shape)} {required : List Nat}
    {additional : Bool} (isNode : o.node = some n) (at_ : s.nodes[n]? = some (.object children required additional))
    (shown : Shows s.nodes n (.object properties required additional))
    (owed : Owed properties required additional o.seen) : Solvent s o := by
  obtain ⟨_, same, names, below, found⟩ := shown.roots at_
  obtain ⟨rfl, -, -⟩ := Shape.object.inj same
  intro n' children' required' additional' isNode' at_' r hr
  obtain rfl := Option.some.inj (isNode.symm.trans isNode')
  obtain ⟨rfl, rfl, rfl⟩ := Node.object.inj (Option.some.inj (at_.symm.trans at_'))
  refine or_iff_not_imp_left.mpr fun unseen => ?_
  obtain ⟨name, id, shape, here, child, property⟩ := required_child names found hr
  obtain ⟨written, producible⟩ := owed r hr unseen name shape property
  exact ⟨name, id, here, child, written, fillable producible (below r name id shape child property)⟩

theorem Solvent.congr (h : Solvent s o) {o' : ObjectFrame} (node : o'.node = o.node) (seen : o.seen ⊆ o'.seen) : Solvent s o' := by
  intro n children required additional isNode at_ r hr
  exact (h n children required additional (node.symm.trans isNode) at_ r hr).imp (fun here => seen here) id

theorem open_solvent (sound : o.Sound s.nodes) (open_ : o.Open s.nodes) : Solvent s o := by
  rcases sound.2 with free | ⟨n, properties, required, additional, children, isNode, shown, at_, -⟩
  · intro n _ _ _ isNode
    rw [free] at isNode
    cases isNode
  · exact solvent_of isNode at_ shown (open_ n properties required additional isNode shown).1

/-- The key that an object may go on with, and a value for it. -/
def KeyOpen (s : Schema) (o : ObjectFrame) : Prop :=
  (o.node = none ∨ ∃ n children required, o.node = some n ∧ s.nodes[n]? = some (.object children required true)) ∨
    ∃ n children required i id t, o.node = some n ∧ s.nodes[n]? = some (.object children required false) ∧
      children.findIdx? (fun p => p.1 = o.key ++ t) = some i ∧ children[i]? = some (o.key ++ t, id) ∧ i ∉ o.seen ∧
      writes false 0 t ∧ Fillable s id

theorem keyOpen_of (sound : o.Sound s.nodes)
    (another : ∀ n properties required additional, o.node = some n →
      Shows s.nodes n (.object properties required additional) → additional ∨ Another properties o.seen o.key) :
    KeyOpen s o := by
  rcases sound.2 with free | ⟨n, properties, required, additional, children, isNode, shown, at_, -⟩
  · exact .inl (.inl free)
  · cases additional with
    | true => exact .inl (.inr ⟨n, children, required, isNode, at_⟩)
    | false =>
      obtain ⟨i, t, shape, found, property, unseen, written, producible⟩ :=
        (another n properties required false isNode shown).resolve_left (by simp)
      obtain ⟨_, same, names, below, -⟩ := shown.roots at_
      obtain ⟨rfl, -, -⟩ := Shape.object.inj same
      have child : (children[i]?).map Prod.fst = some (o.key ++ t) := by
        rw [← List.getElem?_map, ← names, List.getElem?_map, property]
        rfl
      obtain ⟨⟨_, id⟩, child, rfl⟩ := Option.map_eq_some_iff.mp child
      have found' : children.findIdx? (fun p => p.1 = o.key ++ t) = some i := by
        have onNames := congrArg (List.findIdx? fun name => decide (name = o.key ++ t)) names
        rw [List.findIdx?_map, List.findIdx?_map] at onNames
        exact onNames.symm.trans found
      exact .inr ⟨n, children, required, i, id, t, isNode, at_, found', child, unseen, written,
        fillable producible (below i _ id shape child property)⟩

theorem key_object (any : .any ∈ s.nodes) (h : m.Sound) (schema : m.schema = s) (e : m.stack = .object o :: rest)
    (key : o.state = .key) (solvent : Solvent s o) (keyOpen : KeyOpen s o) : Gets s m (Ended · rest) := by
  rcases keyOpen with free | ⟨n, children, required, i, id, t, isNode, at_, found, child, unseen, written, value⟩
  · obtain ⟨key', gets⟩ := free_gets any h schema e key free
    exact gets.trans fun m₁ sound schema past =>
      object_past sound schema past (solvent.congr rfl (List.Subset.refl _))
  · have out : o.escape = 0 := by
      rcases (h.top e).2 with free | ⟨n', _, _, _, _, isNode', -, at_', escapes, -⟩
      · rw [free] at isNode
        cases isNode
      · obtain rfl := Option.some.inj (isNode.symm.trans isNode')
        rw [schema] at at_'
        obtain ⟨-, -, rfl⟩ := Node.object.inj (Option.some.inj (at_.symm.trans at_'))
        by_contra some_
        cases escapes (Nat.pos_of_ne_zero some_)
    refine (declared_gets h schema e key isNode at_ (by rw [out]; exact written) found child unseen value).trans
      fun m₁ sound schema past => object_past sound schema past (solvent.congr rfl (List.subset_append_left _ _))

/-- A key that may follow is begun. -/
theorem expected_object (any : .any ∈ s.nodes) (h : m.Sound) (schema : m.schema = s) (e : m.stack = .object o :: rest)
    (state : o.state = .keyExpected) (solvent : Solvent s o) (keyOpen : KeyOpen s { o with key := [] }) :
    Gets s m (Ended · rest) := by
  refine opens h schema e (.inr state) ?_ fun m₁ sound schema e₁ =>
    key_object any sound schema e₁ rfl (solvent.congr rfl (List.Subset.refl _)) keyOpen
  rcases keyOpen with (free | ⟨n, children, required, isNode, at_⟩) |
    ⟨n, children, required, i, id, t, isNode, at_, -, child, unseen, -⟩
  · simp [keyPossible, show o.node = none from free]
  · rw [show o.node = some n from isNode, keyPossible_object at_, Bool.true_or]
  · rw [show o.node = some n from isNode, keyPossible_object at_, Bool.false_or]
    exact propertyPossible_of child unseen List.nil_prefix

/-- The value of a key already closed is filled in. -/
theorem colon_object (any : .any ∈ s.nodes) (h : m.Sound) (schema : m.schema = s) (e : m.stack = .object o :: rest)
    (state : o.state = .colon) (open_ : o.Open s.nodes) : Gets s m (Ended · rest) := by
  have sound : o.Sound s.nodes := schema ▸ h.top e
  have solvent := open_solvent sound open_
  obtain ⟨id, node, value⟩ : ∃ id, (new s).valueNodeFor o.node o.key = some (some id) ∧ Fillable s id := by
    obtain ⟨id, anyNode, value⟩ := anyNode_fillable any
    rcases sound.2 with free | ⟨n, properties, required, additional, children, isNode, shown, at_, -, known⟩
    · refine ⟨id, ?_, value⟩
      unfold valueNodeFor
      rw [if_pos free, anyNode]
    · have node : (new s).node (some n) = some (.object children required additional) := at_
      have keyed : o.node ≠ none := by simp [isNode]
      cases found : children.find? (fun p => p.1 = o.key) with
      | none =>
        rcases known state with rfl | ⟨p, hp, same⟩
        · refine ⟨id, ?_, value⟩
          unfold valueNodeFor
          rw [if_neg keyed]
          simp only [isNode, node, found, anyNode, if_true]
        · have := List.find?_eq_none.mp found p hp
          simp [same] at this
      | some p =>
        refine ⟨p.2, ?_, ?_⟩
        · unfold valueNodeFor
          rw [if_neg keyed]
          simp only [isNode, node, found]
        obtain ⟨_, producible⟩ := open_ n properties required additional isNode shown
        rw [state] at producible
        obtain ⟨_, same, names, below, -⟩ := shown.roots at_
        obtain ⟨rfl, -, -⟩ := Shape.object.inj same
        obtain ⟨i, child, shape, property, named⟩ := find_child names found
        exact fillable (producible p.1 shape named) (below i p.1 p.2 shape child property)
  exact (value_of_colon h schema e state node fun sound schema e => (value sound schema e).gets).trans
    fun m₁ sound schema past => object_past sound schema past (solvent.congr rfl (List.Subset.refl _))

end Keys

section Stack

/-- The innermost value is finished. -/
theorem top_gets (any : .any ∈ s.nodes) (h : m.Sound) (schema : m.schema = s) (started : m ≠ new s → m.started)
    (e : m.stack = f :: rest) (open_ : f.Open s.nodes m.wsRun) : Gets s m (Past · rest) := by
  have sound : f.Sound s.nodes := schema ▸ h.top e
  have awake : ¬f.Waiting := h.awake f (by simp [e])
  cases f with
  | value id =>
    rcases sound with ⟨n, shape, rfl, shown⟩ | ⟨-, none_⟩
    · exact (fillable (open_ n shape rfl shown) shown h schema e).gets
    · exact absurd any none_
  | str escape len => exact .past (string_gets h schema e open_)
  | number n => exact number_gets h schema e open_
  | word alts matched =>
    obtain ⟨a, listed, fits⟩ := open_
    refine .past (word_gets _ h schema (started fun same => ?_) e listed rfl fits)
    rw [same] at e
    cases e
  | object o =>
    have solvent := open_solvent sound open_
    cases state : o.state with
    | start => exact .past (object_start h schema e state solvent)
    | key =>
      refine .past (key_object any h schema e state solvent (keyOpen_of sound fun n properties required additional isNode shown => ?_))
      obtain ⟨-, another⟩ := open_ n properties required additional isNode shown
      rw [state] at another
      exact another
    | colon => exact .past (colon_object any h schema e state open_)
    | value => exact absurd state awake
    | next =>
      have past : m.Past (.object o :: rest) := by
        refine .inl ⟨?_, h.not_done e⟩
        rw [e, resumed, ← state]
      exact .past (object_past h schema past solvent)
    | keyExpected =>
      have sound' : ObjectFrame.Sound s.nodes { o with key := [] } := by
        obtain ⟨few, node⟩ := sound
        refine ⟨few, node.imp id ?_⟩
        rintro ⟨n, properties, required, additional, children, isNode, shown, at_, escapes, -⟩
        exact ⟨n, properties, required, additional, children, isNode, shown, at_, escapes, fun colon => by
          rw [show o.state = .colon from colon] at state
          cases state⟩
      refine .past (expected_object any h schema e state solvent
        (keyOpen_of sound' fun n properties required additional isNode shown => ?_))
      obtain ⟨-, another⟩ := open_ n properties required additional isNode shown
      rw [state] at another
      exact another
  | array a =>
    cases state : a.state with
    | start => exact .past (array_start h schema e state)
    | value => exact absurd state awake
    | next =>
      have past : m.Past (.array a :: rest) := by
        refine .inl ⟨?_, h.not_done e⟩
        rw [e, resumed, ← state]
      exact .past (array_past h schema past)
    | valueExpected =>
      have value : ∃ id, (a.items <|> (new s).anyNode) = some id ∧ Fillable s id := by
        cases items : a.items with
        | none =>
          obtain ⟨id, anyNode, value⟩ := anyNode_fillable any
          exact ⟨id, anyNode, value⟩
        | some i =>
          obtain ⟨shape, shown⟩ := sound i items
          exact ⟨i, rfl, fillable (open_ state i shape items shown) shown⟩
      obtain ⟨id, isNode, value⟩ := value
      exact (item_gets h schema e state isNode value).trans fun m₁ sound₁ schema₁ past =>
        .past (array_past sound₁ schema₁ past)

/-- The containers under a finished value are finished in turn. -/
theorem under_gets (h : m.Sound) (schema : m.schema = s) (past : m.Past rest)
    (waiting : ∀ g ∈ rest, g.Waiting) (sound : ∀ g ∈ rest, g.Sound s.nodes) (open_ : ∀ g ∈ rest, ∃ run, g.Open s.nodes run) :
    Gets s m (complete ·) := by
  induction rest generalizing m with
  | nil =>
    refine .here h schema ?_
    unfold complete
    rcases past with ⟨-, done⟩ | ⟨n, e, complete⟩
    · rw [done]
      rfl
    · rw [e, Bool.or_eq_true]
      exact .inr complete
  | cons g rest ih =>
    have further : ∀ m', m'.Sound → m'.schema = s → m'.Ended rest → Gets s m' (complete ·) := fun m' sound' schema' ended =>
      ih sound' schema' (.inl ended) (fun x hx => waiting x (by simp [hx])) (fun x hx => sound x (by simp [hx]))
        fun x hx => open_ x (by simp [hx])
    have here := waiting g (by simp)
    cases g with
    | object o =>
      obtain ⟨run, owed⟩ := open_ (.object o) (by simp)
      exact (object_past h schema past (open_solvent (sound (.object o) (by simp)) owed)).trans further
    | array a => exact (array_past h schema past).trans further
    | _ => exact absurd here id

theorem open_gets (any : .any ∈ s.nodes) (h : m.Sound) (schema : m.schema = s) (started : m ≠ new s → m.started)
    (open_ : m.Open) : Gets s m (complete ·) := by
  subst schema
  cases e : m.stack with
  | nil =>
    refine .here h rfl ?_
    unfold complete
    rw [h.ended.mpr e]
    rfl
  | cons f rest =>
    have below : ∀ g ∈ rest, g ∈ m.stack := fun g hg => by simp [e, hg]
    refine (top_gets any h rfl started e (open_ f (by simp [e]))).trans fun m₁ sound schema past => ?_
    refine under_gets sound schema past (fun g hg => h.waiting g (by rw [e]; exact hg)) (fun g hg => ?_) fun g hg => ?_
    · exact h.frames g (below g hg)
    · exact ⟨_, open_ g (below g hg)⟩

end Stack

end Machine

/-- Where what is left can be typed, a state that was viable all along can be
finished, and until then some character is allowed. -/
theorem open_finishes {s : Schema} (built : Built s) (any : .any ∈ s.nodes) {t : Text} {m : Machine}
    (reached : (Machine.new s).walk t = some m) (open_ : m.Open) :
    (∃ u m', m.walk u = some m' ∧ m'.complete) ∧ (m.complete = false → ∃ c, m.allows [c]) := by
  obtain ⟨sound, schema⟩ := built.reached (Machine.walk_push reached)
  have started : m ≠ Machine.new s → m.started := by
    intro other
    refine Machine.walk_started reached fun none_ => other ?_
    subst none_
    exact (Option.some.inj reached).symm
  obtain ⟨u, m', walked, -, -, complete⟩ := Machine.open_gets any sound schema started open_
  refine ⟨⟨u, m', walked, complete⟩, fun incomplete => ?_⟩
  cases u with
  | nil =>
    cases walked
    rw [incomplete] at complete
    cases complete
  | cons c u =>
    obtain ⟨m₁, step, walked⟩ := Option.bind_eq_some_iff.mp walked
    split at walked
    · rename_i viable
      refine ⟨c, ?_⟩
      unfold Machine.allows
      rw [Machine.push, step]
      exact viable
    · cases walked

theorem Machine.inNumber_full {again : Machine → Char → Option Machine} {m : Machine} {n : NumberFrame} {c : Char}
    (full : maxNumberChars ≤ n.len) (incomplete : n.complete = false) : m.inNumber again n c = none := by
  by_cases number : c.isDigit ∨ c ∈ ['.', 'e', 'E', '+', '-']
  · unfold inNumber
    exact if_pos ⟨full, number⟩
  · simp only [List.mem_cons, List.not_mem_nil, or_false, not_or] at number
    simp [inNumber, number, incomplete]

section Stuck

/-- In an array no element of which has been begun. -/
def opened : Machine := { schema := Schema.any, stack := [.array { items := none }], started := true }

theorem opened_finishes :
    (∃ u m', opened.walk u = some m' ∧ m'.complete) ∧ (opened.complete = false → ∃ c, opened.allows [c]) :=
  open_finishes .any (by simp [Schema.any]) (t := ['[']) (by decide) (by simp [Machine.Open, opened, Frame.Open])

/-- A number as long as it may be, in the middle of its exponent. -/
def stuck : Machine :=
  { schema := Schema.any
    stack := [.number { integer := false, seenDigit := true, seenExp := true, afterSign := false, len := 32 }]
    started := true }

/-- A state that was viable all along can leave no character to go on with. -/
theorem number_stuck :
    (Machine.new Schema.any).walk (List.replicate 31 '1' ++ ['e']) = some stuck ∧ stuck.viable ∧
      (¬∃ u m', stuck.walk u = some m' ∧ m'.complete) ∧ ¬∃ c, stuck.allows [c] := by
  have refused : ∀ c, stuck.pushChar c = none := by
    intro c
    cases entered : stuck.enter c with
    | none => rw [Machine.pushChar, Machine.pushWith, entered]; rfl
    | some m₁ =>
      obtain ⟨done, stack, -⟩ := Machine.enter_keeps entered
      rw [Machine.pushChar, Machine.pushWith, entered]
      simp only [Option.bind_eq_bind, Option.bind_some, done, stack, stuck, Bool.false_eq_true, if_false]
      exact Machine.inNumber_full (by decide) (by decide)
  refine ⟨by decide, by decide, ?_, ?_⟩
  · rintro ⟨u, m', walked, complete⟩
    cases u with
    | nil =>
      cases walked
      revert complete
      decide
    | cons c u =>
      rw [Machine.walk, refused] at walked
      cases walked
  · rintro ⟨c, allowed⟩
    unfold Machine.allows at allowed
    rw [Machine.push, refused] at allowed
    cases allowed

end Stuck

end Vapi.Structured
