import Vapi.Structured.Sound

/-!
# The states a machine reaches

What holds of a machine however much it has read: only containers lie under
the innermost frame, each waiting for its value, and every frame's node shows
what the frame is for.
-/

namespace Vapi.Structured

open JsonGrammar (isWs)
open Document (canonical)

/-- A container in the middle of a value. -/
def Frame.Waiting : Frame → Prop
  | .object o => o.state = .value
  | .array a => a.state = .value
  | _ => False

/-- A node that values are read for, or none where the schema has no node for
any value. -/
def Node? (nodes : List Node) (id : Option Nat) : Prop :=
  (∃ n shape, id = some n ∧ Shows nodes n shape) ∨ id = none ∧ Node.any ∉ nodes

def ObjectFrame.Sound (nodes : List Node) (o : ObjectFrame) : Prop :=
  o.escape ≤ 5 ∧
    (o.node = none ∨
      ∃ n properties required additional children, o.node = some n ∧
        Shows nodes n (.object properties required additional) ∧
        nodes[n]? = some (.object children required additional) ∧
        (0 < o.escape → additional = true) ∧
        (o.state = .colon → additional = true ∨ ∃ p ∈ children, p.1 = o.key))

/-- What a frame holds, of the schema it was begun for. -/
def Frame.Sound (nodes : List Node) : Frame → Prop
  | .value id => Node? nodes id
  | .str escape _ => escape ≤ 5
  | .number n => n.seenExp → n.seenDigit
  | .word alts matched => alts ≠ [] ∧ ∀ a ∈ alts, matched < (asBytes a).length
  | .object o => o.Sound nodes
  | .array a => ∀ n, a.items = some n → ∃ shape, Shows nodes n shape

structure Machine.Sound (m : Machine) : Prop where
  frames : ∀ f ∈ m.stack, f.Sound m.schema.nodes
  awake : ∀ f ∈ m.stack.head?, ¬f.Waiting
  waiting : ∀ f ∈ m.stack.tail, f.Waiting
  ended : m.done = true ↔ m.stack = []

/-- The frame's escape and state, changed within what its node allows. -/
theorem ObjectFrame.Sound.change {nodes : List Node} {o : ObjectFrame} (h : o.Sound nodes) {state : ObjState} {escape : Nat}
    (few : escape ≤ 5) (within : 0 < escape → 0 < o.escape) (outside : state ≠ .colon) (key : Text) :
    ObjectFrame.Sound nodes { o with state, key, escape } := by
  obtain ⟨-, node⟩ := h
  refine ⟨few, node.imp id ?_⟩
  rintro ⟨n, properties, required, additional, children, isNode, shown, at_, free, -⟩
  exact ⟨n, properties, required, additional, children, isNode, shown, at_, fun some_ => free (within some_),
    fun colon => absurd colon outside⟩

namespace Machine

variable {m m' : Machine} {f : Frame} {rest : List Frame} {c : Char}

theorem Sound.top (h : m.Sound) (e : m.stack = f :: rest) : f.Sound m.schema.nodes := h.frames f (by simp [e])

theorem Sound.not_done (h : m.Sound) (e : m.stack = f :: rest) : m.done = false := by
  rw [← Bool.not_eq_true, h.ended, e]
  simp

/-- Another frame on top, or two. -/
theorem Sound.replace (h : m.Sound) (e : m.stack = f :: rest) {fs : List Frame} (some_ : fs ≠ [])
    (sound : ∀ g ∈ fs, g.Sound m.schema.nodes) (awake : ∀ g ∈ fs.head?, ¬g.Waiting)
    (waiting : ∀ g ∈ fs.tail, g.Waiting) :
    ({ m with stack := fs ++ rest } : Machine).Sound := by
  have below : ∀ g ∈ rest, g.Waiting := by
    intro g hg
    exact h.waiting g (by rw [e]; exact hg)
  obtain ⟨g, gs, rfl⟩ := List.exists_cons_of_ne_nil some_
  refine ⟨fun x hx => ?_, awake, fun x hx => ?_, ?_⟩
  · rcases List.mem_append.mp hx with hx | hx
    · exact sound x hx
    · exact h.frames x (by rw [e]; exact List.mem_cons_of_mem f hx)
  · rcases List.mem_append.mp (show x ∈ gs ++ rest from hx) with hx | hx
    · exact waiting x hx
    · exact below x hx
  · rw [show ({ m with stack := g :: gs ++ rest } : Machine).done = m.done from rfl, h.not_done e]
    simp

theorem Sound.setTop (h : m.Sound) (e : m.stack = f :: rest) {g : Frame} (sound : g.Sound m.schema.nodes)
    (awake : ¬g.Waiting) : (m.setTop g).Sound := by
  have placed := h.replace e (by simp : [g] ≠ []) (by simpa using sound) (by simpa using awake) (by simp)
  unfold Machine.setTop
  rw [e]
  exact placed

/-- Only containers are under a frame, so a value can always be finished. -/
theorem Sound.finish (h : m.Sound) (e : m.stack = f :: rest) : ∃ m', m.finishValue = some m' ∧ m'.Sound := by
  have below : ∀ g ∈ rest, g.Waiting := by
    intro g hg
    exact h.waiting g (by rw [e]; exact hg)
  unfold finishValue
  rw [e]
  cases rest with
  | nil => exact ⟨_, rfl, by simp, by simp, by simp, by simp⟩
  | cons g rest =>
    have sound : g.Sound m.schema.nodes := h.frames g (by simp [e])
    have others : ∀ x ∈ rest, x.Sound m.schema.nodes := fun x hx => h.frames x (by simp [e, hx])
    have waiting : ∀ x ∈ rest, x.Waiting := fun x hx => below x (by simp [hx])
    have open_ := h.not_done e
    cases g with
    | object o =>
      refine ⟨_, rfl, fun x hx => ?_, by simp [Frame.Waiting], waiting, by simp [open_]⟩
      rcases List.mem_cons.mp hx with rfl | hx
      · obtain ⟨few, node⟩ := sound
        refine ⟨few, node.imp id ?_⟩
        rintro ⟨n, properties, required, additional, children, isNode, shown, at_, escape, -⟩
        exact ⟨n, properties, required, additional, children, isNode, shown, at_, escape, by simp⟩
      · exact others x hx
    | array a =>
      refine ⟨_, rfl, fun x hx => ?_, by simp [Frame.Waiting], waiting, by simp [open_]⟩
      rcases List.mem_cons.mp hx with rfl | hx
      · exact sound
      · exact others x hx
    | _ => exact absurd (below _ (List.mem_cons_self ..)) id

theorem Sound.finishValue (h : m.Sound) (e : m.stack = f :: rest) (finished : m.finishValue = some m') : m'.Sound := by
  obtain ⟨m₁, same, sound⟩ := h.finish e
  rw [finished] at same
  rw [Option.some.inj same]
  exact sound

theorem setTop_finishValue (m : Machine) (f : Frame) : (m.setTop f).finishValue = m.finishValue := by
  unfold Machine.finishValue
  rw [setTop_stack, List.tail_cons]
  rfl

theorem Sound.settleWord (h : m.Sound) (e : m.stack = f :: rest) {alts : List Text} {matched : Nat} (some_ : alts ≠ [])
    (short : ∀ a ∈ alts, matched ≤ (asBytes a).length)
    (settled : (m.setTop (.word alts matched)).settleWord = some m') : m'.Sound := by
  unfold Machine.settleWord at settled
  simp only [setTop_stack] at settled
  split at settled
  · rw [setTop_finishValue] at settled
    exact h.finishValue e settled
  · rename_i unfinished
    rw [← Option.some.inj settled]
    refine h.setTop e ⟨some_, fun a ha => Nat.lt_of_le_of_ne (short a ha) fun same => unfinished ?_⟩ id
    exact List.any_eq_true.mpr ⟨a, ha, by simp [same]⟩

theorem settleWord_other (m : Machine) {f : Frame} (other : ∀ alts matched, f ≠ .word alts matched) :
    (m.setTop f).settleWord = some (m.setTop f) := by
  unfold Machine.settleWord
  split
  · rename_i e
    obtain ⟨rfl, -⟩ := List.cons.inj (show f :: m.stack.tail = _ from e)
    exact absurd rfl (other _ _)
  · rfl

theorem anyNode_node (s : Schema) : Node? s.nodes (Machine.new s).anyNode := by
  unfold anyNode
  show Node? s.nodes (s.nodes.findIdx? _)
  cases found : s.nodes.findIdx? (fun n => n = .any) with
  | none =>
    refine .inr ⟨rfl, fun here => ?_⟩
    have := List.findIdx?_eq_none_iff.mp found _ here
    simp at this
  | some i =>
    obtain ⟨lt, is, -⟩ := List.findIdx?_eq_some_iff_getElem.mp found
    refine .inl ⟨i, .any, rfl, .any ?_⟩
    rw [List.getElem?_eq_getElem lt, of_decide_eq_true is]

theorem allowed_sound {nodes : List Node} {n : Node} (h : allowed n c = some f) :
    f.Sound nodes ∧ ¬f.Waiting ∨ ∃ word : Text, f = .word [word] 1 ∧ 1 ≤ (asBytes word).length := by
  unfold allowed at h
  split at h
  · rw [← Option.some.inj h]
    exact .inl ⟨Nat.zero_le 5, id⟩
  split at h
  · rw [← Option.some.inj h]
    exact .inl ⟨⟨Nat.zero_le 5, .inl rfl⟩, by simp [Frame.Waiting]⟩
  split at h
  · rw [← Option.some.inj h]
    exact .inl ⟨fun _ none_ => (by cases none_), by simp [Frame.Waiting]⟩
  split at h
  · rw [← Option.some.inj h]
    exact .inl ⟨fun none_ => (by cases none_), id⟩
  split at h
  · exact .inr ⟨_, (Option.some.inj h).symm, by decide⟩
  split at h
  · exact .inr ⟨_, (Option.some.inj h).symm, by decide⟩
  split at h
  · exact .inr ⟨_, (Option.some.inj h).symm, by decide⟩
  · cases h

theorem startFrame_sound {nodes : List Node} {k : Nat} {n : Node} {shape : Shape} (shown : Shows nodes k shape)
    (at_ : nodes[k]? = some n) (h : startFrame (some k) n c = some f) :
    f.Sound nodes ∧ ¬f.Waiting ∨ ∃ alts, f = .word alts 1 ∧ alts ≠ [] ∧ ∀ a ∈ alts, 1 ≤ (asBytes a).length := by
  have plain : allowed n c = some f →
      f.Sound nodes ∧ ¬f.Waiting ∨ ∃ alts, f = .word alts 1 ∧ alts ≠ [] ∧ ∀ a ∈ alts, 1 ≤ (asBytes a).length := by
    intro h
    rcases allowed_sound h with sound | ⟨word, rfl, long⟩
    · exact .inl sound
    · exact .inr ⟨_, rfl, by simp, by simpa using long⟩
  unfold startFrame at h
  cases n with
  | object children required additional =>
    simp only at h
    split at h
    · rw [← Option.some.inj h]
      obtain ⟨properties, rfl, -⟩ := shown.roots at_
      exact .inl ⟨⟨Nat.zero_le 5,
        .inr ⟨k, properties, required, additional, children, rfl, shown, at_, by simp, by simp⟩⟩, by simp [Frame.Waiting]⟩
    · exact plain h
  | array items =>
    simp only at h
    split at h
    · rw [← Option.some.inj h]
      obtain ⟨inner, -, shown⟩ := shown.roots at_
      exact .inl ⟨fun n same => ⟨inner, Option.some.inj same ▸ shown⟩, by simp [Frame.Waiting]⟩
    · exact plain h
  | choice options =>
    simp only at h
    split at h
    · cases h
    · rename_i some_
      refine .inr ⟨_, (Option.some.inj h).symm, by simpa using some_, fun a ha => ?_⟩
      obtain ⟨-, head⟩ := List.mem_filter.mp ha
      obtain ⟨l, rfl⟩ := List.head?_eq_some_iff.mp (of_decide_eq_true head)
      rw [← length_byteChars, byteChars_eq, List.flatMap_cons, List.length_append]
      have : latin c ≠ [] := by
        by_cases small : c.toNat < 0x80
        · rw [latin_ascii small]
          simp
        · exact (latin_wide (Nat.not_lt.mp small)).1
      have := List.length_pos_iff.mpr this
      omega
  | any | str | number | bool | null => exact plain h

theorem Sound.startValue (h : m.Sound) {id : Option Nat} (e : m.stack = .value id :: rest)
    (step : m.startValue id c = some m') : m'.Sound := by
  unfold Machine.startValue at step
  split at step
  · rw [← Option.some.inj step]
    exact h
  · obtain ⟨n, node, begun⟩ := Option.bind_eq_some_iff.mp step
    obtain ⟨f, frame, settled⟩ := Option.bind_eq_some_iff.mp begun
    obtain ⟨k, rfl, at_⟩ := node_eq node
    rcases h.top e with ⟨_, shape, same, shown⟩ | ⟨none_, -⟩
    · obtain rfl := Option.some.inj same
      rcases startFrame_sound shown at_ frame with ⟨sound, awake⟩ | ⟨alts, rfl, some_, long⟩
      · cases f with
        | word alts matched =>
          obtain ⟨some_, short⟩ := sound
          exact h.settleWord e some_ (fun a ha => Nat.le_of_lt (short a ha)) settled
        | _ =>
          rw [settleWord_other m (by simp)] at settled
          rw [← Option.some.inj settled]
          exact h.setTop e sound awake
      · exact h.settleWord e some_ long settled
    · cases none_

theorem Sound.inString (h : m.Sound) {escape len : Nat} (e : m.stack = .str escape len :: rest)
    (step : m.inString escape len c = some m') : m'.Sound := by
  have few : escape ≤ 5 := h.top e
  unfold Machine.inString at step
  split at step
  · cases step
  split at step
  · split at step
    · rw [← Option.some.inj step]
      exact h.setTop e (nextEscape_le few) id
    · cases step
  split at step
  · exact h.finishValue e step
  split at step
  · rw [← Option.some.inj step]
    exact h.setTop e (Nat.le_refl 5) id
  split at step
  · cases step
  · rw [← Option.some.inj step]
    exact h.setTop e (Nat.zero_le 5) id

theorem Sound.inNumber (h : m.Sound) {again : Machine → Char → Option Machine} {n : NumberFrame}
    (e : m.stack = .number n :: rest) (sound : ∀ m₁, m₁.Sound → again m₁ c = some m' → m'.Sound)
    (step : m.inNumber again n c = some m') : m'.Sound := by
  have digit : n.seenExp → n.seenDigit := h.top e
  unfold Machine.inNumber at step
  simp only at step
  split at step
  · cases step
  split at step
  · rw [← Option.some.inj step]
    refine h.setTop e ?_ id
    split
    · rename_i exp
      exact fun _ => digit exp
    · exact fun _ => rfl
  split at step
  · rename_i dot
    rw [← Option.some.inj step]
    exact h.setTop e (fun exp => absurd exp dot.2.2.2.1) id
  split at step
  · rename_i exp
    rw [← Option.some.inj step]
    exact h.setTop e (fun _ => exp.2.2.2) id
  split at step
  · rename_i sign
    rw [← Option.some.inj step]
    exact h.setTop e (fun _ => digit sign.2.1) id
  split at step
  · obtain ⟨m₁, finished, step⟩ := Option.bind_eq_some_iff.mp step
    exact sound m₁ (h.finishValue e finished) step
  · cases step

theorem Sound.inWord (h : m.Sound) {alts : List Text} {matched : Nat} (e : m.stack = .word alts matched :: rest)
    (step : m.inWord alts matched c = some m') : m'.Sound := by
  obtain ⟨-, short⟩ := h.top e
  unfold Machine.inWord at step
  simp only at step
  split at step
  · cases step
  · rename_i some_
    exact h.settleWord e (by simpa using some_) (fun a ha => short a (List.mem_filter.mp ha).1) step

theorem Sound.inArray (h : m.Sound) {again : Machine → Char → Option Machine} {a : ArrayFrame}
    (e : m.stack = .array a :: rest) (sound : ∀ m₁, m₁.Sound → again m₁ c = some m' → m'.Sound)
    (step : m.inArray again a c = some m') : m'.Sound := by
  have items : (Frame.array a).Sound m.schema.nodes := h.top e
  have element : ∀ id, (a.items <|> m.anyNode) = some id →
      ({ m with stack := .value (some id) :: .array { a with state := .value } :: m.stack.tail } : Machine).Sound := by
    intro id isNode
    have node : Node? m.schema.nodes (some id) := by
      cases hi : a.items with
      | none =>
        rw [hi] at isNode
        rw [← isNode]
        exact anyNode_node m.schema
      | some i =>
        rw [hi] at isNode
        obtain rfl := Option.some.inj isNode
        obtain ⟨shape, shown⟩ := items i hi
        exact .inl ⟨i, shape, rfl, shown⟩
    have placed := h.replace e (by simp : [Frame.value (some id), .array { a with state := .value }] ≠ []) (fun g hg => ?_)
      (by simp [Frame.Waiting]) fun g hg => ?_
    · rw [e]
      exact placed
    · rcases List.mem_pair.mp hg with rfl | rfl
      · exact node
      · exact items
    · rw [List.mem_singleton.mp hg]
      rfl
  unfold Machine.inArray at step
  split at step
  · split at step
    · rw [← Option.some.inj step]
      exact h
    split at step
    · exact h.finishValue e step
    split at step
    · cases step
    · rename_i id isNode
      exact sound _ (element id isNode) step
  · split at step
    · rw [← Option.some.inj step]
      exact h
    split at step
    · exact h.finishValue e step
    split at step
    · cases step
    · rename_i id isNode
      exact sound _ (element id isNode) step
  · cases step
  · split at step
    · rw [← Option.some.inj step]
      exact h
    split at step
    · rw [← Option.some.inj step]
      exact h.setTop e items (by simp [Frame.Waiting])
    split at step
    · exact h.finishValue e step
    · cases step

theorem Sound.checkKey (h : m.Sound) {o : ObjectFrame} (e : m.stack = .object o :: rest)
    (out : o.escape = 0) (step : m.checkKey { o with state := .colon } = some m') : m'.Sound := by
  have sound : o.Sound m.schema.nodes := h.top e
  rcases checkKey_cases step with ⟨free, rfl⟩ | ⟨n, children, required, additional, isNode, at_, closed⟩
  · exact h.setTop e ⟨sound.1, .inl free⟩ (by simp [Frame.Waiting])
  obtain ⟨few, node⟩ := sound
  obtain ⟨n', properties, required', additional', children', isNode', shown, at_', -⟩ :=
    node.resolve_left (by rw [show o.node = some n from isNode]; simp)
  obtain rfl := Option.some.inj (isNode.symm.trans isNode')
  obtain ⟨rfl, rfl, rfl⟩ := Node.object.inj (Option.some.inj (at_.symm.trans at_'))
  have none_ : 0 < o.escape → additional = true := by
    rw [out]
    intro some_
    cases some_
  rcases closed with ⟨i, found, -, rfl⟩ | ⟨-, free, rfl⟩
  · obtain ⟨lt, is, -⟩ := List.findIdx?_eq_some_iff_getElem.mp found
    exact h.setTop e ⟨few, .inr ⟨n, properties, required, additional, children, isNode, shown, at_, none_,
      fun _ => .inr ⟨_, List.getElem_mem lt, of_decide_eq_true is⟩⟩⟩ (by simp [Frame.Waiting])
  · exact h.setTop e ⟨few, .inr ⟨n, properties, required, additional, children, isNode, shown, at_, none_, fun _ => .inl free⟩⟩
      (by simp [Frame.Waiting])

theorem Sound.inKey (h : m.Sound) {o : ObjectFrame} (e : m.stack = .object o :: rest) (key : o.state = .key)
    (step : m.inKey o c = some m') : m'.Sound := by
  have sound : o.Sound m.schema.nodes := h.top e
  have notColon : o.state ≠ .colon := by
    rw [key]
    simp
  have awake : o.state ≠ .value := by
    rw [key]
    simp
  unfold Machine.inKey at step
  split at step
  · rename_i some_
    split at step
    · rw [← Option.some.inj step]
      exact h.setTop e (sound.change (nextEscape_le sound.1) (fun _ => some_) notColon _) awake
    · cases step
  rename_i none_
  split at step
  · exact h.checkKey e (by omega) step
  split at step
  · split at step
    · rename_i free
      rw [← Option.some.inj step]
      refine h.setTop e ⟨Nat.le_refl 5, sound.2.imp id ?_⟩ awake
      rintro ⟨n, properties, required, additional, children, isNode, shown, at_, -⟩
      refine ⟨n, properties, required, additional, children, isNode, shown, at_, fun _ => ?_, fun colon => absurd colon notColon⟩
      have node : m.node o.node = some (.object children required additional) := by
        rw [isNode]
        exact at_
      unfold keysAreFree at free
      rw [node, isNode] at free
      simpa using free
    · cases step
  split at step
  · cases step
  split at step
  · rw [← Option.some.inj step]
    exact h.setTop e (sound.change sound.1 id notColon _) awake
  · cases step

/-- A property's value is read for the property's node. -/
theorem valueNodeFor_node {o : ObjectFrame} {id : Option Nat} (sound : o.Sound m.schema.nodes)
    (node : m.valueNodeFor o.node o.key = some id) : Node? m.schema.nodes id := by
  unfold valueNodeFor at node
  split at node
  · rw [← Option.some.inj node]
    exact anyNode_node m.schema
  · rename_i some_
    obtain ⟨n, properties, required, additional, children, isNode, shown, at_, -⟩ := sound.2.resolve_left some_
    rw [show m.node o.node = some (.object children required additional) by rw [isNode]; exact at_] at node
    simp only at node
    split at node
    · rename_i p found
      rw [← Option.some.inj node]
      obtain ⟨-, i, lt, here, -⟩ := List.find?_eq_some_iff_getElem.mp found
      obtain ⟨_, same, names, shown, -⟩ := shown.roots at_
      obtain ⟨rfl, -, -⟩ := Shape.object.inj same
      have lengths := congrArg List.length names
      rw [List.length_map, List.length_map] at lengths
      have child : children[i]? = some (p.1, p.2) := by
        rw [List.getElem?_eq_getElem lt, here]
      have named : properties[i].1 = p.1 := by
        have := congrArg (fun l => l[i]?) names
        simp only [List.getElem?_map, child, Option.map_some] at this
        rw [List.getElem?_eq_getElem (lengths ▸ lt)] at this
        exact Option.some.inj this
      refine .inl ⟨p.2, properties[i].2, rfl, shown i p.1 p.2 _ child ?_⟩
      rw [← named]
      exact List.getElem?_eq_getElem _
    · split at node
      · rw [← Option.some.inj node]
        exact anyNode_node m.schema
      · cases node

theorem closeObject_finishes {id : Option Nat} {seen : List Nat} (h : m.closeObject id seen = some m') :
    m.finishValue = some m' := by
  unfold closeObject at h
  split at h
  · split at h
    · exact h
    · cases h
  · exact h

theorem Sound.inObject (h : m.Sound) {o : ObjectFrame} (e : m.stack = .object o :: rest)
    (step : m.inObject o c = some m') : m'.Sound := by
  have sound : o.Sound m.schema.nodes := h.top e
  unfold Machine.inObject at step
  split at step
  · split at step
    · rw [← Option.some.inj step]
      exact h
    split at step
    · exact h.finishValue e (closeObject_finishes step)
    split at step
    · cases step
    · rw [← Option.some.inj step]
      exact h.setTop e (sound.change (Nat.zero_le 5) (fun none_ => by cases none_) (by simp) _) (by simp [Frame.Waiting])
  · split at step
    · rw [← Option.some.inj step]
      exact h
    split at step
    · exact h.finishValue e (closeObject_finishes step)
    split at step
    · cases step
    · rw [← Option.some.inj step]
      exact h.setTop e (sound.change (Nat.zero_le 5) (fun none_ => by cases none_) (by simp) _) (by simp [Frame.Waiting])
  · rename_i key
    exact h.inKey e key step
  · split at step
    · rw [← Option.some.inj step]
      exact h
    split at step
    · cases step
    obtain ⟨id, node, pushed⟩ := Option.bind_eq_some_iff.mp step
    rw [← Option.some.inj pushed, e]
    refine h.replace e (by simp : [Frame.value id, .object { o with state := .value }] ≠ []) (fun g hg => ?_)
      (by simp [Frame.Waiting]) fun g hg => ?_
    · rcases List.mem_pair.mp hg with rfl | rfl
      · exact valueNodeFor_node sound node
      · exact sound.change sound.1 (fun some_ => some_) (by simp) _
    · rw [List.mem_singleton.mp hg]
      rfl
  · cases step
  · split at step
    · rw [← Option.some.inj step]
      exact h
    split at step
    · rw [← Option.some.inj step]
      exact h.setTop e (sound.change sound.1 id (by simp) _) (by simp [Frame.Waiting])
    split at step
    · exact h.finishValue e (closeObject_finishes step)
    · cases step

theorem Sound.congr (h : m.Sound) (done : m'.done = m.done) (stack : m'.stack = m.stack) (schema : m'.schema = m.schema) :
    m'.Sound := by
  refine ⟨?_, ?_, ?_, ?_⟩
  · rw [stack, schema]
    exact h.frames
  · rw [stack]
    exact h.awake
  · rw [stack]
    exact h.waiting
  · rw [stack, done]
    exact h.ended

theorem Sound.pushWith (h : m.Sound) {again : Machine → Char → Option Machine}
    (sound : ∀ m₁ m', Machine.Sound m₁ → again m₁ c = some m' → m'.Sound) (step : m.pushWith again c = some m') :
    m'.Sound := by
  obtain ⟨m₁, entered, step⟩ := Option.bind_eq_some_iff.mp step
  obtain ⟨done, stack, schema⟩ := enter_keeps entered
  have h₁ := h.congr done stack schema
  split at step
  · split at step
    · rw [← Option.some.inj step]
      exact h₁
    · cases step
  split at step
  · cases step
  · rename_i e
    exact h₁.startValue e step
  · rename_i e
    exact h₁.inString e step
  · rename_i e
    exact h₁.inNumber e (fun m₂ h₂ => sound m₂ m' h₂) step
  · rename_i e
    exact h₁.inWord e step
  · rename_i e
    exact h₁.inObject e step
  · rename_i e
    exact h₁.inArray e (fun m₂ h₂ => sound m₂ m' h₂) step

theorem Sound.pushChar (h : m.Sound) (step : m.pushChar c = some m') : m'.Sound :=
  h.pushWith (fun m₁ m₂ h₁ step₁ => h₁.pushWith (fun _ _ _ none_ => by cases none_) step₁) step

theorem Sound.push (h : m.Sound) {t : Text} (pushed : m.push t = some m') : m'.Sound := by
  induction t generalizing m with
  | nil =>
    rw [← Option.some.inj pushed]
    exact h
  | cons c t ih =>
    obtain ⟨m₁, step, rest⟩ := Option.bind_eq_some_iff.mp pushed
    exact ih (h.pushChar step) rest

/-- A machine at its start, and so in every state it reaches. -/
theorem new_sound {s : Schema} {shape : Shape} (root : Shows s.nodes 0 shape) : (new s).Sound :=
  ⟨fun f hf => by
    rw [List.mem_singleton.mp hf]
    exact .inl ⟨0, shape, rfl, root⟩, by simp [new, Frame.Waiting], by simp [new], by simp [new]⟩

section Started

theorem finishValue_started (h : m.finishValue = some m') : m'.started = m.started := by
  unfold finishValue at h
  split at h <;> cases h <;> rfl

theorem settleWord_started (h : m.settleWord = some m') : m'.started = m.started := by
  unfold settleWord at h
  split at h
  · split at h
    · exact finishValue_started h
    · cases h
      rfl
  · cases h
    rfl

theorem startValue_started {id : Option Nat} (h : m.startValue id c = some m') : m'.started = m.started := by
  unfold startValue at h
  split at h
  · cases h
    rfl
  · obtain ⟨n, -, h⟩ := Option.bind_eq_some_iff.mp h
    obtain ⟨f, -, h⟩ := Option.bind_eq_some_iff.mp h
    rw [settleWord_started h]
    rfl

theorem inString_started {escape len : Nat} (h : m.inString escape len c = some m') : m'.started = m.started := by
  grind [inString, finishValue_started, setTop]

theorem inWord_started {alts : List Text} {matched : Nat} (h : m.inWord alts matched c = some m') :
    m'.started = m.started := by
  unfold inWord at h
  simp only at h
  split at h
  · cases h
  · rw [settleWord_started h]
    rfl

theorem inKey_started {o : ObjectFrame} (h : m.inKey o c = some m') : m'.started = m.started := by
  have closed : ∀ {o' : ObjectFrame}, m.checkKey o' = some m' → m'.started = m.started := by
    intro o' h
    rcases checkKey_cases h with ⟨-, rfl⟩ | ⟨_, _, _, _, -, -, ⟨_, -, -, rfl⟩ | ⟨-, -, rfl⟩⟩ <;> rfl
  grind [inKey, setTop]

theorem inObject_started {o : ObjectFrame} (h : m.inObject o c = some m') : m'.started = m.started := by
  have closed : m.closeObject o.node o.seen = some m' → m'.started = m.started := by
    grind [closeObject, finishValue_started]
  cases state : o.state with
  | colon =>
    simp only [inObject, state] at h
    split at h
    · cases h
      rfl
    split at h
    · cases h
    · obtain ⟨id, -, h⟩ := Option.bind_eq_some_iff.mp h
      cases h
      rfl
  | key =>
    simp only [inObject, state] at h
    exact inKey_started h
  | _ => grind [inObject, setTop]

theorem inNumber_started {again : Machine → Char → Option Machine} {n : NumberFrame}
    (further : ∀ m₁, again m₁ c = some m' → m₁.started → m'.started) (started : m.started)
    (h : m.inNumber again n c = some m') : m'.started := by
  rcases inNumber_cases h with ⟨n', rfl, -⟩ | ⟨-, m₁, finished, h⟩
  · exact started
  · exact further m₁ h (by rw [finishValue_started finished, started])

theorem inArray_started {again : Machine → Char → Option Machine} {a : ArrayFrame}
    (further : ∀ m₁, again m₁ c = some m' → m₁.started → m'.started) (started : m.started)
    (h : m.inArray again a c = some m') : m'.started := by
  grind [inArray, finishValue_started, setTop]

theorem pushWith_started {again : Machine → Char → Option Machine}
    (further : ∀ m₁, again m₁ c = some m' → m₁.started → m'.started) (h : m.pushWith again c = some m') : m'.started := by
  obtain ⟨m₁, entered, h⟩ := Option.bind_eq_some_iff.mp h
  have started : m₁.started := by
    grind [enter]
  grind [startValue_started, inString_started, inWord_started, inObject_started, inNumber_started, inArray_started]

/-- A character read has started the document. -/
theorem pushChar_started (h : m.pushChar c = some m') : m'.started :=
  pushWith_started (fun _ h _ => pushWith_started (fun _ h _ => by cases h) h) h

end Started

end Machine

end Vapi.Structured
