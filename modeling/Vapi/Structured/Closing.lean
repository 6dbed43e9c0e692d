import Vapi.Structured.Finishing

/-!
# Closing what is open

From inside a string, a number, an object or an array the value is brought to
its end: what an object owes is paid, and an element that must follow filled in.
-/

namespace Vapi.Structured

open JsonGrammar (isWs)

namespace Machine

variable {s : Schema} {m m' : Machine} {P : Machine → Prop} {f : Frame} {rest : List Frame} {c : Char}

section Objects

variable {o : ObjectFrame} {n : Nat} {children : List (Text × Nat)} {required : List Nat} {additional : Bool}

/-- The property can be typed, and its value filled in. -/
def Payable (s : Schema) (children : List (Text × Nat)) (free : Bool) (r : Nat) : Prop :=
  ∃ name id, children.findIdx? (fun p => p.1 = name) = some r ∧ children[r]? = some (name, id) ∧
    writes free 0 name ∧ Fillable s id

theorem keyPossible_object (at_ : s.nodes[n]? = some (.object children required additional)) (seen : List Nat) (key : Text) :
    (new s).keyPossible (some n) seen key = (additional || propertyPossible children seen key) := by
  have node : (new s).node (some n) = some (.object children required additional) := at_
  simp only [keyPossible, node, reduceCtorEq, decide_false, Bool.false_or]

theorem keysAreFree_object (at_ : s.nodes[n]? = some (.object children required additional)) :
    (new s).keysAreFree (some n) = additional := by
  have node : (new s).node (some n) = some (.object children required additional) := at_
  simp only [keysAreFree, node, reduceCtorEq, decide_false, Bool.false_or]

/-- A key that goes on to a declared name is finished, and its value filled in. -/
theorem declared_gets (h : m.Sound) (schema : m.schema = s) (e : m.stack = .object o :: rest) (key : o.state = .key)
    (isNode : o.node = some n) (at_ : s.nodes[n]? = some (.object children required additional)) {i id : Nat} {t : Text}
    (written : writes additional o.escape t) (found : children.findIdx? (fun p => p.1 = o.key ++ t) = some i)
    (child : children[i]? = some (o.key ++ t, id)) (unseen : i ∉ o.seen) (value : Fillable s id) :
    Gets s m (Past ·
      (.object { o with state := .value, key := o.key ++ t, escape := 0, seen := o.seen ++ [i] } :: rest)) := by
  refine (key_gets t h schema e key ?_ fun u begins => ?_).trans fun m₁ sound schema e₁ => ?_
  · rw [isNode, keysAreFree_object at_]
    exact written
  · rw [isNode, keyPossible_object at_, Bool.or_eq_true]
    exact .inr (propertyPossible_of child unseen ((List.prefix_append_right_inj _).mpr begins))
  · exact declared_value sound schema e₁ key rfl isNode at_ found child unseen value

/-- Where a member may begin, a property that is owed is paid. -/
theorem member_gets (h : m.Sound) (schema : m.schema = s) (e : m.stack = .object o :: rest)
    (state : o.state = .start ∨ o.state = .keyExpected) (isNode : o.node = some n)
    (at_ : s.nodes[n]? = some (.object children required additional)) {r : Nat} (unseen : r ∉ o.seen)
    (payable : Payable s children additional r) :
    ∃ key, Gets s m (Past · (.object { o with state := .value, key, escape := 0, seen := o.seen ++ [r] } :: rest)) := by
  obtain ⟨name, id, found, child, written, value⟩ := payable
  refine ⟨name, opens h schema e state ?_ fun m₁ sound schema e₁ => ?_⟩
  · rw [isNode, keyPossible_object at_, Bool.or_eq_true]
    exact .inr (propertyPossible_of child unseen List.nil_prefix)
  · exact declared_gets (o := { o with state := .key, key := [], escape := 0 }) sound schema e₁ rfl isNode at_ written found
      child unseen value

/-- All that an object of a node requires has been seen. -/
def Paid (s : Schema) (o : ObjectFrame) : Prop :=
  ∀ n children required additional, o.node = some n → s.nodes[n]? = some (.object children required additional) →
    ∀ r ∈ required, r ∈ o.seen

theorem closeObject_paid (schema : m.schema = s) (paid : Paid s o) : m.closeObject o.node o.seen = m.finishValue := by
  unfold closeObject
  split
  · rename_i children required additional node
    obtain ⟨n, isNode, at_⟩ := node_eq node
    rw [schema] at at_
    rw [if_pos]
    simpa using paid n children required additional isNode at_
  · rfl

theorem closes_of_past (h : m.Sound) (schema : m.schema = s) (past : m.Past (.object o :: rest)) (paid : Paid s o) :
    Gets s m (Ended · rest) := by
  obtain ⟨m₁, again, sound, schema₁, ⟨e, -⟩, read⟩ := past_settles (c := '}') h schema past rfl rfl
  rw [pushWith_top _ sound e (.inl rfl)] at read
  have closed : m.pushChar '}' = m₁.entered.closeObject o.node o.seen := read
  rw [closeObject_paid (m := m₁.entered) schema₁ paid] at closed
  obtain ⟨m₂, finished, sound₂, schema₂, ended, viable⟩ := finishes_ended sound.entered e
  exact .step (closed.trans finished) viable (.here sound₂ (schema₂.trans schema₁) ended)

/-- After a member another may follow. -/
theorem comma (h : m.Sound) (schema : m.schema = s) (past : m.Past (.object o :: rest)) (isNode : o.node = some n)
    (at_ : s.nodes[n]? = some (.object children required additional)) (more : morePossible children additional o.seen)
    (further : ∀ m', m'.Sound → m'.schema = s → m'.stack = .object { o with state := .keyExpected } :: rest →
      Gets s m' P) : Gets s m P := by
  obtain ⟨m₁, again, sound, rfl, ⟨e, -⟩, read⟩ := past_settles (c := ',') h schema past rfl rfl
  rw [pushWith_top _ sound e (.inl rfl)] at read
  have step : m.pushChar ',' = some (m₁.entered.setTop (.object { o with state := .keyExpected })) := read
  have sound₂ := h.pushChar step
  have e₂ := entered_stack e (.object { o with state := .keyExpected })
  refine .step step (viable_of_top sound₂ e₂ ?_) (further _ sound₂ rfl e₂)
  exact (frameViable_object (m := m₁) (o := { o with state := .keyExpected }) isNode at_).trans more

theorem more_of_unseen {r : Nat} (payable : Payable s children additional r) {seen : List Nat} (unseen : r ∉ seen) :
    morePossible children additional seen := by
  obtain ⟨name, id, -, child, -⟩ := payable
  obtain ⟨lt, -⟩ := List.getElem?_eq_some_iff.mp child
  refine Bool.or_eq_true_iff.mpr (.inr (List.any_eq_true.mpr ⟨r, List.mem_range.mpr lt, ?_⟩))
  simpa using unseen

/-- An object is finished once each property on the list is paid. -/
theorem pays (isNode : o.node = some n) (at_ : s.nodes[n]? = some (.object children required additional))
    (missing : List Nat) :
    ∀ {m : Machine} {key : Text} {state : ObjState} {escape : Nat} {seen : List Nat}, m.Sound → m.schema = s →
      m.Past (.object { o with state, key, escape, seen } :: rest) → (∀ r ∈ required, r ∈ seen ∨ r ∈ missing) →
      (∀ r ∈ missing, r ∈ seen ∨ Payable s children additional r) → Gets s m (Ended · rest) := by
  induction missing with
  | nil =>
    intro m key state escape seen h schema past all _
    refine closes_of_past h schema past fun n' children' required' additional' isNode' at_' r hr => ?_
    obtain rfl := Option.some.inj (isNode.symm.trans isNode')
    obtain ⟨rfl, rfl, rfl⟩ := Node.object.inj (Option.some.inj (at_.symm.trans at_'))
    exact (all r hr).resolve_right List.not_mem_nil
  | cons r missing ih =>
    intro m key state escape seen h schema past all payable
    by_cases here : r ∈ seen
    · refine ih h schema past (fun x hx => ?_) fun x hx => payable x (List.mem_cons_of_mem r hx)
      rcases all x hx with seen | listed
      · exact .inl seen
      · rcases List.mem_cons.mp listed with rfl | listed
        · exact .inl here
        · exact .inr listed
    · have pay := (payable r (List.mem_cons_self ..)).resolve_left here
      refine comma h schema past isNode at_ (more_of_unseen pay here) fun m₁ sound₁ schema₁ e₁ => ?_
      obtain ⟨key', gets⟩ := member_gets sound₁ schema₁ e₁ (.inr rfl) isNode at_ here pay
      refine gets.trans fun m₂ sound₂ schema₂ past₂ => ih sound₂ schema₂ past₂ (fun x hx => ?_) fun x hx => ?_
      · rcases all x hx with seen | listed
        · exact .inl (List.mem_append_left _ seen)
        · rcases List.mem_cons.mp listed with rfl | listed
          · exact .inl (by simp)
          · exact .inr listed
      · exact (payable x (List.mem_cons_of_mem r hx)).imp (List.mem_append_left _) id

/-- What an object has not seen of what it requires can be paid. -/
def Solvent (s : Schema) (o : ObjectFrame) : Prop :=
  ∀ n children required additional, o.node = some n → s.nodes[n]? = some (.object children required additional) →
    ∀ r ∈ required, r ∈ o.seen ∨ Payable s children additional r

theorem object_past (h : m.Sound) (schema : m.schema = s) (past : m.Past (.object o :: rest)) (solvent : Solvent s o) :
    Gets s m (Ended · rest) := by
  by_cases paid : Paid s o
  · exact closes_of_past h schema past paid
  · unfold Paid at paid
    push Not at paid
    obtain ⟨n, children, required, additional, isNode, at_, -⟩ := paid
    exact pays (o := o) isNode at_ required h schema past (fun r hr => .inr hr) (solvent n children required additional isNode at_)

theorem object_start (h : m.Sound) (schema : m.schema = s) (e : m.stack = .object o :: rest) (state : o.state = .start)
    (solvent : Solvent s o) : Gets s m (Ended · rest) := by
  by_cases paid : Paid s o
  · have closed : m.pushChar '}' = m.entered.closeObject o.node o.seen := by
      rw [pushChar_top h e (.inl rfl)]
      simp only [inObject, state]
      rfl
    rw [closeObject_paid (m := m.entered) schema paid] at closed
    obtain ⟨m₁, finished, sound, schema₁, ended, viable⟩ := finishes_ended h.entered (show m.entered.stack = _ from e)
    exact .step (closed.trans finished) viable (.here sound (schema₁.trans schema) ended)
  · unfold Paid at paid
    push Not at paid
    obtain ⟨n, children, required, additional, isNode, at_, r, hr, unseen⟩ := paid
    have payable := solvent n children required additional isNode at_
    obtain ⟨key, gets⟩ := member_gets h schema e (.inl state) isNode at_ unseen ((payable r hr).resolve_left unseen)
    refine gets.trans fun m₁ sound schema past => object_past sound schema past fun n' children' required' additional' => ?_
    intro isNode' at_' x hx
    exact (solvent n' children' required' additional' isNode' at_' x hx).imp (List.mem_append_left _) id

end Objects

section Values

/-- A string is ended, after the escape it is in. -/
theorem string_gets {escape : Nat} :
    ∀ {m : Machine} {len : Nat}, m.Sound → m.schema = s → m.stack = .str escape len :: rest →
      escape = 0 ∨ escape = 5 ∨ len + escape ≤ maxStringChars → Gets s m (Ended · rest) := by
  have body : ∀ {m : Machine} {escape len : Nat}, m.stack = .str escape len :: rest → m.inStringBody = true := by
    intro m escape len e
    unfold inStringBody
    rw [e]
  have quote : ∀ {m : Machine} {len : Nat}, m.Sound → m.schema = s → m.stack = .str 0 len :: rest →
      Gets s m (Ended · rest) := by
    intro m len h schema e
    have closed : m.pushChar '"' = m.entered.finishValue := by
      rw [pushChar_top h e (.inr (body e))]
      simp [inString]
    obtain ⟨m₁, finished, sound, schema₁, ended, viable⟩ := finishes_ended h.entered (show m.entered.stack = _ from e)
    exact .step (closed.trans finished) viable (.here sound (schema₁.trans schema) ended)
  induction escape with
  | zero => exact fun h schema e _ => quote h schema e
  | succ escape ih =>
    intro m len h schema e fits
    have few : escape + 1 ≤ 5 := h.top e
    by_cases first : escape + 1 = 5
    · obtain rfl : escape = 4 := by omega
      have step : m.pushChar '"' = some (m.entered.setTop (.str 0 (len + 1))) := by
        rw [pushChar_top h e (.inr (body e))]
        simp [inString, escapeOk, nextEscape]
      have sound := h.pushChar step
      have e₁ := entered_stack e (.str 0 (len + 1))
      exact .step step (viable_of_top sound e₁ rfl) (quote sound schema e₁)
    · have room : len + (escape + 1) ≤ maxStringChars := by omega
      have step : m.pushChar '0' = some (m.entered.setTop (.str escape (len + 1))) := by
        rw [pushChar_top h e (.inr (body e))]
        simp only [inString]
        rw [if_neg (by omega), if_pos (Nat.succ_pos _), if_pos (by rw [escapeOk, if_neg first]; rfl), nextEscape, if_neg first]
        rfl
      have sound := h.pushChar step
      have e₁ := entered_stack e (.str escape (len + 1))
      exact .step step (viable_of_top sound e₁ rfl) (ih sound schema e₁ (.inr (.inr (by omega))))

/-- A number with room for a digit becomes complete with it. -/
theorem number_gets {n : NumberFrame} (h : m.Sound) (schema : m.schema = s) (e : m.stack = .number n :: rest)
    (fits : n.complete ∨ n.len < maxNumberChars) : Gets s m (Past · rest) := by
  by_cases complete : n.complete
  · exact .here h schema (.inr ⟨n, e, complete⟩)
  · have room := fits.resolve_left complete
    have digit : n.seenExp → n.seenDigit := h.top e
    obtain ⟨n', step, complete'⟩ : ∃ n' : NumberFrame, m.pushChar '0' = some (m.entered.setTop (.number n')) ∧
        n'.complete := by
      rw [pushChar_top h e (.inl rfl)]
      simp only [inNumber]
      rw [if_neg (by omega), if_pos (by rfl)]
      refine ⟨_, rfl, ?_⟩
      unfold NumberFrame.complete
      by_cases exp : n.seenExp
      · simp [exp, digit exp]
      · simp [exp]
    have sound := h.pushChar step
    have e₁ := entered_stack e (.number n')
    exact .step step (viable_of_top sound e₁ rfl) (.here sound schema (.inr ⟨n', e₁, complete'⟩))

theorem array_past {a : ArrayFrame} (h : m.Sound) (schema : m.schema = s) (past : m.Past (.array a :: rest)) :
    Gets s m (Ended · rest) := by
  obtain ⟨m₁, again, sound, schema₁, ⟨e, -⟩, read⟩ := past_settles (c := ']') h schema past rfl rfl
  rw [pushWith_top _ sound e (.inl rfl)] at read
  have closed : m.pushChar ']' = m₁.entered.finishValue := read
  obtain ⟨m₂, finished, sound₂, schema₂, ended, viable⟩ := finishes_ended sound.entered e
  exact .step (closed.trans finished) viable (.here sound₂ (schema₂.trans schema₁) ended)

theorem array_start {a : ArrayFrame} (h : m.Sound) (schema : m.schema = s) (e : m.stack = .array a :: rest)
    (state : a.state = .start) : Gets s m (Ended · rest) := by
  have closed : m.pushChar ']' = m.entered.finishValue := by
    rw [pushChar_top h e (.inl rfl)]
    simp only [inArray, state]
    rfl
  obtain ⟨m₁, finished, sound, schema₁, ended, viable⟩ := finishes_ended h.entered (show m.entered.stack = _ from e)
  exact .step (closed.trans finished) viable (.here sound (schema₁.trans schema) ended)

/-- An element that must follow is filled in. -/
theorem item_gets {a : ArrayFrame} {id : Nat} (h : m.Sound) (schema : m.schema = s) (e : m.stack = .array a :: rest)
    (state : a.state = .valueExpected) (isNode : (a.items <|> (new s).anyNode) = some id) (value : Fillable s id) :
    Gets s m (Past · (.array { a with state := .value } :: rest)) := by
  have items : (Frame.array a).Sound m.schema.nodes := h.top e
  have node : Node? m.schema.nodes (some id) := by
    cases hi : a.items with
    | none =>
      rw [hi] at isNode
      rw [schema, ← isNode]
      exact anyNode_node s
    | some i =>
      rw [hi] at isNode
      obtain rfl := Option.some.inj isNode
      obtain ⟨shape, shown⟩ := items i hi
      exact .inl ⟨i, shape, rfl, shown⟩
  have placed := h.entered.replace (show m.entered.stack = _ from e)
    (by simp : [Frame.value (some id), .array { a with state := .value }] ≠ []) (fun g hg => ?_) (by simp [Frame.Waiting])
    fun g hg => ?_
  · obtain ⟨c, m₁, noWs, step, viable, further⟩ := value placed schema rfl
    refine Gets.step (c := c) ?_ viable further
    rw [pushChar_top h e (.inl noWs)]
    have isNode' : (a.items <|> m.entered.anyNode) = some id := by
      rw [← isNode, ← schema]
      rfl
    simp only [inArray, state, noWs, Bool.false_eq_true, if_false, reduceCtorEq, and_false, isNode']
    rw [show m.entered.stack.tail = rest by rw [show m.entered.stack = _ from e]; rfl, ← step,
      pushChar_top placed rfl (.inl noWs)]
    exact pushWith_top _ placed rfl (.inl noWs)
  · rcases List.mem_pair.mp hg with rfl | rfl
    · exact node
    · exact items
  · rw [List.mem_singleton.mp hg]
    rfl

end Values

end Machine

end Vapi.Structured
