import Vapi.Structured.Finishing

/-!
# The fed and the emitted text

A constraint is fed the text of each token on its own, and the client gets the
text of all tokens together. Where a character is cut by a token's end the one
has replacements and the other the character. Two machines fed with the two are
alike: they differ in how long a string is, and in the text of keys.
-/

namespace Vapi.Structured

open JsonGrammar (isWs)

/-- Which is to hold of the key fed and the key emitted so far, `k`. -/
def KeysAlike (s : Schema) (k : Text) (o o' : ObjectFrame) : Prop :=
  (o.state = .key → o'.key = k ∧
      ∀ n children required, o.node = some n → s.nodes[n]? = some (.object children required false) → o.key = k) ∧
    (o.state = .colon → (Machine.new s).valueNodeFor o.node o.key = (Machine.new s).valueNodeFor o.node o'.key)

/-- The innermost frame, fed and emitted. -/
def Frame.Alike (s : Schema) (k : Text) : Frame → Frame → Prop
  | .str escape len, .str escape' len' => escape = escape' ∧ len' ≤ len
  | .object o, .object o' => o' = { o with key := o'.key } ∧ KeysAlike s k o o'
  | f, f' => f = f'

/-- A container waiting for its value, fed and emitted. -/
def Frame.Below : Frame → Frame → Prop
  | .object o, .object o' => o.state = .value ∧ o' = { o with key := o'.key }
  | .array a, .array a' => a = a'
  | _, _ => False

inductive StackAlike (s : Schema) (k : Text) : List Frame → List Frame → Prop
  | nil : StackAlike s k [] []
  | cons {f f' : Frame} {rest rest' : List Frame} : f.Alike s k f' → List.Forall₂ Frame.Below rest rest' →
      StackAlike s k (f :: rest) (f' :: rest')

namespace Machine

/-- The machine fed and the machine emitted to, in the middle of the key `k` if in any. -/
def Matches (k : Text) (m n : Machine) : Prop :=
  ∃ stack, n = { m with stack } ∧ StackAlike m.schema k m.stack stack

variable {k k' : Text} {m m' n : Machine} {f f' : Frame} {rest rest' : List Frame} {c : Char} {o o' : ObjectFrame}

theorem new_matches (s : Schema) : Matches [] (new s) (new s) := ⟨_, rfl, .cons rfl .nil⟩

theorem Matches.cases (h : Matches k m n) (e : m.stack = f :: rest) :
    ∃ f' rest', n = { m with stack := f' :: rest' } ∧ f.Alike m.schema k f' ∧ List.Forall₂ Frame.Below rest rest' := by
  obtain ⟨stack, rfl, alike⟩ := h
  rw [e] at alike
  cases alike with
  | cons top below => exact ⟨_, _, rfl, top, below⟩

theorem matches_setTop (below : List.Forall₂ Frame.Below rest rest') (e : m.stack = f :: rest) {g g' : Frame}
    (top : g.Alike m.schema k g') : Matches k (m.setTop g) (({ m with stack := f' :: rest' } : Machine).setTop g') := by
  refine ⟨g' :: rest', rfl, ?_⟩
  rw [setTop_stack, e]
  exact .cons top below

theorem alike_same (s : Schema) (k : Text) (outside : ∀ o, f = .object o → o.state ≠ .key) : f.Alike s k f := by
  cases f with
  | str => exact ⟨rfl, Nat.le_refl _⟩
  | object o => exact ⟨rfl, fun state => absurd state (outside o rfl), fun _ => rfl⟩
  | _ => rfl

/-- The same object, outside a key. -/
theorem alike_object (s : Schema) (k : Text) (outside : o.state ≠ .key) (open_ : o.state ≠ .colon) (key : Text) :
    (Frame.object o).Alike s k (.object { o with key }) :=
  ⟨rfl, fun state => absurd state outside, fun state => absurd state open_⟩

/-- After a value the machine is not in a string. -/
theorem finishValue_outside (finished : m.finishValue = some m') : m'.inStringBody = false := by
  unfold finishValue at finished
  split at finished <;> cases finished <;> rfl

theorem finishValue_ended (open_ : m.done = false) (finished : m.finishValue = some m') : m'.done = true → m'.stack = [] := by
  unfold finishValue at finished
  split at finished <;> cases finished
  · exact fun _ => rfl
  all_goals
    intro done
    rw [show m.done = true from done] at open_
    cases open_

/-- A finished value leaves the containers under it alike. -/
theorem finishValue_matches (below : List.Forall₂ Frame.Below rest rest') (e : m.stack = f :: rest)
    (finished : m.finishValue = some m') (f' : Frame) (k' : Text) :
    ∃ n', ({ m with stack := f' :: rest' } : Machine).finishValue = some n' ∧ Matches k' m' n' := by
  unfold finishValue at finished ⊢
  rw [e] at finished
  simp only [List.tail_cons] at finished ⊢
  cases below with
  | nil =>
    cases finished
    exact ⟨_, rfl, _, rfl, .nil⟩
  | @cons g g' _ _ here below =>
    cases g <;> cases g' <;> try exact here.elim
    · obtain ⟨-, same⟩ := here
      cases finished
      rw [same]
      exact ⟨_, rfl, _, rfl, .cons (alike_object _ _ (by simp) (by simp) _) below⟩
    · cases show _ = _ from here
      cases finished
      exact ⟨_, rfl, _, rfl, .cons rfl below⟩

theorem settleWord_matches (below : List.Forall₂ Frame.Below rest rest') (e : m.stack = f :: rest) {g : Frame}
    (outside : ∀ o, g = .object o → o.state ≠ .key) (settled : (m.setTop g).settleWord = some m') (k' : Text) :
    ∃ n', (({ m with stack := f' :: rest' } : Machine).setTop g).settleWord = some n' ∧ Matches k' m' n' := by
  have placed : (m.setTop g).stack = g :: rest := by
    rw [setTop_stack, e]
    rfl
  unfold settleWord at settled ⊢
  rw [setTop_stack] at settled ⊢
  cases g with
  | word alts matched =>
    simp only at settled ⊢
    split
    · rename_i whole
      rw [if_pos whole] at settled
      exact finishValue_matches below placed settled (.word alts matched) k'
    · rename_i part
      rw [if_neg part] at settled
      cases settled
      exact ⟨_, rfl, matches_setTop below e rfl⟩
  | _ =>
    cases settled
    exact ⟨_, rfl, matches_setTop below e (alike_same _ _ outside)⟩

theorem startFrame_outside {id : Option Nat} {n : Node} (h : startFrame id n c = some (.object o)) : o.state = .start := by
  have plain : allowed n c = some (.object o) → o.state = .start := by
    intro h
    unfold allowed at h
    repeat' split at h
    all_goals cases h
    rfl
  unfold startFrame at h
  split at h
  · split at h
    · cases h
      rfl
    · exact plain h
  · split at h
    · cases h
    · exact plain h
  · simp only at h
    split at h <;> cases h
  · exact plain h

theorem startValue_matches {id : Option Nat} (below : List.Forall₂ Frame.Below rest rest') (e : m.stack = .value id :: rest)
    (step : m.startValue id c = some m') (k' : Text) :
    ∃ n', ({ m with stack := .value id :: rest' } : Machine).startValue id c = some n' ∧ Matches k' m' n' := by
  unfold startValue at step ⊢
  split
  · rename_i ws
    rw [if_pos ws] at step
    cases step
    refine ⟨_, rfl, _, rfl, ?_⟩
    rw [e]
    exact .cons rfl below
  · rename_i noWs
    rw [if_neg noWs] at step
    obtain ⟨nd, node, step⟩ := Option.bind_eq_some_iff.mp step
    obtain ⟨g, frame, settled⟩ := Option.bind_eq_some_iff.mp step
    have node' : ({ m with stack := .value id :: rest' } : Machine).node id = some nd := node
    simp only [node', Option.bind_eq_bind, Option.bind_some, frame]
    exact settleWord_matches below e (fun o same => by
      rw [startFrame_outside (same ▸ frame)]
      simp) settled k'

theorem inString_matches {escape len len' : Nat} (below : List.Forall₂ Frame.Below rest rest')
    (e : m.stack = .str escape len :: rest) (shorter : len' ≤ len) (step : m.inString escape len c = some m') (k' : Text) :
    ∃ n', ({ m with stack := .str escape len' :: rest' } : Machine).inString escape len' c = some n' ∧ Matches k' m' n' := by
  have placed : ∀ escape', ∃ n', some (({ m with stack := .str escape len' :: rest' } : Machine).setTop (.str escape' (len' + 1))) =
      some n' ∧ Matches k' (m.setTop (.str escape' (len + 1))) n' :=
    fun escape' => ⟨_, rfl, matches_setTop below e ⟨rfl, Nat.succ_le_succ shorter⟩⟩
  unfold inString at step ⊢
  split at step
  · cases step
  rename_i room
  rw [if_neg (fun full => room ⟨Nat.le_trans full.1 shorter, full.2⟩)]
  split
  · rename_i within
    rw [if_pos within] at step
    split
    · rename_i ok
      rw [if_pos ok] at step
      cases step
      exact placed _
    · rename_i bad
      rw [if_neg bad] at step
      cases step
  rename_i out
  rw [if_neg out] at step
  split
  · rename_i quote
    rw [if_pos quote] at step
    exact finishValue_matches below e step _ k'
  rename_i noQuote
  rw [if_neg noQuote] at step
  split
  · rename_i backslash
    rw [if_pos backslash] at step
    cases step
    exact placed _
  rename_i noBackslash
  rw [if_neg noBackslash] at step
  split
  · rename_i control
    rw [if_pos control] at step
    cases step
  · rename_i printable
    rw [if_neg printable] at step
    cases step
    exact placed _

theorem inWord_matches {alts : List Text} {matched : Nat} (below : List.Forall₂ Frame.Below rest rest')
    (e : m.stack = .word alts matched :: rest) (step : m.inWord alts matched c = some m') (k' : Text) :
    ∃ n', ({ m with stack := .word alts matched :: rest' } : Machine).inWord alts matched c = some n' ∧ Matches k' m' n' := by
  unfold inWord at step ⊢
  simp only at step ⊢
  split
  · rename_i none_
    rw [if_pos none_] at step
    cases step
  · rename_i some_
    rw [if_neg some_] at step
    exact settleWord_matches below e (by simp) step k'

theorem inNumber_matches {again : Machine → Char → Option Machine} {fr : NumberFrame}
    (below : List.Forall₂ Frame.Below rest rest') (open_ : m.done = false) (e : m.stack = .number fr :: rest)
    (further : ∀ m₁ n₁, (m₁.done = true → m₁.stack = []) → Matches k' m₁ n₁ → m₁.inStringBody = false → again m₁ c = some m' →
      ∃ n', again n₁ c = some n' ∧ Matches k' m' n') (step : m.inNumber again fr c = some m') :
    ∃ n', ({ m with stack := .number fr :: rest' } : Machine).inNumber again fr c = some n' ∧ Matches k' m' n' := by
  have placed : ∀ fr', ∃ n', some (({ m with stack := .number fr :: rest' } : Machine).setTop (.number fr')) = some n' ∧
      Matches k' (m.setTop (.number fr')) n' :=
    fun fr' => ⟨_, rfl, matches_setTop below e rfl⟩
  have ends : m.finishValue.bind (fun m => again m c) = some m' →
      ∃ n', ({ m with stack := .number fr :: rest' } : Machine).finishValue.bind (fun m => again m c) = some n' ∧
        Matches k' m' n' := by
    intro step
    obtain ⟨m₁, finished, step⟩ := Option.bind_eq_some_iff.mp step
    obtain ⟨n₁, finished', same⟩ := finishValue_matches below e finished (.number fr) k'
    rw [finished', Option.bind_some]
    exact further m₁ n₁ (finishValue_ended open_ finished) same (finishValue_outside finished) step
  unfold inNumber at step ⊢
  simp only at step ⊢
  by_cases full : maxNumberChars ≤ fr.len ∧ (c.isDigit ∨ c ∈ ['.', 'e', 'E', '+', '-'])
  · rw [if_pos full] at step
    cases step
  rw [if_neg full] at step ⊢
  by_cases digit : c.isDigit
  · rw [if_pos digit] at step ⊢
    cases step
    exact placed _
  rw [if_neg digit] at step ⊢
  by_cases dot : c = '.' ∧ ¬fr.integer ∧ ¬fr.seenDot ∧ ¬fr.seenExp ∧ fr.seenDigit
  · rw [if_pos dot] at step ⊢
    cases step
    exact placed _
  rw [if_neg dot] at step ⊢
  by_cases exp : (c = 'e' ∨ c = 'E') ∧ ¬fr.integer ∧ ¬fr.seenExp ∧ fr.seenDigit
  · rw [if_pos exp] at step ⊢
    cases step
    exact placed _
  rw [if_neg exp] at step ⊢
  by_cases sign : (c = '+' ∨ c = '-') ∧ fr.seenExp ∧ ¬fr.expDigit ∧ ¬fr.afterSign
  · rw [if_pos sign] at step ⊢
    cases step
    exact placed _
  rw [if_neg sign] at step ⊢
  by_cases complete : fr.complete
  · rw [if_pos complete] at step ⊢
    exact ends step
  · rw [if_neg complete] at step
    cases step

theorem closeObject_matches {id : Option Nat} {seen : List Nat} (below : List.Forall₂ Frame.Below rest rest')
    (e : m.stack = f :: rest) (step : m.closeObject id seen = some m') (k' : Text) :
    ∃ n', ({ m with stack := f' :: rest' } : Machine).closeObject id seen = some n' ∧ Matches k' m' n' := by
  have node : ({ m with stack := f' :: rest' } : Machine).node id = m.node id := rfl
  unfold closeObject at step ⊢
  rw [node]
  generalize m.node id = nd at step ⊢
  cases nd with
  | none => exact finishValue_matches below e step _ k'
  | some nd =>
    cases nd with
    | object children required additional =>
      simp only at step ⊢
      split
      · rename_i paid
        rw [if_pos paid] at step
        exact finishValue_matches below e step _ k'
      · rename_i owed
        rw [if_neg owed] at step
        cases step
    | _ => exact finishValue_matches below e step _ k'

/-- Keys that name the same property have values read for the same node. -/
theorem valueNodeFor_congr {key key' : Text}
    (named : ∀ n children required additional, o.node = some n → m.schema.nodes[n]? = some (.object children required additional) →
      children.findIdx? (fun p => p.1 = key) = children.findIdx? (fun p => p.1 = key')) :
    (new m.schema).valueNodeFor o.node key = (new m.schema).valueNodeFor o.node key' := by
  unfold valueNodeFor
  split
  · rfl
  · split
    · rename_i children required additional node
      obtain ⟨n, isNode, at_⟩ := node_eq node
      rw [List.find?_eq_bind_findIdx?_getElem?, List.find?_eq_bind_findIdx?_getElem?,
        named n children required additional isNode at_]
    · rfl

theorem checkKey_matches (below : List.Forall₂ Frame.Below rest rest') (e : m.stack = f :: rest) (key' : Text)
    (state : o.state = .colon)
    (named : ∀ n children required additional, o.node = some n → m.schema.nodes[n]? = some (.object children required additional) →
      children.findIdx? (fun p => p.1 = o.key) = children.findIdx? (fun p => p.1 = key'))
    (step : m.checkKey o = some m') (k' : Text) :
    ∃ n', ({ m with stack := f' :: rest' } : Machine).checkKey { o with key := key' } = some n' ∧ Matches k' m' n' := by
  have placed : ∀ seen, ∃ n', some (({ m with stack := f' :: rest' } : Machine).setTop (.object { o with seen, key := key' })) =
      some n' ∧ Matches k' (m.setTop (.object { o with seen })) n' := by
    refine fun seen => ⟨_, rfl, matches_setTop below e ⟨rfl, fun inKey => ?_, fun _ => valueNodeFor_congr named⟩⟩
    rw [show o.state = .key from inKey] at state
    cases state
  have node : ∀ id, ({ m with stack := f' :: rest' } : Machine).node id = m.node id := fun _ => rfl
  rcases checkKey_cases step with ⟨free, rfl⟩ | ⟨n, children, required, additional, isNode, at_, ⟨i, found, unseen, rfl⟩ |
    ⟨unfound, more, rfl⟩⟩
  · unfold checkKey
    rw [if_pos (by exact free)]
    exact placed o.seen
  · have isObject : m.node (some n) = some (.object children required additional) := at_
    have found' : children.findIdx? (fun p => p.1 = key') = some i := by
      rw [← named n children required additional isNode at_, found]
    unfold checkKey
    rw [if_neg (by simp [isNode])]
    simp only [node, isNode, isObject, found', if_neg unseen]
    rw [← isNode]
    exact placed _
  · have isObject : m.node (some n) = some (.object children required additional) := at_
    have unfound' : children.findIdx? (fun p => p.1 = key') = none := by
      rw [← named n children required additional isNode at_, unfound]
    unfold checkKey
    rw [if_neg (by simp [isNode])]
    simp only [node, isNode, isObject, unfound', more, if_true]
    rw [← isNode]
    exact placed _

/-- A character of a key, fed and emitted. -/
theorem inKey_matches (below : List.Forall₂ Frame.Below rest rest') (e : m.stack = .object o :: rest) (state : o.state = .key)
    (exact_ : ∀ n children required, o.node = some n → m.schema.nodes[n]? = some (.object children required false) → o.key = k)
    (named : o.escape = 0 → c = '"' → ∀ n children required additional, o.node = some n →
      m.schema.nodes[n]? = some (.object children required additional) →
      children.findIdx? (fun p => p.1 = o.key) = children.findIdx? (fun p => p.1 = k))
    (step : m.inKey o c = some m') :
    ∃ n', ({ m with stack := .object { o with key := k } :: rest' } : Machine).inKey { o with key := k } c = some n' ∧
      Matches (k ++ [c]) m' n' := by
  have placed : ∀ escape, ∃ n', some (({ m with stack := .object { o with key := k } :: rest' } : Machine).setTop
      (.object { o with key := k ++ [c], escape })) = some n' ∧
      Matches (k ++ [c]) (m.setTop (.object { o with key := o.key ++ [c], escape })) n' := by
    refine fun escape => ⟨_, rfl, matches_setTop below e ⟨rfl, fun _ => ⟨rfl, ?_⟩, fun colon => ?_⟩⟩
    · intro n children required isNode at_
      rw [show o.key ++ [c] = k ++ [c] by rw [exact_ n children required isNode at_]]
    · rw [show o.state = .colon from colon] at state
      cases state
  have possible : m.keyPossible o.node o.seen (o.key ++ [c]) →
      ({ m with stack := .object { o with key := k } :: rest' } : Machine).keyPossible o.node o.seen (k ++ [c]) := by
    have node : ∀ id, ({ m with stack := .object { o with key := k } :: rest' } : Machine).node id = m.node id := fun _ => rfl
    unfold keyPossible
    rw [node]
    intro possible
    rcases Bool.or_eq_true_iff.mp possible with free | possible
    · rw [free, Bool.true_or]
    · rw [Bool.or_eq_true]
      refine .inr ?_
      split at possible
      · rename_i children required additional isObject
        obtain ⟨n, isNode, at_⟩ := node_eq isObject
        cases additional with
        | true => rfl
        | false =>
          rw [← exact_ n children required isNode at_]
          exact possible
      · cases possible
  have free : ({ m with stack := .object { o with key := k } :: rest' } : Machine).keysAreFree o.node = m.keysAreFree o.node :=
    rfl
  unfold inKey at step ⊢
  simp only at step ⊢
  by_cases within : 0 < o.escape
  · rw [if_pos within] at step ⊢
    split
    · rename_i ok
      rw [if_pos ok] at step
      cases step
      exact placed _
    · rename_i bad
      rw [if_neg bad] at step
      cases step
  rw [if_neg within] at step ⊢
  by_cases quote : c = '"'
  · rw [if_pos quote] at step ⊢
    exact checkKey_matches (o := { o with state := .colon }) below e k rfl
      (named (by omega) quote) step (k ++ [c])
  rw [if_neg quote] at step ⊢
  by_cases backslash : c = '\\'
  · rw [if_pos backslash] at step ⊢
    rw [free]
    split
    · rename_i isFree
      rw [if_pos isFree] at step
      cases step
      exact placed _
    · rename_i isClosed
      rw [if_neg isClosed] at step
      cases step
  rw [if_neg backslash] at step ⊢
  split
  · rename_i control
    rw [if_pos control] at step
    cases step
  · rename_i printable
    rw [if_neg printable] at step
    split at step
    · rename_i here
      rw [if_pos (possible here)]
      cases step
      exact placed _
    · cases step

theorem inObject_key (state : o.state = .key) : m.inObject o c = m.inKey o c := by
  unfold inObject
  rw [state]

/-- A character of an object outside its keys, fed and emitted. -/
theorem inObject_matches (below : List.Forall₂ Frame.Below rest rest') (e : m.stack = .object o :: rest) {key' : Text}
    (outside : o.state ≠ .key)
    (colon : o.state = .colon → (new m.schema).valueNodeFor o.node o.key = (new m.schema).valueNodeFor o.node key')
    (step : m.inObject o c = some m') :
    ∃ n', ({ m with stack := .object { o with key := key' } :: rest' } : Machine).inObject { o with key := key' } c = some n' ∧
      Matches [] m' n' := by
  have stays : ∃ n', some ({ m with stack := .object { o with key := key' } :: rest' } : Machine) = some n' ∧
      Matches [] m n' := by
    refine ⟨_, rfl, _, rfl, ?_⟩
    rw [e]
    exact .cons ⟨rfl, fun inKey => absurd inKey outside, colon⟩ below
  have closing : m.closeObject o.node o.seen = some m' →
      ∃ n', ({ m with stack := .object { o with key := key' } :: rest' } : Machine).closeObject o.node o.seen = some n' ∧
        Matches [] m' n' :=
    fun step => closeObject_matches below e step []
  -- where a member may begin, a key is opened, and in the one case the object closed
  have member : ∀ closes : Prop, ∀ [Decidable closes],
      (if isWs c then some m else if closes then m.closeObject o.node o.seen else if c ≠ '"' then none
        else some (m.setTop (.object { o with key := [], escape := 0, state := .key }))) = some m' →
      ∃ n', (if isWs c then some ({ m with stack := .object { o with key := key' } :: rest' } : Machine)
        else if closes then ({ m with stack := .object { o with key := key' } :: rest' } : Machine).closeObject o.node o.seen
        else if c ≠ '"' then none
        else some (({ m with stack := .object { o with key := key' } :: rest' } : Machine).setTop
          (.object { o with key := [], escape := 0, state := .key }))) = some n' ∧ Matches [] m' n' := by
    intro closes _ step
    by_cases ws : isWs c
    · rw [if_pos ws] at step ⊢
      cases step
      exact stays
    rw [if_neg ws] at step ⊢
    by_cases close : closes
    · rw [if_pos close] at step ⊢
      exact closing step
    rw [if_neg close] at step ⊢
    by_cases other : c ≠ '"'
    · rw [if_pos other] at step
      cases step
    · rw [if_neg other] at step ⊢
      cases step
      exact ⟨_, rfl, matches_setTop below e ⟨rfl, fun _ => ⟨rfl, fun _ _ _ _ _ => rfl⟩, fun inColon => by cases inColon⟩⟩
  generalize emitted : ({ m with stack := .object { o with key := key' } :: rest' } : Machine) = n at stays closing member ⊢
  cases state : o.state with
  | start =>
    simp only [inObject, state] at step ⊢
    exact member _ step
  | keyExpected =>
    simp only [inObject, state] at step ⊢
    exact member _ step
  | key => exact absurd state outside
  | value =>
    simp only [inObject, state] at step
    cases step
  | colon =>
    simp only [inObject, state] at step ⊢
    by_cases ws : isWs c
    · rw [if_pos ws] at step ⊢
      cases step
      exact stays
    rw [if_neg ws] at step ⊢
    by_cases other : c ≠ ':'
    · rw [if_pos other] at step
      cases step
    rw [if_neg other] at step ⊢
    obtain ⟨id, node, step⟩ := Option.bind_eq_some_iff.mp step
    have node' : n.valueNodeFor o.node key' = some id := by
      rw [← emitted]
      exact (colon state).symm.trans node
    cases step
    rw [node', ← emitted]
    refine ⟨_, rfl, .value id :: .object { o with key := key', state := .value } :: rest', rfl, ?_⟩
    rw [e]
    exact .cons rfl (.cons ⟨rfl, rfl⟩ below)
  | next =>
    simp only [inObject, state] at step ⊢
    by_cases ws : isWs c
    · rw [if_pos ws] at step ⊢
      cases step
      exact stays
    rw [if_neg ws] at step ⊢
    by_cases comma : c = ','
    · rw [if_pos comma] at step ⊢
      cases step
      rw [← emitted]
      exact ⟨_, rfl, matches_setTop below e (alike_object (o := { o with state := .keyExpected }) _ _ (by simp) (by simp) key')⟩
    rw [if_neg comma] at step ⊢
    by_cases close : c = '}'
    · rw [if_pos close] at step ⊢
      exact closing step
    · rw [if_neg close] at step
      cases step

theorem inArray_matches {again : Machine → Char → Option Machine} {a : ArrayFrame}
    (below : List.Forall₂ Frame.Below rest rest') (open_ : m.done = false) (e : m.stack = .array a :: rest)
    (further : ∀ m₁ n₁, (m₁.done = true → m₁.stack = []) → Matches [] m₁ n₁ → m₁.inStringBody = false → again m₁ c = some m' →
      ∃ n', again n₁ c = some n' ∧ Matches [] m' n') (step : m.inArray again a c = some m') :
    ∃ n', ({ m with stack := .array a :: rest' } : Machine).inArray again a c = some n' ∧ Matches [] m' n' := by
  have stays : ∃ n', some ({ m with stack := .array a :: rest' } : Machine) = some n' ∧ Matches [] m n' := by
    refine ⟨_, rfl, _, rfl, ?_⟩
    rw [e]
    exact .cons rfl below
  have closing : m.finishValue = some m' →
      ∃ n', ({ m with stack := .array a :: rest' } : Machine).finishValue = some n' ∧ Matches [] m' n' :=
    fun step => finishValue_matches below e step _ []
  have anyNode : ({ m with stack := .array a :: rest' } : Machine).anyNode = m.anyNode := rfl
  have item (id : Nat)
      (step : again { m with stack := .value (some id) :: .array { a with state := .value } :: m.stack.tail } c = some m') :
      ∃ n', again { m with stack := .value (some id) :: .array { a with state := .value } :: rest' } c = some n' ∧
        Matches [] m' n' := by
    refine further { m with stack := .value (some id) :: .array { a with state := .value } :: m.stack.tail } _
      (fun done => by rw [show m.done = true from done] at open_; cases open_) ⟨_, rfl, ?_⟩ rfl step
    rw [e]
    exact .cons rfl (.cons rfl below)
  -- where an element may begin, it is begun, and in the one case the array closed
  have element {closes : Prop} [Decidable closes] {r r' : Option Machine}
      (began : r = some m' → ∃ n', r' = some n' ∧ Matches [] m' n')
      (step : (if isWs c then some m else if closes then m.finishValue else r) = some m') :
      ∃ n', (if isWs c then some ({ m with stack := .array a :: rest' } : Machine)
        else if closes then ({ m with stack := .array a :: rest' } : Machine).finishValue else r') = some n' ∧
          Matches [] m' n' := by
    by_cases ws : isWs c
    · rw [if_pos ws] at step ⊢
      cases step
      exact stays
    rw [if_neg ws] at step ⊢
    by_cases close : closes
    · rw [if_pos close] at step ⊢
      exact closing step
    · rw [if_neg close] at step ⊢
      exact began step
  cases state : a.state with
  | start =>
    simp only [inArray, state, anyNode] at step ⊢
    cases isNode : (a.items <|> m.anyNode) with
    | none =>
      simp only [isNode] at step ⊢
      exact element (fun impossible => by cases impossible) step
    | some id =>
      simp only [isNode] at step ⊢
      exact element (item id) step
  | valueExpected =>
    simp only [inArray, state, anyNode] at step ⊢
    cases isNode : (a.items <|> m.anyNode) with
    | none =>
      simp only [isNode] at step ⊢
      exact element (fun impossible => by cases impossible) step
    | some id =>
      simp only [isNode] at step ⊢
      exact element (item id) step
  | value =>
    simp only [inArray, state] at step
    cases step
  | next =>
    simp only [inArray, state] at step ⊢
    by_cases ws : isWs c
    · rw [if_pos ws] at step ⊢
      cases step
      exact stays
    rw [if_neg ws] at step ⊢
    by_cases comma : c = ','
    · rw [if_pos comma] at step ⊢
      cases step
      exact ⟨_, rfl, matches_setTop below e rfl⟩
    rw [if_neg comma] at step ⊢
    by_cases close : c = ']'
    · rw [if_pos close] at step ⊢
      exact closing step
    · rw [if_neg close] at step
      cases step

/-- In the middle of a key. -/
def inKeyState (m : Machine) : Bool :=
  match m.stack with
  | .object o :: _ => o.state = .key
  | _ => false

theorem inKeyState_inStringBody (outside : m.inStringBody = false) : m.inKeyState = false := by
  unfold inStringBody at outside
  unfold inKeyState
  split <;> simp_all

/-- What is to be kept of a key where a group of characters is fed and one is
emitted: at its end the property it names, and where only declared names are
allowed, the text. -/
def keyKept (m : Machine) (k : Text) (g : Text × Char) : Bool :=
  match m.stack with
  | .object o :: _ =>
    if o.state = .key then
      match m.node o.node with
      | some (.object children _ additional) =>
        if o.escape = 0 ∧ g.2 = '"' then children.findIdx? (fun p => p.1 = o.key) = children.findIdx? (fun p => p.1 = k)
        else additional || g.1 = [g.2]
      | _ => true
    else true
  | _ => true

/-- The key emitted, after one more character. -/
def keyAfter (m : Machine) (k : Text) (c : Char) : Text := if m.inKeyState then k ++ [c] else []

/-- Keys are kept through a whole text, group by group. -/
def keysKept : Machine → Text → List (Text × Char) → Bool
  | _, _, [] => true
  | m, k, g :: gs => m.keyKept k g && (m.push g.1).all fun m' => keysKept m' (m.keyAfter k g.2) gs

theorem enter_matches (h : Matches k m n) (entered : m.enter c = some m') : ∃ n', n.enter c = some n' ∧ Matches k m' n' := by
  obtain ⟨stack, rfl, alike⟩ := h
  have body : ({ m with stack } : Machine).inStringBody = m.inStringBody := by
    unfold inStringBody
    generalize m.stack = fed at alike
    cases alike with
    | nil => rfl
    | @cons f f' _ _ top below =>
      cases f with
      | str => cases f' <;> first | rfl | exact absurd top (by simp [Frame.Alike])
      | object o =>
        cases f' with
        | object o' =>
          obtain ⟨same, -⟩ := top
          rw [same]
        | _ => exact absurd top (by simp [Frame.Alike])
      | _ =>
        cases show _ = _ from top
        rfl
  unfold enter at entered ⊢
  rw [body]
  by_cases ws : isWs c ∧ ¬m.inStringBody
  · rw [if_pos ws] at entered ⊢
    by_cases full : ¬m.started ∨ maxWsRun ≤ m.wsRun
    · rw [if_pos full] at entered
      cases entered
    · rw [if_neg full] at entered ⊢
      cases entered
      exact ⟨_, rfl, stack, rfl, alike⟩
  · rw [if_neg ws] at entered ⊢
    cases entered
    exact ⟨_, rfl, stack, rfl, alike⟩

theorem keyKept_congr (stack : m'.stack = m.stack) (schema : m'.schema = m.schema) (k : Text) (g : Text × Char) :
    m'.keyKept k g = m.keyKept k g := by
  unfold keyKept
  rw [stack]
  split
  · have node : m'.node = m.node := by
      funext id
      unfold Machine.node
      rw [schema]
    rw [node]
  · rfl

theorem keyAfter_congr (stack : m'.stack = m.stack) (k : Text) (c : Char) : m'.keyAfter k c = m.keyAfter k c := by
  unfold keyAfter inKeyState
  rw [stack]

theorem keyAfter_outside (e : m.stack = f :: rest) (outside : ∀ o, f = .object o → o.state ≠ .key) : m.keyAfter k c = [] := by
  unfold keyAfter
  rw [if_neg]
  unfold inKeyState
  rw [e]
  cases f with
  | object o => simpa using outside o rfl
  | _ => simp

/-- One and the same character, fed and emitted. -/
theorem pushWith_matches {again : Machine → Char → Option Machine} (ended : m.done = true → m.stack = []) (h : Matches k m n)
    (kept : m.keyKept k ([c], c))
    (further : ∀ m₁ n₁, (m₁.done = true → m₁.stack = []) → Matches [] m₁ n₁ → m₁.inStringBody = false → again m₁ c = some m' →
      ∃ n', again n₁ c = some n' ∧ Matches [] m' n') (step : m.pushWith again c = some m') :
    ∃ n', n.pushWith again c = some n' ∧ Matches (m.keyAfter k c) m' n' := by
  obtain ⟨m₁, entered, step⟩ := Option.bind_eq_some_iff.mp step
  obtain ⟨n₁, entered', same⟩ := enter_matches h entered
  obtain ⟨done₁, stack₁, schema₁⟩ := enter_keeps entered
  rw [← keyKept_congr stack₁ schema₁] at kept
  rw [← keyAfter_congr stack₁]
  unfold pushWith
  simp only [entered', Option.bind_eq_bind, Option.bind_some]
  have done : n₁.done = m₁.done := by
    obtain ⟨stack, rfl, -⟩ := same
    rfl
  rw [done]
  split at step
  · rename_i isDone
    rw [if_pos isDone]
    split at step
    · rename_i ws
      cases step
      obtain ⟨stack, rfl, alike⟩ := same
      refine ⟨_, if_pos ws, stack, rfl, ?_⟩
      rw [stack₁.trans (ended (done₁.symm.trans isDone))] at alike ⊢
      cases alike
      exact .nil
    · cases step
  rename_i isOpen
  rw [if_neg isOpen]
  cases e : m₁.stack with
  | nil =>
    rw [e] at step
    cases step
  | cons f rest =>
    rw [e] at step
    obtain ⟨f', rest', rfl, top, below⟩ := same.cases e
    cases f with
    | value id =>
      cases show _ = _ from top
      rw [keyAfter_outside e (by simp)]
      exact startValue_matches below e step []
    | str escape len =>
      rw [keyAfter_outside e (by simp)]
      cases f' with
      | str escape' len' =>
        obtain ⟨rfl, shorter⟩ := top
        exact inString_matches below e shorter step []
      | _ => exact absurd top (by simp [Frame.Alike])
    | number fr =>
      cases show _ = _ from top
      rw [keyAfter_outside e (by simp)]
      exact inNumber_matches below (Bool.eq_false_iff.mpr isOpen) e further step
    | word alts matched =>
      cases show _ = _ from top
      rw [keyAfter_outside e (by simp)]
      exact inWord_matches below e step []
    | array a =>
      cases show _ = _ from top
      rw [keyAfter_outside e (by simp)]
      exact inArray_matches below (Bool.eq_false_iff.mpr isOpen) e further step
    | object o =>
      cases f' with
      | object o' =>
        obtain ⟨same', keys⟩ := top
        rw [same']
        by_cases state : o.state = .key
        · obtain ⟨⟨rfl, exact_⟩, -⟩ := And.intro (keys.1 state) keys.2
          have after : m₁.keyAfter o'.key c = o'.key ++ [c] := by
            unfold keyAfter
            rw [if_pos]
            unfold inKeyState
            rw [e]
            simp [state]
          have step : m₁.inKey o c = some m' := (inObject_key state).symm.trans step
          have read := inKey_matches below e state exact_ (fun out quote n children required additional isNode at_ => ?_) step
          · rw [after]
            obtain ⟨n', step', matched⟩ := read
            exact ⟨n', (inObject_key (by exact state)).trans step', matched⟩
          · have node : m₁.node o.node = some (.object children required additional) := by
              rw [isNode]
              exact at_
            unfold keyKept at kept
            rw [e] at kept
            simp only [state, if_true, node, out, quote, true_and, decide_eq_true_eq] at kept
            exact kept
        · rw [keyAfter_outside e (fun x hx => by cases hx; exact state)]
          exact inObject_matches below e state keys.2 step
      | _ => exact absurd top (by simp [Frame.Alike])

end Machine

end Vapi.Structured
