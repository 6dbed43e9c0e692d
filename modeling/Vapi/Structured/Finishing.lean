import Vapi.Structured.Choices

/-!
# Finishing a document

From a state the machine takes for viable, what it takes to bring the document
to an end: a number and an escape that still fit under their limits, an option
that fits, and names and values for the properties still owed. Where these
hold the document can be finished, with every state on the way viable.
-/

namespace Vapi.Structured

open JsonGrammar (isWs isNumberChar)
open Document (canonical)

/-- Whether a text can be typed in a key, in the middle of such an escape.
Where only declared names are allowed none can be escaped. -/
def writes (free : Bool) : Nat → Text → Bool
  | escape, [] => escape = 0
  | escape, c :: t =>
    if 0 < escape then escapeOk escape c && writes free (nextEscape escape c) t
    else if c = '\\' then free && writes free 5 t
    else c ≠ '"' && 0x20 ≤ c.toNat && writes free 0 t

namespace Machine

/-- Read a text with the machine viable after every character. -/
def walk : Machine → Text → Option Machine
  | m, [] => some m
  | m, c :: t => do
    let m ← m.pushChar c
    if m.viable then walk m t else none

theorem walk_append (m : Machine) (t u : Text) : m.walk (t ++ u) = (m.walk t).bind fun m => m.walk u := by
  induction t generalizing m with
  | nil => rfl
  | cons c t ih =>
    rw [List.cons_append, walk, walk]
    cases m.pushChar c with
    | none => rfl
    | some m₁ =>
      simp only [Option.bind_eq_bind, Option.bind_some]
      split
      · exact ih m₁
      · rfl

theorem walk_push {m m' : Machine} {t : Text} (h : m.walk t = some m') : m.push t = some m' := by
  induction t generalizing m with
  | nil => exact h
  | cons c t ih =>
    obtain ⟨m₁, step, rest⟩ := Option.bind_eq_some_iff.mp h
    split at rest
    · rw [push, step]
      exact ih rest
    · cases rest

variable {s : Schema} {m m' : Machine} {P Q : Machine → Prop} {f : Frame} {rest : List Frame} {c : Char}

theorem walk_started {t : Text} (h : m.walk t = some m') (some_ : t ≠ []) : m'.started := by
  induction t generalizing m with
  | nil => exact absurd rfl some_
  | cons c t ih =>
    obtain ⟨m₁, step, h⟩ := Option.bind_eq_some_iff.mp h
    split at h
    · cases t with
      | nil =>
        cases h
        exact pushChar_started step
      | cons d t => exact ih h (by simp)
    · cases h

/-- Some text read from here, viable all along, leads to such a state. -/
def Gets (s : Schema) (m : Machine) (P : Machine → Prop) : Prop :=
  ∃ t m', m.walk t = some m' ∧ m'.Sound ∧ m'.schema = s ∧ P m'

theorem Gets.here (h : m.Sound) (schema : m.schema = s) (done : P m) : Gets s m P := ⟨[], m, rfl, h, schema, done⟩

theorem Gets.trans (h : Gets s m P) (further : ∀ m', m'.Sound → m'.schema = s → P m' → Gets s m' Q) : Gets s m Q := by
  obtain ⟨t, m₁, first, sound, schema, done⟩ := h
  obtain ⟨u, m₂, second, last⟩ := further m₁ sound schema done
  exact ⟨t ++ u, m₂, by rw [walk_append, first]; exact second, last⟩

theorem Gets.step (step : m.pushChar c = some m') (viable : m'.viable) (further : Gets s m' P) : Gets s m P := by
  obtain ⟨t, m₂, walked, last⟩ := further
  refine ⟨c :: t, m₂, ?_, last⟩
  rw [walk, step]
  simp only [Option.bind_eq_bind, Option.bind_some, viable, if_true]
  exact walked

/-- The same, with a first character that is no whitespace. -/
def Starts (s : Schema) (m : Machine) (P : Machine → Prop) : Prop :=
  ∃ c m', isWs c = false ∧ m.pushChar c = some m' ∧ m'.viable ∧ Gets s m' P

theorem Starts.gets (h : Starts s m P) : Gets s m P := by
  obtain ⟨c, m', -, step, viable, further⟩ := h
  exact .step step viable further

section Viability

def morePossible (children : List (Text × Nat)) (additional : Bool) (seen : List Nat) : Bool :=
  additional || (List.range children.length).any (· ∉ seen)

theorem frameViable_free {o : ObjectFrame} (free : o.node = none) : m.frameViable (.object o) := by
  simp only [frameViable, free, decide_true, Bool.true_or]

theorem frameViable_object {o : ObjectFrame} {n : Nat} {children : List (Text × Nat)} {required : List Nat}
    {additional : Bool} (isNode : o.node = some n) (at_ : m.schema.nodes[n]? = some (.object children required additional)) :
    m.frameViable (.object o) =
      match o.state with
      | .start | .next => required.all (· ∈ o.seen) || morePossible children additional o.seen
      | .keyExpected => morePossible children additional o.seen
      | .key => additional || propertyPossible children o.seen o.key
      | .colon | .value => true := by
  have node : m.node (some n) = some (.object children required additional) := at_
  simp only [frameViable, isNode, node, reduceCtorEq, decide_false, Bool.false_or]
  cases o.state <;> rfl

/-- What is owed while a container waits is owed by the frames above. -/
theorem waiting_viable (sound : f.Sound m.schema.nodes) (waiting : f.Waiting) : m.frameViable f := by
  cases f with
  | object o =>
    rcases sound.2 with free | ⟨n, properties, required, additional, children, isNode, shown, at_, -⟩
    · exact frameViable_free free
    · rw [frameViable_object isNode at_, show o.state = .value from waiting]
  | array a => rfl
  | _ => exact absurd waiting id

theorem viable_of_top (h : m.Sound) (e : m.stack = f :: rest) (top : m.frameViable f) : m.viable := by
  unfold viable
  rw [e, Bool.or_eq_true, List.all_cons, top, Bool.true_and]
  refine .inr (List.all_eq_true.mpr fun g hg => waiting_viable (h.frames g (by simp [e, hg])) (h.waiting g ?_))
  rw [e]
  exact hg

/-- Between members an object can close, or have one more. -/
theorem between_viable {o : ObjectFrame} (sound : o.Sound m.schema.nodes) (state : o.state = .start ∨ o.state = .next) :
    m.frameViable (.object o) := by
  rcases sound.2 with free | ⟨n, properties, required, additional, children, isNode, shown, at_, -⟩
  · exact frameViable_free free
  · obtain ⟨_, -, -, -, found⟩ := shown.roots at_
    have close_or_more : (required.all (· ∈ o.seen) || morePossible children additional o.seen) = true := by
      rw [Bool.or_eq_true]
      by_cases all : required.all (· ∈ o.seen)
      · exact .inl all
      · obtain ⟨r, hr, unseen⟩ := List.all_eq_false.mp (Bool.not_eq_true _ ▸ all)
        obtain ⟨name, here⟩ := found r hr
        obtain ⟨lt, -⟩ := List.findIdx?_eq_some_iff_getElem.mp here
        refine .inr (Bool.or_eq_true_iff.mpr (.inr (List.any_eq_true.mpr ⟨r, List.mem_range.mpr lt, ?_⟩)))
        simpa using unseen
    rw [frameViable_object isNode at_]
    rcases state with state | state <;> rw [state] <;> exact close_or_more

theorem ended_viable (h : m.Sound) (ended : m.Ended rest) (waiting : ∀ g ∈ rest, g.Waiting) : m.viable := by
  obtain ⟨stack, done⟩ := ended
  cases rest with
  | nil =>
    unfold viable
    rw [done]
    rfl
  | cons g rest =>
    have here := waiting g (by simp)
    cases g with
    | object o => exact viable_of_top h stack (between_viable (h.top stack) (.inr rfl))
    | array a => exact viable_of_top h stack rfl
    | _ => exact absurd here id

end Viability

section Turns

/-- The machine with a character entered that is no whitespace to it. -/
def entered (m : Machine) : Machine := { m with wsRun := 0, started := true }

theorem Sound.entered (h : m.Sound) : m.entered.Sound := h.congr rfl rfl rfl

theorem enter_entered (h : isWs c = false ∨ m.inStringBody = true) : m.enter c = some m.entered := by
  unfold enter
  rw [if_neg]
  · rfl
  · rcases h with h | h <;> simp [h]

theorem entered_stack (e : m.stack = f :: rest) (g : Frame) : (m.entered.setTop g).stack = g :: rest := by
  rw [setTop_stack, show m.entered.stack = f :: rest from e]
  rfl

/-- A character is read by the innermost frame. -/
theorem pushWith_top (again : Machine → Char → Option Machine) (h : m.Sound) (e : m.stack = f :: rest)
    (entering : isWs c = false ∨ m.inStringBody = true) :
    m.pushWith again c =
      match f with
      | .value id => m.entered.startValue id c
      | .str escape len => m.entered.inString escape len c
      | .number n => m.entered.inNumber again n c
      | .word alts matched => m.entered.inWord alts matched c
      | .object o => m.entered.inObject o c
      | .array a => m.entered.inArray again a c := by
  unfold pushWith
  rw [enter_entered entering]
  simp only [Option.bind_eq_bind, Option.bind_some]
  rw [if_neg (by rw [show m.entered.done = m.done from rfl, h.not_done e]; simp), show m.entered.stack = f :: rest from e]
  cases f <;> rfl

theorem pushChar_top (h : m.Sound) (e : m.stack = f :: rest) (entering : isWs c = false ∨ m.inStringBody = true) :
    m.pushChar c =
      match f with
      | .value id => m.entered.startValue id c
      | .str escape len => m.entered.inString escape len c
      | .number n => m.entered.inNumber (pushWith fun _ _ => none) n c
      | .word alts matched => m.entered.inWord alts matched c
      | .object o => m.entered.inObject o c
      | .array a => m.entered.inArray (pushWith fun _ _ => none) a c :=
  pushWith_top _ h e entering

/-- A value finished, or a number that any other character finishes. -/
def Past (m : Machine) (rest : List Frame) : Prop :=
  m.Ended rest ∨ ∃ n : NumberFrame, m.stack = .number n :: rest ∧ n.complete

theorem Gets.past (h : Gets s m (Ended · rest)) : Gets s m (Past · rest) :=
  h.trans fun _ sound schema ended => .here sound schema (.inl ended)

theorem finishes_ended (h : m.Sound) (e : m.stack = f :: rest) :
    ∃ m', m.finishValue = some m' ∧ m'.Sound ∧ m'.schema = m.schema ∧ m'.Ended rest ∧ m'.viable := by
  have finished := h.finishValue_eq e
  have sound := h.finishValue e finished
  refine ⟨_, finished, sound, rfl, ⟨rfl, rfl⟩, ended_viable sound ⟨rfl, rfl⟩ fun g hg => h.waiting g ?_⟩
  rw [e]
  exact hg

/-- The rest of an option that fits ends the choice, if no other ends it before. -/
theorem word_gets {a : Text} (r : Text) :
    ∀ {m : Machine} {alts : List Text} {matched : Nat}, m.Sound → m.schema = s → m.started = true →
      m.stack = .word alts matched :: rest → a ∈ alts → (byteChars a).drop matched = r → wsFits m.wsRun r →
      Gets s m (Ended · rest) := by
  induction r with
  | nil =>
    intro m alts matched h _ _ e listed rest_ _
    have short := (h.top e).2 a listed
    rw [← length_byteChars] at short
    exact absurd (List.drop_eq_nil_iff.mp rest_) (Nat.not_le_of_lt short)
  | cons c r ih =>
    intro m alts matched h schema started e listed rest_ fits
    obtain ⟨here, later⟩ : (byteChars a)[matched]? = some c ∧ (byteChars a).drop (matched + 1) = r := by
      rw [← List.head?_drop, rest_, ← List.tail_drop, rest_]
      exact ⟨rfl, rfl⟩
    -- the machine once the character has entered
    obtain ⟨m₁, enters, started₁, fits₁⟩ :
        ∃ m₁, m.enter c = some m₁ ∧ m₁.started = true ∧ wsFits m₁.wsRun r := by
      by_cases ws : isWs c
      · have body : m.inStringBody = false := by
          unfold inStringBody
          rw [e]
        rw [wsFits, if_pos ws, Bool.and_eq_true, decide_eq_true_eq] at fits
        exact ⟨_, (enter_of_ws ws body started).trans (if_pos fits.1), started, fits.2⟩
      · rw [wsFits, if_neg ws] at fits
        exact ⟨_, enter_of_not_ws (by simpa using ws), rfl, fits⟩
    obtain ⟨done, stack, same⟩ := enter_keeps enters
    have h₁ := h.congr done stack same
    have e₁ := stack.trans e
    have step : m.pushChar c = m₁.inWord alts matched c := by
      rw [pushChar_word (h.not_done e) e, enters, Option.bind_some]
    obtain ⟨alts', kept, isIn⟩ : ∃ alts', alts' = alts.filter
        (fun a => (asBytes a)[matched]?.map (fun b => Char.ofNat b.toNat) = some c) ∧ a ∈ alts' := by
      refine ⟨_, rfl, List.mem_filter.mpr ⟨listed, ?_⟩⟩
      rw [byteChars, List.getElem?_map] at here
      exact decide_eq_true here
    have settles : m.pushChar c = (m₁.setTop (.word alts' (matched + 1))).settleWord := by
      rw [step]
      unfold inWord
      simp only [← kept]
      rw [if_neg]
      simpa using List.ne_nil_of_mem isIn
    unfold settleWord at settles
    simp only [setTop_stack] at settles
    split at settles
    · obtain ⟨m₂, finished, sound, schema₂, ended, viable⟩ := finishes_ended h₁ e₁
      rw [setTop_finishValue, finished] at settles
      exact .step settles viable (.here sound (schema₂.trans (same.trans schema)) ended)
    · have sound := h.pushChar settles
      have e₂ : (m₁.setTop (.word alts' (matched + 1))).stack = .word alts' (matched + 1) :: rest := by
        rw [setTop_stack, e₁]
        rfl
      refine .step settles (viable_of_top sound e₂ ?_) (ih sound (same.trans schema) started₁ e₂ isIn later fits₁)
      unfold frameViable
      simpa using List.ne_nil_of_mem isIn

/-- A value is begun with a frame that is no option. -/
theorem begins (h : m.Sound) (schema : m.schema = s) {k : Nat} {n : Node} (e : m.stack = .value (some k) :: rest)
    (at_ : s.nodes[k]? = some n) (noWs : isWs c = false) (frame : startFrame (some k) n c = some f)
    (other : ∀ alts matched, f ≠ .word alts matched) :
    ∃ m', m.pushChar c = some m' ∧ m'.Sound ∧ m'.schema = s ∧ m'.stack = f :: rest := by
  have node : m.entered.node (some k) = some n := by
    rw [← schema] at at_
    exact at_
  have step : m.pushChar c = some (m.entered.setTop f) := by
    rw [pushChar_top h e (.inl noWs)]
    simp only [startValue, noWs, Bool.false_eq_true, if_false, node, Option.bind_eq_bind, Option.bind_some, frame]
    exact settleWord_other _ other
  refine ⟨_, step, h.pushChar step, schema, ?_⟩
  rw [setTop_stack, show m.entered.stack = _ from e]
  rfl

/-- A value of fixed words or options is read to its end. -/
theorem begins_word (h : m.Sound) (schema : m.schema = s) {k : Nat} {n : Node} (e : m.stack = .value (some k) :: rest)
    (at_ : s.nodes[k]? = some n) (noWs : isWs c = false) {alts : List Text}
    (frame : startFrame (some k) n c = some (.word alts 1)) {a : Text} {r : Text} (listed : a ∈ alts)
    (text : byteChars a = c :: r) (fits : wsFits 0 r) : Starts s m (Past · rest) := by
  have node : m.entered.node (some k) = some n := by
    rw [← schema] at at_
    exact at_
  have settles : m.pushChar c = (m.entered.setTop (.word alts 1)).settleWord := by
    rw [pushChar_top h e (.inl noWs)]
    simp only [startValue, noWs, Bool.false_eq_true, if_false, node, Option.bind_eq_bind, Option.bind_some, frame]
  have e₁ : m.entered.stack = .value (some k) :: rest := e
  unfold settleWord at settles
  simp only [setTop_stack] at settles
  split at settles
  · obtain ⟨m₂, finished, sound, schema₂, ended, viable⟩ := finishes_ended h.entered e₁
    rw [setTop_finishValue, finished] at settles
    exact ⟨c, m₂, noWs, settles, viable, .here sound (schema₂.trans schema) (.inl ended)⟩
  · have sound := h.pushChar settles
    have e₂ : (m.entered.setTop (.word alts 1)).stack = .word alts 1 :: rest := by
      rw [setTop_stack, e₁]
      rfl
    refine ⟨c, _, noWs, settles, viable_of_top sound e₂ ?_, .past (word_gets r sound schema rfl e₂ listed ?_ fits)⟩
    · unfold frameViable
      simpa using List.ne_nil_of_mem listed
    · rw [text]
      rfl

theorem inNumber_ends {again : Machine → Char → Option Machine} {n : NumberFrame} (complete : n.complete)
    (other : isNumberChar c = false) : m.inNumber again n c = m.finishValue.bind fun m => again m c := by
  have marks : c.isDigit = false ∧ c ≠ '.' ∧ c ≠ 'e' ∧ c ≠ 'E' ∧ c ≠ '+' ∧ c ≠ '-' := by
    simp only [isNumberChar, Bool.or_eq_false_iff, decide_eq_false_iff_not] at other
    obtain ⟨⟨⟨⟨⟨digit, minus⟩, plus⟩, dot⟩, e⟩, E⟩ := other
    exact ⟨digit, dot, e, E, plus, minus⟩
  obtain ⟨digit, dot, e, E, plus, minus⟩ := marks
  simp [inNumber, digit, dot, e, E, plus, minus, complete]

/-- After a value a mark is read by the container under it. -/
theorem past_settles (h : m.Sound) (schema : m.schema = s) (past : m.Past rest) (noWs : isWs c = false)
    (other : isNumberChar c = false) :
    ∃ m₁ again, Machine.Sound m₁ ∧ m₁.schema = s ∧ m₁.Ended rest ∧ m.pushChar c = m₁.pushWith again c := by
  rcases past with ended | ⟨n, e, complete⟩
  · exact ⟨m, _, h, schema, ended, rfl⟩
  · obtain ⟨m₁, finished, sound, schema₁, ended, -⟩ := finishes_ended h.entered (show m.entered.stack = _ from e)
    refine ⟨m₁, fun _ _ => none, sound, schema₁.trans schema, ended, ?_⟩
    rw [pushChar_top h e (.inl noWs)]
    simp only
    rw [inNumber_ends complete other, finished, Option.bind_some]

end Turns

section Members

variable {o : ObjectFrame} {n : Nat} {children : List (Text × Nat)} {required : List Nat} {additional : Bool}

theorem propertyPossible_of {i id : Nat} {name key : Text} {seen : List Nat} (child : children[i]? = some (name, id))
    (unseen : i ∉ seen) (begins : key <+: name) : propertyPossible children seen key := by
  unfold propertyPossible
  refine List.any_eq_true.mpr ⟨((name, id), i), List.mem_zipIdx_iff_getElem?.mpr child, ?_⟩
  simpa [unseen] using begins

theorem keyPossible_schema (schema : m.schema = s) (id : Option Nat) (seen : List Nat) (key : Text) :
    m.keyPossible id seen key = (new s).keyPossible id seen key := by
  subst schema
  rfl

/-- A key in progress is viable if it is possible. -/
theorem key_viable (o : ObjectFrame) (key : o.state = .key) :
    m.frameViable (.object o) = m.keyPossible o.node o.seen o.key := by
  unfold keyPossible
  simp only [frameViable, key]

/-- A key is begun. -/
theorem opens (h : m.Sound) (schema : m.schema = s) (e : m.stack = .object o :: rest)
    (state : o.state = .start ∨ o.state = .keyExpected) (possible : (new s).keyPossible o.node o.seen [])
    (further : ∀ m', m'.Sound → m'.schema = s →
      m'.stack = .object { o with state := .key, key := [], escape := 0 } :: rest → Gets s m' P) : Gets s m P := by
  have step : m.pushChar '"' = some (m.entered.setTop (.object { o with state := .key, key := [], escape := 0 })) := by
    rw [pushChar_top h e (.inl rfl)]
    simp only [inObject]
    rcases state with state | state <;> rw [state] <;> rfl
  have sound := h.pushChar step
  have e' := entered_stack e (.object { o with state := .key, key := [], escape := 0 })
  refine .step step (viable_of_top sound e' ?_) (further _ sound schema e')
  rw [key_viable _ rfl, keyPossible_schema (by exact schema)]
  exact possible

/-- A key goes on, to whatever names it can be typed to. -/
theorem key_gets (t : Text) :
    ∀ {m : Machine} {o : ObjectFrame}, m.Sound → m.schema = s → m.stack = .object o :: rest → o.state = .key →
      writes ((new s).keysAreFree o.node) o.escape t →
      (∀ u, u <+: t → (new s).keyPossible o.node o.seen (o.key ++ u)) →
      Gets s m fun m' => m'.stack = .object { o with key := o.key ++ t, escape := 0 } :: rest := by
  induction t with
  | nil =>
    intro m o h schema e _ written _
    rw [← of_decide_eq_true (show decide (o.escape = 0) = true from written), List.append_nil]
    exact .here h schema e
  | cons c t ih =>
    intro m o h schema e key written possible
    have body : m.inStringBody = true := by
      unfold inStringBody
      rw [e]
      simp [key]
    have free : m.entered.keysAreFree o.node = (new s).keysAreFree o.node := by
      subst schema
      rfl
    have here : m.entered.keyPossible o.node o.seen (o.key ++ [c]) = true := by
      rw [keyPossible_schema (show m.entered.schema = s from schema)]
      exact possible [c] ⟨t, rfl⟩
    -- the escape the character leaves behind
    obtain ⟨escape, step, later⟩ : ∃ escape,
        m.pushChar c = some (m.entered.setTop (.object { o with key := o.key ++ [c], escape })) ∧
          writes ((new s).keysAreFree o.node) escape t := by
      rw [pushChar_top h e (.inr body)]
      simp only [inObject, key, inKey]
      unfold writes at written
      split at written
      · rename_i within
        obtain ⟨ok, written⟩ := Bool.and_eq_true_iff.mp written
        exact ⟨_, by rw [if_pos within, if_pos ok], written⟩
      rename_i out
      rw [if_neg out]
      split at written
      · rename_i backslash
        obtain ⟨isFree, written⟩ := Bool.and_eq_true_iff.mp written
        refine ⟨_, ?_, written⟩
        rw [if_neg (by rw [backslash]; decide), if_pos backslash, free, if_pos isFree]
      · rename_i noBackslash
        simp only [Bool.and_eq_true, decide_eq_true_eq] at written
        obtain ⟨⟨noQuote, printable⟩, written⟩ := written
        have none_ : o.escape = 0 := by omega
        refine ⟨0, ?_, written⟩
        rw [if_neg noQuote, if_neg noBackslash, if_neg (Nat.not_lt.mpr printable), if_pos here, none_]
    have sound := h.pushChar step
    have e' := entered_stack e (.object { o with key := o.key ++ [c], escape })
    have next := ih sound schema e' key later fun u hu => by
      rw [List.append_assoc]
      exact possible (c :: u) ((List.cons_prefix_cons).mpr ⟨rfl, hu⟩)
    refine .step step (viable_of_top sound e' ?_) ?_
    · rw [key_viable { o with key := o.key ++ [c], escape } key]
      exact here
    · simpa only [List.append_assoc, List.singleton_append] using next

/-- After its key, a member's value is read. -/
theorem value_of_colon (h : m.Sound) (schema : m.schema = s) (e : m.stack = .object o :: rest) (colon : o.state = .colon)
    {id : Option Nat} (node : (new s).valueNodeFor o.node o.key = some id)
    (value : ∀ {m' rest}, Machine.Sound m' → m'.schema = s → m'.stack = .value id :: rest → Gets s m' (Past · rest)) :
    Gets s m (Past · (.object { o with state := .value } :: rest)) := by
  have node' : m.entered.valueNodeFor o.node o.key = some id := by
    rw [← node, ← schema]
    rfl
  have step : m.pushChar ':' = some
      { m.entered with stack := .value id :: .object { o with state := .value } :: rest } := by
    rw [pushChar_top h e (.inl rfl)]
    simp only [inObject, colon, node']
    rw [show m.entered.stack = _ from e]
    rfl
  have sound := h.pushChar step
  exact .step step (viable_of_top sound rfl rfl) (value sound schema rfl)

/-- A key is closed, and a value read for it. -/
theorem value_of_key (h : m.Sound) (schema : m.schema = s) (e : m.stack = .object o :: rest) (key : o.state = .key)
    (out : o.escape = 0) {seen : List Nat} {id : Option Nat}
    (closed : m.entered.checkKey { o with state := .colon } =
      some (m.entered.setTop (.object { o with state := .colon, seen })))
    (node : (new s).valueNodeFor o.node o.key = some id)
    (value : ∀ {m' rest}, Machine.Sound m' → m'.schema = s → m'.stack = .value id :: rest → Gets s m' (Past · rest)) :
    Gets s m (Past · (.object { o with state := .value, seen } :: rest)) := by
  have step : m.pushChar '"' = some (m.entered.setTop (.object { o with state := .colon, seen })) := by
    rw [pushChar_top h e (.inl rfl)]
    simp only [inObject, key, inKey]
    rw [if_neg (by omega), if_pos trivial]
    exact closed
  have sound := h.pushChar step
  have e₁ := entered_stack e (.object { o with state := .colon, seen })
  refine .step step (viable_of_top sound e₁ ?_) (value_of_colon sound schema e₁ rfl node value)
  rcases (sound.top e₁).2 with free | ⟨n, _, _, _, _, isNode, -, at_, -⟩
  · exact frameViable_free free
  · rw [frameViable_object isNode at_]

/-- Whatever value of the node is awaited can be read. -/
def Fillable (s : Schema) (id : Nat) : Prop :=
  ∀ {m : Machine} {rest : List Frame}, m.Sound → m.schema = s → m.stack = .value (some id) :: rest →
    Starts s m (Past · rest)

theorem anyNode_fillable (any : .any ∈ s.nodes) : ∃ id, (new s).anyNode = some id ∧ Fillable s id := by
  rcases anyNode_node s with ⟨id, _, isNode, -⟩ | ⟨-, none_⟩
  · have at_ : s.nodes[id]? = some .any := by
      obtain ⟨lt, is, -⟩ := List.findIdx?_eq_some_iff_getElem.mp (show s.nodes.findIdx? _ = some id from isNode)
      rw [List.getElem?_eq_getElem lt, of_decide_eq_true is]
    refine ⟨id, isNode, fun h schema e => ?_⟩
    exact begins_word h schema e at_ (c := 'n') rfl rfl (List.mem_singleton_self _) (r := "ull".toList) rfl rfl
  · exact absurd any none_

/-- A declared key is closed, and its property's value read. -/
theorem declared_value (h : m.Sound) (schema : m.schema = s) (e : m.stack = .object o :: rest) (key : o.state = .key)
    (out : o.escape = 0) (isNode : o.node = some n) (at_ : s.nodes[n]? = some (.object children required additional))
    {i id : Nat} (found : children.findIdx? (fun p => p.1 = o.key) = some i) (child : children[i]? = some (o.key, id))
    (unseen : i ∉ o.seen) (value : Fillable s id) :
    Gets s m (Past · (.object { o with state := .value, seen := o.seen ++ [i] } :: rest)) := by
  have node : ∀ m : Machine, m.schema = s → m.node (some n) = some (.object children required additional) := by
    rintro m rfl
    exact at_
  refine value_of_key h schema e key out ?_ ?_ fun h schema (e : _ = Frame.value (some id) :: _) => (value h schema e).gets
  · unfold checkKey
    rw [if_neg (by simp [isNode])]
    simp only [isNode, node m.entered schema, found]
    rw [if_neg unseen]
  · unfold valueNodeFor
    rw [if_neg (by simp [isNode])]
    obtain ⟨lt, is, first⟩ := List.findIdx?_eq_some_iff_getElem.mp found
    obtain ⟨_, here⟩ := List.getElem?_eq_some_iff.mp child
    have found' : children.find? (fun p => p.1 = o.key) = some (o.key, id) :=
      List.find?_eq_some_iff_getElem.mpr ⟨by simp, i, lt, here, fun j hj => by simpa using first j hj⟩
    simp only [isNode, node (new s) rfl, found']

/-- A key of no property is closed where any is allowed, and any value read. -/
theorem free_value (any : .any ∈ s.nodes) (h : m.Sound) (schema : m.schema = s) (e : m.stack = .object o :: rest)
    (key : o.state = .key) (out : o.escape = 0)
    (free : o.node = none ∨ ∃ n children required, o.node = some n ∧ s.nodes[n]? = some (.object children required true) ∧
      ∀ p ∈ children, p.1 ≠ o.key) : Gets s m (Past · (.object { o with state := .value } :: rest)) := by
  obtain ⟨id, anyNode, value⟩ := anyNode_fillable any
  refine value_of_key h schema e key out ?_ ?_ fun h schema (e : _ = Frame.value (some id) :: _) => (value h schema e).gets
  · unfold checkKey
    rcases free with free | ⟨n, children, required, isNode, at_, other⟩
    · rw [if_pos (by exact free)]
    · have node : m.entered.node (some n) = some (.object children required true) := by
        rw [← schema] at at_
        exact at_
      have none_ : children.findIdx? (fun p => p.1 = o.key) = none :=
        List.findIdx?_eq_none_iff.mpr fun p hp => by simpa using other p hp
      rw [if_neg (by simp [isNode])]
      simp only [isNode, node, none_]
      rfl
  · unfold valueNodeFor
    rcases free with free | ⟨n, children, required, isNode, at_, other⟩
    · rw [if_pos free, anyNode]
    · have node : (new s).node (some n) = some (.object children required true) := at_
      have none_ : children.find? (fun p => p.1 = o.key) = none :=
        List.find?_eq_none.mpr fun p hp => by simpa using other p hp
      rw [if_neg (by simp [isNode])]
      simp only [isNode, node, none_, anyNode, if_true]

end Members

end Machine

end Vapi.Structured
