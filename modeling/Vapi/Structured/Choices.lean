import Vapi.Structured.Reached

/-!
# The options of a choice

A choice is read as the bytes of its options, all at once, and ends with the
first of them that is whole. So an option is produced exactly if its text is
the bytes of one, none of the others ends before it, and no run of its
whitespace is longer than the machine takes.
-/

namespace Vapi.Structured

open JsonGrammar (Reads Ends isWs isNumberChar)
open Document (canonical)

/-- The whitespace in the text fits the machine, after a run of so much. -/
def wsFits : Nat → Text → Bool
  | _, [] => true
  | run, c :: t => if isWs c then run < maxWsRun && wsFits (run + 1) t else wsFits 0 t

theorem prefix_snoc_iff {α : Type} {p l : List α} {x : α} : p ++ [x] <+: l ↔ p <+: l ∧ l[p.length]? = some x := by
  constructor
  · rintro ⟨r, rfl⟩
    exact ⟨⟨x :: r, by simp⟩, by simp⟩
  · rintro ⟨⟨r, rfl⟩, here⟩
    rw [List.getElem?_append_right (Nat.le_refl _), Nat.sub_self] at here
    cases r with
    | nil => cases here
    | cons y r =>
      obtain rfl := Option.some.inj here
      exact ⟨r, by simp⟩

/-- The containers under a finished value. -/
def resumed : List Frame → List Frame
  | .object o :: rest => .object { o with state := .next } :: rest
  | .array a :: rest => .array { a with state := .next } :: rest
  | rest => rest

namespace Machine

variable {m m' : Machine} {f : Frame} {rest : List Frame} {c : Char}

theorem Sound.finishValue_eq (h : m.Sound) (e : m.stack = f :: rest) :
    m.finishValue = some { m with stack := resumed rest, done := rest.isEmpty } := by
  have waiting : ∀ g ∈ rest, g.Waiting := by
    intro g hg
    exact h.waiting g (by rw [e]; exact hg)
  unfold Machine.finishValue
  rw [e]
  cases rest with
  | nil => rfl
  | cons g rest =>
    have open_ := h.not_done e
    cases g with
    | object o =>
      simp only [List.tail_cons, resumed, List.isEmpty_cons, open_]
    | array a =>
      simp only [List.tail_cons, resumed, List.isEmpty_cons, open_]
    | _ => exact absurd (waiting _ (List.mem_cons_self ..)) id

/-- The value has been read to its end. -/
def Ended (m : Machine) (rest : List Frame) : Prop := m.stack = resumed rest ∧ m.done = rest.isEmpty

/-- Read a choice on, to the options whose bytes begin with what has been read. -/
def spell (m : Machine) (options : List Text) (p : Text) : Option Machine :=
  let alts := options.filter fun o => p.isPrefixOf (byteChars o)
  if alts.isEmpty then none else (m.setTop (.word alts p.length)).settleWord

theorem inWord_spell (m : Machine) (options : List Text) (p : Text) (c : Char) :
    m.inWord (options.filter fun o => p.isPrefixOf (byteChars o)) p.length c = m.spell options (p ++ [c]) := by
  have alts : ((options.filter fun o => p.isPrefixOf (byteChars o)).filter
      fun a => (asBytes a)[p.length]?.map (fun b => Char.ofNat b.toNat) = some c) =
      options.filter fun o => (p ++ [c]).isPrefixOf (byteChars o) := by
    rw [List.filter_filter]
    refine List.filter_congr fun o _ => ?_
    rw [Bool.eq_iff_iff, Bool.and_eq_true, List.isPrefixOf_iff_prefix, List.isPrefixOf_iff_prefix, prefix_snoc_iff,
      decide_eq_true_eq, byteChars, List.getElem?_map, and_comm]
  unfold inWord spell
  simp only [alts, List.length_append, List.length_singleton]

/-- A choice ends with a whole option, goes on with a begun one, and refuses
what begins none. -/
theorem spell_cases (h : m.Sound) (e : m.stack = f :: rest) (options : List Text) (p : Text) :
    p ∈ options.map byteChars ∧ (∃ m', m.spell options p = some m' ∧ m'.Sound ∧ m'.Ended rest) ∨
      p ∉ options.map byteChars ∧
        ((∀ o ∈ options, ¬p <+: byteChars o) ∧ m.spell options p = none ∨
          ∃ m', m.spell options p = some m' ∧ m'.Sound ∧ m'.started = m.started ∧ m'.wsRun = m.wsRun ∧
            m'.stack = .word (options.filter fun o => p.isPrefixOf (byteChars o)) p.length :: rest) := by
  have settled : ∀ m', (options.filter fun o => p.isPrefixOf (byteChars o)) ≠ [] →
      (m.setTop (.word (options.filter fun o => p.isPrefixOf (byteChars o)) p.length)).settleWord = some m' → m'.Sound := by
    intro m' some_
    refine h.settleWord e some_ fun a ha => ?_
    rw [← length_byteChars]
    exact (List.isPrefixOf_iff_prefix.mp (List.mem_filter.mp ha).2).length_le
  have begun : p ∈ options.map byteChars → (options.filter fun o => p.isPrefixOf (byteChars o)) ≠ [] := by
    intro whole
    obtain ⟨o, listed, rfl⟩ := List.mem_map.mp whole
    exact List.ne_nil_of_mem (List.mem_filter.mpr ⟨listed, List.isPrefixOf_iff_prefix.mpr (List.prefix_refl _)⟩)
  -- an option begun with the text and as long is the text
  have whole_iff : ((options.filter fun o => p.isPrefixOf (byteChars o)).any fun a => (asBytes a).length = p.length) = true ↔
      p ∈ options.map byteChars := by
    rw [List.any_eq_true, List.mem_map]
    constructor
    · rintro ⟨a, ha, length⟩
      obtain ⟨listed, begins⟩ := List.mem_filter.mp ha
      rw [decide_eq_true_eq, ← length_byteChars] at length
      exact ⟨a, listed, ((List.isPrefixOf_iff_prefix.mp begins).eq_of_length length.symm).symm⟩
    · rintro ⟨a, listed, rfl⟩
      refine ⟨a, List.mem_filter.mpr ⟨listed, List.isPrefixOf_iff_prefix.mpr (List.prefix_refl _)⟩, ?_⟩
      rw [decide_eq_true_eq, length_byteChars]
  by_cases whole : p ∈ options.map byteChars
  · refine .inl ⟨whole, ?_⟩
    have result : m.spell options p = m.finishValue := by
      unfold spell settleWord
      simp only [setTop_stack]
      rw [if_neg (by simpa using begun whole), if_pos (whole_iff.mpr whole), setTop_finishValue]
    rw [result, h.finishValue_eq e]
    exact ⟨_, rfl, h.finishValue e (h.finishValue_eq e), rfl, rfl⟩
  · refine .inr ⟨whole, ?_⟩
    by_cases none_ : (options.filter fun o => p.isPrefixOf (byteChars o)) = []
    · refine .inl ⟨fun o listed begins => ?_, ?_⟩
      · have kept : o ∈ options.filter fun o => p.isPrefixOf (byteChars o) :=
          List.mem_filter.mpr ⟨listed, List.isPrefixOf_iff_prefix.mpr begins⟩
        rw [none_] at kept
        cases kept
      · unfold spell
        rw [if_pos (by simp [none_])]
    · have result : m.spell options p =
          some (m.setTop (.word (options.filter fun o => p.isPrefixOf (byteChars o)) p.length)) := by
        unfold spell settleWord
        simp only [setTop_stack]
        rw [if_neg (by simpa using none_), if_neg fun any => whole (whole_iff.mp any)]
      refine .inr ⟨_, result, ?_, rfl, rfl, ?_⟩
      · unfold spell at result
        rw [if_neg (by simpa using none_)] at result
        exact settled _ none_ result
      · rw [setTop_stack, e]
        rfl

theorem pushChar_word {alts : List Text} {matched : Nat} (open_ : m.done = false) (e : m.stack = .word alts matched :: rest) :
    m.pushChar c = (m.enter c).bind fun m => m.inWord alts matched c := by
  unfold pushChar pushWith
  cases entered : m.enter c with
  | none => rfl
  | some m₁ =>
    obtain ⟨done, stack, -⟩ := enter_keeps entered
    simp only [Option.bind_eq_bind, Option.bind_some, done, open_, stack, e]
    rfl

theorem enter_of_not_ws (h : isWs c = false) : m.enter c = some { m with wsRun := 0, started := true } := by
  unfold enter
  rw [if_neg (by simp [h])]

theorem enter_of_ws (h : isWs c) (body : m.inStringBody = false) (started : m.started = true) :
    m.enter c = if m.wsRun < maxWsRun then some { m with wsRun := m.wsRun + 1 } else none := by
  unfold enter
  rw [if_pos ⟨h, by simp [body]⟩]
  by_cases few : m.wsRun < maxWsRun
  · rw [if_pos few, if_neg (by simp [started, few])]
  · rw [if_neg few, if_pos (.inr (Nat.not_lt.mp few))]

/-- What would go on with a number is refused after a value. -/
theorem ended_refuses (ended : m.Ended rest) (waiting : ∀ g ∈ rest, g.Waiting) (number : isNumberChar c) :
    m.pushChar c = none := by
  have marks : isWs c = false ∧ c ≠ ',' ∧ c ≠ '}' ∧ c ≠ ']' := by
    refine ⟨?_, ?_, ?_, ?_⟩
    · by_contra ws
      rcases isWs_cases (by simpa using ws) with rfl | rfl | rfl | rfl <;> exact absurd number (by decide)
    all_goals
      rintro rfl
      exact absurd number (by decide)
  obtain ⟨noWs, noComma, noBrace, noBracket⟩ := marks
  obtain ⟨stack, done⟩ := ended
  unfold pushChar pushWith
  rw [enter_of_not_ws noWs]
  simp only [Option.bind_eq_bind, Option.bind_some, done, stack]
  cases rest with
  | nil => simp [noWs]
  | cons g rest =>
    have here := waiting g (by simp)
    cases g with
    | object o => simp [resumed, inObject, noWs, noComma, noBrace]
    | array a => simp [resumed, inArray, noWs, noComma, noBracket]
    | _ => exact absurd here id

/-- From a choice read so far, exactly the texts of its options' bytes that fit
end it, if no other has ended it before. -/
theorem spell_push_iff {docs : List Document} {d : Document} (h : m.Sound) (e : m.stack = f :: rest)
    (started : m.started = true) (p r : Text) (text : canonical d = p ++ r) :
    (∃ m', ((m.spell (docs.map canonical) p).bind fun m => m.push r) = some m' ∧ m'.Ended rest) ↔
      p ++ r ∈ (docs.map canonical).map byteChars ∧
        (∀ b ∈ (docs.map canonical).map byteChars, p.length ≤ b.length → b <+: p ++ r → b = p ++ r) ∧ wsFits m.wsRun r := by
  have waiting : ∀ g ∈ rest, g.Waiting := by
    intro g hg
    exact h.waiting g (by rw [e]; exact hg)
  induction r generalizing m f p with
  | nil =>
    rw [List.append_nil] at text ⊢
    rcases spell_cases h e (docs.map canonical) p with ⟨whole, m', spelt, -, ended⟩ | ⟨part, ⟨-, spelt⟩ | ⟨m', spelt, -, -, -, stack⟩⟩
    · refine iff_of_true ⟨m', by rw [spelt]; rfl, ended⟩ ⟨whole, fun b _ long begins => ?_, rfl⟩
      exact begins.eq_of_length_le long
    · refine iff_of_false ?_ fun right => part right.1
      rintro ⟨m', pushed, -⟩
      rw [spelt] at pushed
      cases pushed
    · refine iff_of_false ?_ fun right => part right.1
      rintro ⟨m'', pushed, ended, -⟩
      rw [spelt] at pushed
      obtain rfl := Option.some.inj (show some m' = some m'' from pushed)
      have lengths := congrArg List.length (stack.symm.trans ended)
      have : (resumed rest).length = rest.length := by
        unfold resumed
        split <;> rfl
      rw [List.length_cons, this] at lengths
      omega
  | cons c r ih =>
    rcases spell_cases h e (docs.map canonical) p with ⟨whole, m', spelt, -, ended⟩ | ⟨part, ⟨none_, spelt⟩ | ⟨m', spelt, sound, starts, run, stack⟩⟩
    · -- what follows a whole option that is not all of the text goes on with a number
      obtain ⟨o, listed, rfl⟩ := List.mem_map.mp whole
      obtain ⟨d', -, rfl⟩ := List.mem_map.mp listed
      have number : isNumberChar c := by
        by_contra stops
        have ends : Ends (c :: r) := Document.ends_of_mark (by simpa using stops) r
        have reads := Document.canonical_reads faithful_latin d' (c :: r) ends
        have reads' := Document.canonical_reads Document.faithful_id d [] (by simp [Ends])
        rw [List.append_nil, List.flatMap_singleton', text, byteChars_eq] at reads'
        cases (reads.unique reads').2
      refine iff_of_false ?_ fun right => ?_
      · rintro ⟨m'', pushed, -⟩
        rw [spelt] at pushed
        obtain ⟨m₁, step, -⟩ := Option.bind_eq_some_iff.mp (show (m'.pushChar c).bind _ = some m'' from pushed)
        rw [ended_refuses ended waiting number] at step
        cases step
      · have same := right.2.1 _ whole (Nat.le_refl _) (List.prefix_append ..)
        have lengths := congrArg List.length same
        rw [List.length_append, List.length_cons] at lengths
        omega
    · refine iff_of_false ?_ fun right => ?_
      · rintro ⟨m'', pushed, -⟩
        rw [spelt] at pushed
        cases pushed
      · obtain ⟨o, listed, same⟩ := List.mem_map.mp right.1
        exact none_ o listed (same ▸ List.prefix_append ..)
    · have open_ := sound.not_done stack
      have step : m'.pushChar c = (m'.enter c).bind fun m => m.spell (docs.map canonical) (p ++ [c]) := by
        rw [pushChar_word open_ stack]
        simp only [inWord_spell]
      have goal : ((m.spell (docs.map canonical) p).bind fun m => m.push (c :: r)) =
          (m'.enter c).bind fun m => (m.spell (docs.map canonical) (p ++ [c])).bind fun m => m.push r := by
        rw [spelt, Option.bind_some, push, step, Option.bind_eq_bind, Option.bind_assoc]
      have longer : (∀ b ∈ (docs.map canonical).map byteChars, (p ++ [c]).length ≤ b.length → b <+: p ++ c :: r →
          b = p ++ c :: r) ↔ ∀ b ∈ (docs.map canonical).map byteChars, p.length ≤ b.length → b <+: p ++ c :: r →
          b = p ++ c :: r := by
        refine ⟨fun right b hb long begins => right b hb ?_ begins, fun right b hb long => right b hb ?_⟩
        · rw [List.length_append, List.length_singleton]
          refine Nat.lt_of_le_of_ne long fun same => part ?_
          rw [(List.prefix_of_prefix_length_le (List.prefix_append p (c :: r)) begins long).eq_of_length same]
          exact hb
        · rw [List.length_append] at long
          omega
      rw [goal, ← longer]
      rw [show p ++ c :: r = p ++ [c] ++ r by simp] at text ⊢
      have next : ∀ m₁, m'.enter c = some m₁ → m₁.started = true →
          ((∃ m', ((m₁.spell (docs.map canonical) (p ++ [c])).bind fun m => m.push r) = some m' ∧ m'.Ended rest) ↔
            p ++ [c] ++ r ∈ (docs.map canonical).map byteChars ∧
              (∀ b ∈ (docs.map canonical).map byteChars, (p ++ [c]).length ≤ b.length → b <+: p ++ [c] ++ r →
                b = p ++ [c] ++ r) ∧ wsFits m₁.wsRun r) := by
        intro m₁ entered started₁
        obtain ⟨done, stack₁, schema⟩ := enter_keeps entered
        exact ih (sound.congr done stack₁ schema) (stack₁.trans stack) started₁ (p ++ [c]) text
      by_cases ws : isWs c
      · have body : m'.inStringBody = false := by
          unfold inStringBody
          rw [stack]
        have entered := enter_of_ws ws body (starts.trans started)
        rw [run] at entered
        by_cases few : m.wsRun < maxWsRun
        · rw [if_pos few] at entered
          rw [entered, Option.bind_some, next _ entered (starts.trans started)]
          simp only [wsFits, if_pos ws, few, decide_true, Bool.true_and]
        · rw [if_neg few] at entered
          rw [entered, Option.bind_none]
          simp [wsFits, ws, few]
      · have entered := enter_of_not_ws (m := m') (by simpa using ws)
        rw [entered, Option.bind_some, next _ entered rfl]
        simp only [wsFits, if_neg ws]

/-- The machine is about to read a value of the node, with what lies under the
value: at a value's own frame, or in an array before an item. -/
inductive Awaits (m : Machine) (n : Nat) : List Frame → Prop
  | value {rest : List Frame} : m.stack = .value (some n) :: rest → Awaits m n rest
  | item {a : ArrayFrame} {rest : List Frame} : m.stack = .array a :: rest → a.state = .start ∨ a.state = .valueExpected →
      a.items = some n → Awaits m n (.array { a with state := .value } :: rest)

/-- Where a choice is awaited, its first character begins its options. -/
theorem awaits_spell {n : Nat} {docs : List Document} (h : m.Sound) (awaits : m.Awaits n rest)
    (at_ : m.schema.nodes[n]? = some (.choice (docs.map canonical))) (starts : JsonGrammar.startsValue c) :
    ∃ (m₁ : Machine) (f : Frame), m₁.Sound ∧ m₁.stack = f :: rest ∧ m₁.started = true ∧ m₁.wsRun = 0 ∧
      m.pushChar c = m₁.spell (docs.map canonical) [c] := by
  have noWs := JsonGrammar.startsValue_not_ws starts
  have alts : (docs.map canonical).filter (fun o => o.head? = some c) =
      (docs.map canonical).filter fun o => [c].isPrefixOf (byteChars o) := by
    refine List.filter_congr fun o listed => ?_
    obtain ⟨d, -, rfl⟩ := List.mem_map.mp listed
    obtain ⟨x, l, text, first⟩ := canonical_starts d
    rw [text, byteChars_eq, Document.flatMap_cons_ascii faithful_latin (startsValue_ascii first), List.head?_cons,
      List.isPrefixOf_cons_cons, List.isPrefixOf_nil_left, Bool.and_true]
    by_cases same : x = c
    · simp [same]
    · simp [same, Ne.symm same]
  have value : ∀ m₁ : Machine, m₁.schema = m.schema →
      m₁.startValue (some n) c = m₁.spell (docs.map canonical) [c] := by
    intro m₁ schema
    have node : m₁.node (some n) = some (.choice (docs.map canonical)) := by
      rw [← at_, ← schema]
      rfl
    unfold startValue spell
    rw [if_neg (by simp [noWs]), node]
    simp only [Option.bind_eq_bind, Option.bind_some, startFrame, alts]
    split
    · rfl
    · rfl
  have entered := enter_of_not_ws (m := m) noWs
  obtain ⟨done, stack, schema⟩ := enter_keeps entered
  have sound := h.congr done stack schema
  cases awaits with
  | value e =>
    refine ⟨_, _, sound, stack.trans e, rfl, rfl, ?_⟩
    unfold pushChar pushWith
    rw [entered]
    simp only [Option.bind_eq_bind, Option.bind_some, h.not_done e, e, Bool.false_eq_true, if_false]
    exact value _ rfl
  | @item a below e state items =>
    have node : Node? m.schema.nodes (some n) := by
      obtain ⟨shape, shown⟩ := (show (Frame.array a).Sound m.schema.nodes from h.top e) n items
      exact .inl ⟨n, shape, rfl, shown⟩
    have placed := sound.replace e (by simp : [Frame.value (some n), .array { a with state := .value }] ≠ [])
      (fun g hg => ?_) (by simp [Frame.Waiting]) fun g hg => ?_
    · refine ⟨_, _, placed, rfl, rfl, rfl, ?_⟩
      have noBracket : c ≠ ']' := by
        rintro rfl
        exact absurd starts (by decide)
      unfold pushChar
      rw [pushWith, entered]
      simp only [Option.bind_eq_bind, Option.bind_some, h.not_done e, e, Bool.false_eq_true, if_false]
      have reads : ∀ again (m₁ : Machine), m₁.inArray again a c = again
          { m₁ with stack := .value (some n) :: .array { a with state := .value } :: m₁.stack.tail } c := by
        intro again m₁
        unfold inArray
        rcases state with state | state
        all_goals
          rw [state]
          simp only [noWs, Bool.false_eq_true, if_false, noBracket, false_and, items]
          rfl
      rw [reads, pushWith, enter_of_not_ws noWs]
      simp only [Option.bind_eq_bind, Option.bind_some, Bool.false_eq_true, if_false]
      exact value _ rfl
    · rcases List.mem_pair.mp hg with rfl | rfl
      · exact node
      · exact (show (Frame.array a).Sound m.schema.nodes from h.top e)
    · rw [List.mem_singleton.mp hg]
      rfl

theorem push_schema (written : Written m.schema.nodes) {t : Text} (pushed : m.push t = some m') : m'.schema = m.schema := by
  induction t generalizing m with
  | nil => rw [Option.some.inj pushed]
  | cons c t ih =>
    obtain ⟨m₁, step, rest⟩ := Option.bind_eq_some_iff.mp pushed
    have undone : Undone False m m₁ c := pushChar_undone written (fun no => no.elim) step
    rw [ih (undone.1 ▸ written) rest, undone.1]

end Machine

/-- The option's text is read through: it is an option's bytes, no other
option's bytes end before it, and its whitespace fits. -/
def Spelled (docs : List Document) (d : Document) : Prop :=
  (∃ o ∈ docs, byteChars (canonical o) = canonical d) ∧
    (∀ o ∈ docs, byteChars (canonical o) <+: canonical d → byteChars (canonical o) = canonical d) ∧
    wsFits 0 (canonical d)

instance (docs : List Document) (d : Document) : Decidable (Spelled docs d) := by
  unfold Spelled
  infer_instance

theorem spelled_ascii {docs : List Document} {d : Document} (ascii : ∀ o ∈ docs, ∀ c ∈ canonical o, c.toNat < 0x80)
    (listed : d ∈ docs) :
    Spelled docs d ↔ (∀ o ∈ docs, canonical o <+: canonical d → canonical o = canonical d) ∧ wsFits 0 (canonical d) := by
  have same : ∀ o ∈ docs, byteChars (canonical o) = canonical o := fun o ho => byteChars_ascii (ascii o ho)
  constructor
  · rintro ⟨-, first, fits⟩
    refine ⟨fun o ho begins => ?_, fits⟩
    rw [← same o ho] at begins ⊢
    exact first o ho begins
  · rintro ⟨first, fits⟩
    refine ⟨⟨d, listed, same d listed⟩, fun o ho begins => ?_, fits⟩
    rw [same o ho] at begins ⊢
    exact first o ho begins

theorem Built.root {s : Schema} (h : Built s) : ∃ shape, Shows s.nodes 0 shape := by
  induction h with
  | any => exact ⟨_, any_shows⟩
  | compiled h =>
    obtain ⟨shape, -, shown⟩ := Schema.compile_shows h
    exact ⟨shape, shown⟩
  | withAny _ ih =>
    obtain ⟨shape, shown⟩ := ih
    exact ⟨shape, withAnyNode_shows shown⟩

theorem Built.reached {s : Schema} (h : Built s) {t : Text} {m : Machine} (pushed : (Machine.new s).push t = some m) :
    m.Sound ∧ m.schema = s := by
  obtain ⟨shape, root⟩ := h.root
  exact ⟨(Machine.new_sound root).push pushed, Machine.push_schema h.written pushed⟩

/-- Wherever a choice is awaited, an option's text is read and leaves the
machine where any other value would exactly if it is spelled. -/
theorem option_produced_iff {s : Schema} (built : Built s) {t : Text} {m : Machine}
    (reached : (Machine.new s).push t = some m) {n : Nat} {docs : List Document} {rest : List Frame}
    (shown : Shows s.nodes n (.choice docs)) (awaits : m.Awaits n rest) (d : Document) :
    (∃ m', m.push (canonical d) = some m' ∧ m'.Ended rest) ↔ Spelled docs d := by
  obtain ⟨sound, schema⟩ := built.reached reached
  obtain ⟨c, r, text, starts⟩ := canonical_starts d
  cases shown with
  | choice _ at_ =>
    rw [← schema] at at_
    obtain ⟨m₁, f, sound₁, stack, started, run, step⟩ := Machine.awaits_spell sound awaits at_ starts
    have pushed : m.push (canonical d) = (m₁.spell (docs.map canonical) [c]).bind fun m => m.push r := by
      rw [text, Machine.push, step]
      rfl
    have long : ∀ b ∈ (docs.map canonical).map byteChars, 1 ≤ b.length := by
      intro b hb
      obtain ⟨o, ho, rfl⟩ := List.mem_map.mp hb
      obtain ⟨d', -, rfl⟩ := List.mem_map.mp ho
      obtain ⟨x, l, text', first⟩ := canonical_starts d'
      rw [text', byteChars_eq, Document.flatMap_cons_ascii faithful_latin (startsValue_ascii first)]
      simp
    have noWs := JsonGrammar.startsValue_not_ws starts
    rw [pushed, Machine.spell_push_iff sound₁ stack started [c] r text, run, List.singleton_append, ← text]
    unfold Spelled
    rw [show wsFits 0 r = wsFits 0 (canonical d) by rw [text, wsFits, if_neg (by simp [noWs])]]
    refine and_congr (by simp) (and_congr_left fun _ => ?_)
    refine ⟨fun first o ho begins => ?_, fun first b hb _ begins => ?_⟩
    · have listed' := List.mem_map_of_mem (f := byteChars) (List.mem_map_of_mem (f := canonical) ho)
      exact first _ listed' (long _ listed') begins
    · obtain ⟨o, ho, rfl⟩ := List.mem_map.mp hb
      obtain ⟨d', hd', rfl⟩ := List.mem_map.mp ho
      exact first d' hd' begins

section Prefixes

def one : Document := .number ⟨['1'], one_number⟩

def twelve : Document :=
  have digits : JsonGrammar.Digits ['1', '2'] := ⟨by simp, by simp⟩
  .number ⟨['1', '2'], .mk .none digits (by simp) .none .none⟩

def spaced : Document := .string (List.replicate 17 ' ')

/-- Texts of which one begins another, one is not ASCII and one is spaces. -/
def options : List Document := [one, twelve, .string "é".toList, spaced, .string "a".toList]

def optionsSchema : Schema := ⟨[.choice (options.map canonical)]⟩

theorem options_built : Built optionsSchema :=
  .compiled (d := .object [("enum".toList, .array options)]) rfl

theorem option_produced_letter :
    (∃ m', (Machine.new optionsSchema).push (canonical (.string "a".toList)) = some m' ∧ m'.Ended []) ↔
      Spelled options (.string "a".toList) :=
  option_produced_iff options_built (t := []) rfl (.choice (by simp [options]) rfl) (.value rfl) _

/-- Not all options of one list can be produced. -/
theorem options_not_produced :
    (twelve ∈ options ∧ (Machine.new optionsSchema).push (canonical twelve) = none) ∧
      (Document.string "é".toList ∈ options ∧
        (Machine.new optionsSchema).push (canonical (.string "é".toList)) = none) ∧
      spaced ∈ options ∧ (Machine.new optionsSchema).push (canonical spaced) = none :=
  ⟨⟨by simp [options], by decide⟩, ⟨by simp [options], by decide⟩, by simp [options], by decide⟩

end Prefixes

end Vapi.Structured
