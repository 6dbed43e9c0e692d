import Vapi.Worker.Constraint
import Mathlib.Data.List.DropRight
import Mathlib.Data.List.Infix

/-!
# Generation tags in a chat template

The tags around an assistant turn are dropped before a template is compiled.
A dash in a tag takes the white space of the text next to it, and is dropped
with the tag.
-/

namespace Vapi.Tokenize

open Worker (isWhitespace)

/-- The place of the first match. -/
def find (pattern : Text) : Text → Option Nat
  | [] => if pattern = [] then some 0 else none
  | c :: rest => if pattern <+: c :: rest then some 0 else (find pattern rest).map (· + 1)

/-- A part of a text. There is none that begins after its end. -/
def slice (text : Text) (first last : Nat) : Option Text :=
  if first ≤ last ∧ last ≤ text.length then some ((text.take last).drop first) else none

def isTrimmed (c : Char) : Bool := c = '-' || c = ' ' || c = '\t'

def trimMatches (text : Text) : Text := (text.dropWhile isTrimmed).rdropWhile isTrimmed

def openMark : Text := ['{', '%']

def closeMark : Text := ['%', '}']

def generation : Text := "generation".toList

def endgeneration : Text := "endgeneration".toList

/-- The scan from tag to tag. Every turn is past a tag, so a turn for each character is enough. -/
def stripFrom : Nat → Text → Text → Option Text
  | 0, _, _ => none
  | turns + 1, out, rest =>
    match find openMark rest with
    | none => some (out ++ rest)
    | some start =>
      match find closeMark (rest.drop start) with
      | none => some (out ++ rest)
      | some endRel => do
        let last := start + endRel + 2
        let inner ← slice rest (start + 2) (last - 2)
        let inner := trimMatches inner
        let kept ← slice rest 0 (if inner = generation ∨ inner = endgeneration then start else last)
        let rest ← slice rest last rest.length
        stripFrom turns (out ++ kept) rest

def stripGenerationTags (text : Text) : Option Text := stripFrom (text.length + 1) [] text

/-- A text outside of tags. -/
structure Literal where
  text : Text
  plain : ¬openMark <:+: text

/-- A block tag, with or without its dashes. -/
structure BlockTag where
  left : Bool
  lead : Text
  body : Text
  trail : Text
  right : Bool
  blank : ∀ c ∈ lead ++ trail, isWhitespace c
  bare : ∀ c ∈ body.head?.toList ++ body.getLast?.toList, isWhitespace c = false ∧ c ≠ '-'
  whole : ¬closeMark <:+: body

namespace BlockTag

variable (tag : BlockTag)

def dash (b : Bool) : Text := if b then ['-'] else []

def inner : Text := dash tag.left ++ tag.lead ++ tag.body ++ tag.trail ++ dash tag.right

def text : Text := openMark ++ tag.inner ++ closeMark

def IsGeneration : Prop := tag.body = generation ∨ tag.body = endgeneration

instance : Decidable tag.IsGeneration := inferInstanceAs (Decidable (_ ∨ _))

end BlockTag

/-- Texts and tags in turn. -/
structure Template where
  first : Literal
  rest : List (BlockTag × Literal)

namespace Template

def textOf : Text → List (BlockTag × Literal) → Text
  | lit, [] => lit
  | lit, (tag, next) :: rest => lit ++ tag.text ++ textOf next.text rest

def text (t : Template) : Text := textOf t.first.text t.rest

def trimStart (b : Bool) (lit : Text) : Text := if b then lit.dropWhile isWhitespace else lit

def trimEnd (b : Bool) (lit : Text) : Text := if b then lit.rdropWhile isWhitespace else lit

/-- The text after a tag, without the generation tags and without what their dashes take. -/
def renderedFrom (trim : Bool) (lit : Text) : List (BlockTag × Literal) → Text
  | [] => trimStart trim lit
  | (tag, next) :: rest =>
    if tag.IsGeneration then trimEnd tag.left (trimStart trim lit) ++ renderedFrom tag.right next.text rest
    else trimStart trim lit ++ tag.text ++ renderedFrom false next.text rest

def rendered (t : Template) : Text := renderedFrom false t.first.text t.rest

def Clear (c : Option Char) : Prop := ∀ x ∈ c, isWhitespace x = false

/-- The tags have no closing brace at their start, the generation tags no other blanks than spaces and tabs, and
their dashes no white space to take. -/
def HarmlessFrom (trim : Bool) (lit : Text) : List (BlockTag × Literal) → Prop
  | [] => trim → Clear lit.head?
  | (tag, next) :: rest =>
    (trim → Clear lit.head?) ∧ tag.inner.head? ≠ some '}' ∧
      (tag.IsGeneration → (∀ c ∈ tag.lead ++ tag.trail, c = ' ' ∨ c = '\t') ∧ (tag.left → Clear lit.getLast?)) ∧
      HarmlessFrom (decide tag.IsGeneration && tag.right) next.text rest

def Harmless (t : Template) : Prop := HarmlessFrom false t.first.text t.rest

end Template

section Scan

variable {a b : Char} {lit r : Text}

/-- What is not in a text is found after it. -/
theorem find_pair (absent : ¬[a, b] <:+: lit) (next : r.head? ≠ some b) :
    find [a, b] (lit ++ r) = (find [a, b] r).map (· + lit.length) := by
  induction lit with
  | nil => simp
  | cons c lit ih =>
    have later : ¬[a, b] <:+: lit := fun h => absent (h.trans (List.suffix_cons c lit).isInfix)
    have here : ¬[a, b] <+: c :: (lit ++ r) := by
      intro h
      obtain ⟨rfl, second⟩ := List.cons_prefix_cons.mp h
      cases lit with
      | nil =>
        obtain ⟨t, is⟩ := second
        exact next (congrArg List.head? is.symm)
      | cons d lit =>
        obtain ⟨rfl, -⟩ := List.cons_prefix_cons.mp second
        exact absent ⟨[], lit, rfl⟩
    rw [List.cons_append, find, if_neg here, ih later, Option.map_map]
    rfl

theorem slice_append (x y z : Text) : slice (x ++ y ++ z) x.length (x.length + y.length) = some y := by
  have inside : x.length ≤ x.length + y.length ∧ x.length + y.length ≤ (x ++ y ++ z).length := by simp
  rw [slice, if_pos inside, ← List.length_append, List.take_left, List.drop_left]

/-- The tag's text is taken for that of a generation tag. -/
def Recognized (tag : BlockTag) : Prop := trimMatches tag.inner = generation ∨ trimMatches tag.inner = endgeneration

instance (tag : BlockTag) : Decidable (Recognized tag) := inferInstanceAs (Decidable (_ ∨ _))

theorem infix_of_append_left {x y : Text} (free : a ∉ x) (h : [a, b] <:+: x ++ y) : [a, b] <:+: y := by
  induction x with
  | nil => exact h
  | cons c x ih =>
    rcases List.infix_cons_iff.mp h with starts | later
    · obtain ⟨rfl, -⟩ := List.cons_prefix_cons.mp starts
      exact absurd List.mem_cons_self free
    · exact ih (fun mem => free (List.mem_cons_of_mem c mem)) later

theorem infix_of_append_right {x y : Text} (free : b ∉ y) (h : [a, b] <:+: x ++ y) : [a, b] <:+: x := by
  have back : [b, a] <:+: y.reverse ++ x.reverse := by
    rw [← List.reverse_append]
    exact List.reverse_infix.mpr h
  exact List.reverse_infix.mp (infix_of_append_left (by simpa using free) back)

theorem blank_free {text : Text} (blank : ∀ c ∈ text, isWhitespace c) {c : Char} (mark : isWhitespace c = false) :
    c ∉ text := fun mem => Bool.false_ne_true (mark.symm.trans (blank c mem))

theorem inner_whole (tag : BlockTag) : ¬closeMark <:+: tag.inner := by
  intro h
  have lead := blank_free (fun c mem => tag.blank c (List.mem_append_left _ mem)) (c := '%') (by decide)
  have trail := blank_free (fun c mem => tag.blank c (List.mem_append_right _ mem)) (c := '}') (by decide)
  have dashes : ∀ b, '%' ∉ BlockTag.dash b ∧ '}' ∉ BlockTag.dash b := by decide
  have inBody := infix_of_append_right trail (infix_of_append_right (dashes tag.right).2 h)
  rw [List.append_assoc] at inBody
  exact tag.whole (infix_of_append_left lead (infix_of_append_left (dashes tag.left).1 inBody))

/-- One turn of the scan. -/
theorem strip_tag (turns : Nat) (out : Text) (plain : ¬openMark <:+: lit) (tag : BlockTag) (rest : Text) :
    stripFrom (turns + 1) out (lit ++ tag.text ++ rest) =
      if tag.inner.head? = some '}' then none
      else stripFrom turns (out ++ (lit ++ if Recognized tag then [] else tag.text)) rest := by
  have opens : find openMark (lit ++ tag.text ++ rest) = some lit.length := by
    rw [List.append_assoc, openMark, find_pair plain (by simp [BlockTag.text, openMark])]
    simp [BlockTag.text, openMark, find]
  have from_ : (lit ++ tag.text ++ rest).drop lit.length = '{' :: '%' :: (tag.inner ++ (closeMark ++ rest)) := by
    rw [List.append_assoc, List.drop_left]
    simp [BlockTag.text, openMark]
  have closes : find closeMark ('{' :: '%' :: (tag.inner ++ (closeMark ++ rest))) =
      if tag.inner.head? = some '}' then some 1 else some (2 + tag.inner.length) := by
    have first : ¬closeMark <+: '{' :: '%' :: (tag.inner ++ (closeMark ++ rest)) := fun h =>
      absurd (List.cons_prefix_cons.mp h).1 (by decide)
    have after : find closeMark (tag.inner ++ (closeMark ++ rest)) = some tag.inner.length := by
      rw [closeMark, find_pair (inner_whole tag) (by simp)]
      simp [find]
    rw [find, if_neg first, find]
    by_cases early : tag.inner.head? = some '}'
    · obtain ⟨t, is⟩ := List.head?_eq_some_iff.mp early
      rw [if_pos early, is, if_pos ⟨t ++ (closeMark ++ rest), rfl⟩]
      rfl
    · have second : ¬closeMark <+: '%' :: (tag.inner ++ (closeMark ++ rest)) := by
        rintro ⟨t, is⟩
        have head := congrArg List.head? (List.cons.inj is).2.symm
        cases inner : tag.inner with
        | nil =>
          rw [inner] at head
          cases head
        | cons c text =>
          rw [inner] at head early
          exact early head
      rw [if_neg early, if_neg second, after, Option.map_some, Option.map_some, Nat.add_comm 2]
  rw [stripFrom, opens]
  dsimp only
  rw [from_, closes]
  by_cases early : tag.inner.head? = some '}'
  · have none_ : slice (lit ++ tag.text ++ rest) (lit.length + 2) (lit.length + 1 + 2 - 2) = none := if_neg (by omega)
    rw [if_pos early, if_pos early]
    dsimp only
    rw [none_]
    rfl
  · have size : tag.text.length = 2 + tag.inner.length + 2 := by
      simp only [BlockTag.text, openMark, closeMark, List.length_append, List.length_cons, List.length_nil]
    have inner : slice (lit ++ tag.text ++ rest) (lit.length + 2) (lit.length + (2 + tag.inner.length) + 2 - 2) =
        some tag.inner := by
      have part := slice_append (lit ++ openMark) tag.inner (closeMark ++ rest)
      rw [Nat.add_sub_cancel]
      simpa [BlockTag.text, openMark, Nat.add_assoc] using part
    have kept : slice (lit ++ tag.text ++ rest) 0
        (if trimMatches tag.inner = generation ∨ trimMatches tag.inner = endgeneration then lit.length
          else lit.length + (2 + tag.inner.length) + 2) = some (lit ++ if Recognized tag then [] else tag.text) := by
      by_cases known : Recognized tag
      · have named : trimMatches tag.inner = generation ∨ trimMatches tag.inner = endgeneration := known
        rw [if_pos known, if_pos named]
        simpa using slice_append [] lit (tag.text ++ rest)
      · have unnamed : ¬(trimMatches tag.inner = generation ∨ trimMatches tag.inner = endgeneration) := known
        rw [if_neg known, if_neg unnamed]
        have part := slice_append [] (lit ++ tag.text) rest
        rw [List.length_append, size] at part
        simpa [Nat.add_assoc] using part
    have after : slice (lit ++ tag.text ++ rest) (lit.length + (2 + tag.inner.length) + 2)
        (lit ++ tag.text ++ rest).length = some rest := by
      have part := slice_append (lit ++ tag.text) rest []
      rw [List.append_nil, ← List.length_append, List.length_append, size] at part
      simpa [Nat.add_assoc] using part
    rw [if_neg early, if_neg early]
    dsimp only
    rw [inner, Option.bind_eq_bind, Option.bind_some, kept, Option.bind_some, after, Option.bind_some]

/-- Two ways to cut a text where a kind of characters ends are the same. -/
theorem cut_unique {q : Char → Bool} {a x b y : Text} (ha : ∀ c ∈ a, q c) (hb : ∀ c ∈ b, q c)
    (hx : ∀ c ∈ x.head?, q c = false) (hy : ∀ c ∈ y.head?, q c = false) (same : a ++ x = b ++ y) : a = b ∧ x = y := by
  have stops : ∀ {x : Text}, (∀ c ∈ x.head?, q c = false) → x.takeWhile q = [] := by
    intro x other
    cases x with
    | nil => rfl
    | cons c x => exact List.takeWhile_cons_of_neg (by rw [other c rfl]; exact Bool.false_ne_true)
  have taken := congrArg (List.takeWhile q) same
  rw [List.takeWhile_append_of_pos ha, List.takeWhile_append_of_pos hb, stops hx, stops hy, List.append_nil,
    List.append_nil] at taken
  exact ⟨taken, List.append_cancel_left (taken ▸ same)⟩

theorem cut_unique_last {q : Char → Bool} {a x b y : Text} (ha : ∀ c ∈ a, q c) (hb : ∀ c ∈ b, q c)
    (hx : ∀ c ∈ x.getLast?, q c = false) (hy : ∀ c ∈ y.getLast?, q c = false) (same : x ++ a = y ++ b) :
    x = y ∧ a = b := by
  have back := congrArg List.reverse same
  rw [List.reverse_append, List.reverse_append] at back
  obtain ⟨same_, cut⟩ := cut_unique (q := q) (by simpa using ha) (by simpa using hb) (by simpa using hx)
    (by simpa using hy) back
  exact ⟨List.reverse_injective cut, List.reverse_injective same_⟩

theorem trimMatches_parts (text : Text) : ∃ front back, text = front ++ (trimMatches text ++ back) ∧
    (∀ c ∈ front, isTrimmed c) ∧ (∀ c ∈ back, isTrimmed c) ∧
    (∀ c ∈ (trimMatches text).head?, isTrimmed c = false) ∧ ∀ c ∈ (trimMatches text).getLast?, isTrimmed c = false := by
  refine ⟨text.takeWhile isTrimmed, (text.dropWhile isTrimmed).rtakeWhile isTrimmed, ?_, ?_, ?_, ?_, ?_⟩
  · rw [trimMatches, List.rdropWhile_append_rtakeWhile, List.takeWhile_append_dropWhile]
  · exact fun c mem => List.mem_takeWhile_imp mem
  · exact fun c mem => List.mem_rtakeWhile_imp mem
  · intro c mem
    obtain ⟨t, is⟩ := List.rdropWhile_prefix isTrimmed (l := text.dropWhile isTrimmed)
    have head := List.head?_dropWhile_not isTrimmed text
    obtain ⟨u, starts⟩ := List.head?_eq_some_iff.mp (Option.mem_def.mp mem)
    rw [trimMatches] at starts
    rw [← is, starts] at head
    simpa using head
  · intro c mem
    have some_ : trimMatches text ≠ [] := by
      intro nil
      rw [nil] at mem
      cases mem
    have last := List.rdropWhile_last_not isTrimmed (text.dropWhile isTrimmed) some_
    rw [Option.mem_def, List.getLast?_eq_some_getLast some_, Option.some.injEq] at mem
    rw [← mem]
    exact Bool.eq_false_iff.mpr last

/-- So is what stands between characters of a kind. -/
theorem core_unique {q : Char → Bool} {a x b a' y b' : Text} (ha : ∀ c ∈ a, q c) (hb : ∀ c ∈ b, q c)
    (ha' : ∀ c ∈ a', q c) (hb' : ∀ c ∈ b', q c) (hx : ∀ c ∈ x.head?.toList ++ x.getLast?.toList, q c = false)
    (hy : ∀ c ∈ y.head?.toList ++ y.getLast?.toList, q c = false) (some_ : x ≠ [])
    (same : a ++ (x ++ b) = a' ++ (y ++ b')) : a = a' ∧ x = y ∧ b = b' := by
  have some_' : y ≠ [] := by
    rintro rfl
    obtain ⟨c, t, rfl⟩ := List.exists_cons_of_ne_nil some_
    have mem : c ∈ a' ++ b' := by
      rw [List.nil_append] at same
      rw [← same]
      simp
    have inside : q c = true := (List.mem_append.mp mem).elim (ha' c) (hb' c)
    rw [hx c (by simp)] at inside
    cases inside
  have head : ∀ {x b : Text}, x ≠ [] → (∀ c ∈ x.head?.toList ++ x.getLast?.toList, q c = false) →
      ∀ c ∈ (x ++ b).head?, q c = false := by
    intro x b some_ hx c mem
    rw [List.head?_append_of_ne_nil x some_] at mem
    exact hx c (List.mem_append_left _ (Option.mem_toList.mpr mem))
  have last : ∀ {x : Text}, (∀ c ∈ x.head?.toList ++ x.getLast?.toList, q c = false) →
      ∀ c ∈ x.getLast?, q c = false := fun hx c mem => hx c (List.mem_append_right _ (Option.mem_toList.mpr mem))
  obtain ⟨front, rest⟩ := cut_unique ha ha' (head some_ hx) (head some_' hy) same
  obtain ⟨core, back⟩ := cut_unique_last hb hb' (last hx) (last hy) rest
  exact ⟨front, core, back⟩

def isWide (c : Char) : Bool := isWhitespace c || c = '-'

theorem wide_of_trimmed {c : Char} (trimmed : isTrimmed c) : isWide c := by
  simp only [isTrimmed, Bool.or_eq_true, decide_eq_true_eq] at trimmed
  rcases trimmed with (rfl | rfl) | rfl <;> rfl

/-- A tag is taken for a generation tag where it is one and has no other blanks than spaces and tabs. -/
theorem recognized_iff (tag : BlockTag) :
    Recognized tag ↔ tag.IsGeneration ∧ ∀ c ∈ tag.lead ++ tag.trail, c = ' ' ∨ c = '\t' := by
  have dashes : ∀ b, ∀ c ∈ BlockTag.dash b, c = '-' := by
    intro b c mem
    cases b
    · cases mem
    · exact List.mem_singleton.mp mem
  have inner : tag.inner =
      BlockTag.dash tag.left ++ tag.lead ++ (tag.body ++ (tag.trail ++ BlockTag.dash tag.right)) := by
    simp [BlockTag.inner]
  obtain ⟨front, back, is, inFront, inBack, head, last⟩ := trimMatches_parts tag.inner
  replace is := inner.symm.trans is
  have named : ∀ name, (∀ c ∈ name, isWide c = false) → name ≠ [] →
      (trimMatches tag.inner = name ↔ tag.body = name ∧ ∀ c ∈ tag.lead ++ tag.trail, c = ' ' ∨ c = '\t') := by
    intro name letters some_
    have ends : ∀ c ∈ name.head?.toList ++ name.getLast?.toList, c ∈ name := by
      intro c mem
      rcases List.mem_append.mp mem with mem | mem
      · exact List.mem_of_mem_head? (Option.mem_toList.mp mem)
      · exact List.mem_of_getLast? (Option.mem_toList.mp mem)
    constructor
    · intro trimmed
      rw [trimmed] at is
      have wide : ∀ {b text}, (∀ c ∈ text, isWhitespace c) → ∀ c ∈ BlockTag.dash b ++ text, isWide c := by
        intro b text blank c mem
        rcases List.mem_append.mp mem with mem | mem
        · rw [dashes b c mem]
          rfl
        · simp [isWide, blank c mem]
      have lead : ∀ c ∈ tag.lead, isWhitespace c := fun c mem => tag.blank c (List.mem_append_left _ mem)
      have trail : ∀ c ∈ tag.trail, isWhitespace c := fun c mem => tag.blank c (List.mem_append_right _ mem)
      obtain ⟨fronts, same, backs⟩ := core_unique (q := isWide) (fun c mem => wide_of_trimmed (inFront c mem))
        (fun c mem => wide_of_trimmed (inBack c mem)) (wide lead)
        (fun c mem => wide trail (b := tag.right) c (List.mem_append.mpr (List.mem_append.mp mem).symm))
        (fun c mem => letters c (ends c mem)) (fun c mem => by simp [isWide, tag.bare c mem]) some_ is.symm
      refine ⟨same.symm, fun c mem => ?_⟩
      have trimmed : isTrimmed c := by
        rcases List.mem_append.mp mem with mem | mem
        · exact inFront c (fronts ▸ List.mem_append_right _ mem)
        · exact inBack c (backs ▸ List.mem_append_left _ mem)
      have white := tag.blank c mem
      simp only [isTrimmed, Bool.or_eq_true, decide_eq_true_eq] at trimmed
      rcases trimmed with (rfl | space) | tab
      · cases white
      · exact .inl space
      · exact .inr tab
    · rintro ⟨rfl, blanks⟩
      have trimmed : ∀ {b text}, (∀ c ∈ text, c = ' ' ∨ c = '\t') → ∀ c ∈ BlockTag.dash b ++ text, isTrimmed c := by
        intro b text blank c mem
        rcases List.mem_append.mp mem with mem | mem
        · rw [dashes b c mem]
          rfl
        · rcases blank c mem with rfl | rfl <;> rfl
      have narrow : ∀ c ∈ tag.body.head?.toList ++ tag.body.getLast?.toList, isTrimmed c = false := fun c mem =>
        Bool.eq_false_iff.mpr fun trimmed => absurd (wide_of_trimmed trimmed) (by simp [letters c (ends c mem)])
      obtain ⟨-, same, -⟩ := core_unique (q := isTrimmed) (trimmed fun c mem => blanks c (List.mem_append_left _ mem))
        (fun c mem => trimmed (b := tag.right) (fun c mem => blanks c (List.mem_append_right _ mem)) c
          (List.mem_append.mpr (List.mem_append.mp mem).symm)) inFront inBack narrow
        (fun c mem => (List.mem_append.mp mem).elim (fun mem => head c (Option.mem_toList.mp mem)) fun mem =>
          last c (Option.mem_toList.mp mem)) some_ is
      exact same.symm
  have apart : ∀ name ∈ [generation, endgeneration], (∀ c ∈ name, isWide c = false) ∧ name ≠ [] := by
    have narrow : ∀ {name : Text}, (name.all fun c => !isWide c) → ∀ c ∈ name, isWide c = false := by simp
    exact List.forall_mem_cons.mpr ⟨⟨narrow rfl, nofun⟩, List.forall_mem_singleton.mpr ⟨narrow rfl, nofun⟩⟩
  rw [Recognized, BlockTag.IsGeneration, named generation (apart _ (by simp)).1 (apart _ (by simp)).2,
    named endgeneration (apart _ (by simp)).1 (apart _ (by simp)).2, or_and_right]

end Scan

namespace Template

/-- What the scan leaves of a template. -/
def scanned : Text → List (BlockTag × Literal) → Text
  | lit, [] => lit
  | lit, (tag, next) :: rest => lit ++ (if Recognized tag then [] else tag.text) ++ scanned next.text rest

/-- The scan goes over all the tags, up to one that begins with a closing brace. -/
theorem strip_pieces (turns : Nat) (out : Text) (lit : Literal) (rest : List (BlockTag × Literal))
    (enough : rest.length < turns) :
    stripFrom turns out (textOf lit.text rest) =
      if ∃ p ∈ rest, p.1.inner.head? = some '}' then none else some (out ++ scanned lit.text rest) := by
  induction rest generalizing turns out lit with
  | nil =>
    obtain ⟨turns, rfl⟩ := Nat.exists_eq_succ_of_ne_zero (by omega : turns ≠ 0)
    have none_ : find openMark lit.text = none := by
      have absent := find_pair (r := []) lit.plain (by simp)
      rw [List.append_nil] at absent
      exact absent
    rw [textOf, stripFrom, none_, if_neg (by simp)]
    rfl
  | cons piece rest ih =>
    obtain ⟨tag, next⟩ := piece
    obtain ⟨turns, rfl⟩ := Nat.exists_eq_succ_of_ne_zero (by omega : turns ≠ 0)
    rw [textOf, strip_tag turns out lit.plain tag, ih turns _ next (by simpa using enough)]
    by_cases early : tag.inner.head? = some '}'
    · rw [if_pos early, if_pos ⟨(tag, next), List.mem_cons_self, early⟩]
    · have same : (∃ p ∈ (tag, next) :: rest, p.1.inner.head? = some '}') ↔ ∃ p ∈ rest, p.1.inner.head? = some '}' := by
        simp [early]
      simp only [if_neg early, same, scanned, List.append_assoc]

theorem length_textOf (lit : Text) (rest : List (BlockTag × Literal)) : rest.length ≤ (textOf lit rest).length := by
  induction rest generalizing lit with
  | nil => exact Nat.zero_le _
  | cons piece rest ih =>
    have some_ : 0 < piece.1.text.length := by simp [BlockTag.text, openMark]
    have later := ih piece.2.text
    rw [textOf, List.length_append, List.length_append, List.length_cons]
    omega

/-- A dash takes nothing where there is no white space, and something where there is. -/
theorem trimStart_spec (b : Bool) (lit : Text) : (trimStart b lit).length ≤ lit.length ∧
    ((trimStart b lit).length = lit.length ↔ (b → Clear lit.head?)) := by
  cases b with
  | false => simp [trimStart]
  | true =>
    have suffix : lit.dropWhile isWhitespace <:+ lit := List.dropWhile_suffix _
    refine ⟨suffix.length_le, ?_⟩
    have all : (lit.dropWhile isWhitespace).length = lit.length ↔ lit.dropWhile isWhitespace = lit :=
      ⟨suffix.eq_of_length, congrArg List.length⟩
    rw [trimStart, if_pos rfl, all]
    cases lit with
    | nil => simp [Clear]
    | cons c lit =>
      cases white : isWhitespace c
      · simp [Clear, white]
      · rw [List.dropWhile_cons_of_pos white]
        constructor
        · intro same
          have shorter := (List.dropWhile_suffix (l := lit) isWhitespace).length_le
          rw [same, List.length_cons] at shorter
          omega
        · intro clear
          rw [clear rfl c rfl] at white
          cases white

theorem trimEnd_spec (b : Bool) (lit : Text) : (trimEnd b lit).length ≤ lit.length ∧
    ((trimEnd b lit).length = lit.length ↔ (b → Clear lit.getLast?)) := by
  have start := trimStart_spec b lit.reverse
  rw [List.head?_reverse, List.length_reverse] at start
  have mirror : (trimEnd b lit).length = (trimStart b lit.reverse).length := by
    cases b
    · simp [trimEnd, trimStart]
    · simp [trimEnd, trimStart, List.rdropWhile]
  rwa [mirror]

theorem trimStart_eq {b : Bool} {lit : Text} (clear : b → Clear lit.head?) : trimStart b lit = lit := by
  have length := (trimStart_spec b lit).2.mpr clear
  cases b
  · rfl
  · exact (List.dropWhile_suffix isWhitespace).eq_of_length length

theorem trimEnd_eq {b : Bool} {lit : Text} (clear : b → Clear lit.getLast?) : trimEnd b lit = lit := by
  have length := (trimEnd_spec b lit).2.mpr clear
  cases b
  · rfl
  · exact (List.rdropWhile_prefix isWhitespace lit).eq_of_length length

/-- What is rendered is no longer than what the scan leaves, and as long only where there is no harm. -/
theorem rendered_length (trim : Bool) (lit : Text) (rest : List (BlockTag × Literal))
    (open_ : ∀ p ∈ rest, p.1.inner.head? ≠ some '}') :
    (renderedFrom trim lit rest).length ≤ (scanned lit rest).length ∧
      ((renderedFrom trim lit rest).length = (scanned lit rest).length → HarmlessFrom trim lit rest) := by
  induction rest generalizing trim lit with
  | nil => exact ⟨(trimStart_spec trim lit).1, (trimStart_spec trim lit).2.mp⟩
  | cons piece rest ih =>
    obtain ⟨tag, next⟩ := piece
    obtain ⟨shorter, started⟩ := trimStart_spec trim lit
    have first := open_ (tag, next) List.mem_cons_self
    by_cases gen : tag.IsGeneration
    · obtain ⟨less, harmless⟩ := ih tag.right next.text fun p mem => open_ p (List.mem_cons_of_mem _ mem)
      obtain ⟨shorter', -⟩ := trimEnd_spec tag.left (trimStart trim lit)
      by_cases known : Recognized tag
      · simp only [renderedFrom, scanned, if_pos gen, if_pos known, List.length_append, List.length_nil]
        refine ⟨by omega, fun same => ?_⟩
        have clear := started.mp (by omega)
        rw [trimStart_eq clear] at same shorter'
        have ended := (trimEnd_spec tag.left lit).2.mp (by omega)
        refine ⟨clear, first, fun _ => ⟨((recognized_iff tag).mp known).2, ended⟩, ?_⟩
        rw [decide_eq_true gen]
        exact harmless (by omega)
      · have some_ : 0 < tag.text.length := by simp [BlockTag.text, openMark]
        simp only [renderedFrom, scanned, if_pos gen, if_neg known, List.length_append]
        exact ⟨by omega, fun same => absurd same (by omega)⟩
    · obtain ⟨less, harmless⟩ := ih false next.text fun p mem => open_ p (List.mem_cons_of_mem _ mem)
      have unknown : ¬Recognized tag := fun known => gen ((recognized_iff tag).mp known).1
      simp only [renderedFrom, scanned, if_neg gen, if_neg unknown, List.length_append]
      refine ⟨by omega, fun same => ⟨started.mp (by omega), first, fun gen' => absurd gen' gen, ?_⟩⟩
      rw [decide_eq_false gen]
      exact harmless (by omega)

theorem harmless_rendered (trim : Bool) (lit : Text) (rest : List (BlockTag × Literal))
    (harmless : HarmlessFrom trim lit rest) :
    renderedFrom trim lit rest = scanned lit rest ∧ ∀ p ∈ rest, p.1.inner.head? ≠ some '}' := by
  induction rest generalizing trim lit with
  | nil => exact ⟨trimStart_eq harmless, nofun⟩
  | cons piece rest ih =>
    obtain ⟨tag, next⟩ := piece
    obtain ⟨started, first, blanks, later⟩ := harmless
    obtain ⟨same, others⟩ := ih _ _ later
    refine ⟨?_, fun p mem => (List.mem_cons.mp mem).elim (fun is => is ▸ first) (others p)⟩
    by_cases gen : tag.IsGeneration
    · have known : Recognized tag := (recognized_iff tag).mpr ⟨gen, (blanks gen).1⟩
      rw [decide_eq_true gen, Bool.true_and] at same
      rw [renderedFrom, if_pos gen, scanned, if_pos known, trimStart_eq started, trimEnd_eq (blanks gen).2, same,
        List.append_nil]
    · have unknown : ¬Recognized tag := fun known => gen ((recognized_iff tag).mp known).1
      rw [decide_eq_false gen, Bool.false_and] at same
      rw [renderedFrom, if_neg gen, scanned, if_neg unknown, trimStart_eq started, same]

/-- Stripping a template's text renders it but for three things: a tag that begins with a closing brace, a line break
within a generation tag, and white space next to one's dash. -/
theorem strip_renders_iff (t : Template) : stripGenerationTags t.text = some t.rendered ↔ t.Harmless := by
  rw [stripGenerationTags, text, strip_pieces _ _ _ _ (Nat.lt_succ_of_le (length_textOf t.first.text t.rest)),
    List.nil_append, rendered, Harmless]
  constructor
  · intro same
    split at same
    · cases same
    · rename_i open_
      refine (rendered_length false t.first.text t.rest fun p mem brace => open_ ⟨p, mem, brace⟩).2 ?_
      rw [Option.some.inj same]
  · intro harmless
    obtain ⟨same, open_⟩ := harmless_rendered false t.first.text t.rest harmless
    rw [if_neg fun brace => brace.elim fun p found => open_ p found.1 found.2, same]

/-- A generation tag with a dash after a space. -/
def spaced : Template where
  first := ⟨"a ".toList, by decide⟩
  rest := [(⟨true, [' '], generation, [' '], false, List.all_eq_true.mp rfl,
    List.forall_mem_cons.mpr ⟨⟨rfl, by decide⟩, List.forall_mem_singleton.mpr ⟨rfl, by decide⟩⟩, by decide⟩,
    ⟨"b".toList, by decide⟩)]

/-- The space stays. -/
theorem dash_lost : stripGenerationTags spaced.text = some "a b".toList ∧ spaced.rendered = "ab".toList ∧
    stripGenerationTags spaced.text ≠ some spaced.rendered := by
  refine ⟨?_, ?_, ?_⟩ <;> decide +kernel

end Template

end Vapi.Tokenize
