import Vapi.Gateway.Agree

/-!
# Deltas cut elsewhere

A parser makes the same of a text however it is cut into deltas, as long as no
cut goes through a marker.
-/

namespace Vapi.Gateway

/-- The markers of a format. -/
def OutputFormat.markers (fmt : OutputFormat) : List Text :=
  fmt.thinkOpen.toList ++ fmt.thinkClose.toList ++ [fmt.toolStart, fmt.toolEnd]

theorem OutputFormat.marker_some (fmt : OutputFormat) {m : Text} (mem : m ∈ fmt.markers) : m ≠ [] := by
  obtain ⟨opener, closer, start, stop⟩ := fmt.marked
  simp only [markers, List.mem_append, Option.mem_toList, List.mem_cons, List.not_mem_nil, or_false] at mem
  rintro rfl
  rcases mem with (is | is) | is | is
  · exact opener is
  · exact closer is
  · exact start is.symm
  · exact stop is.symm

/-- The marker begins in one text and ends in the next. -/
def Straddles (m a b : Text) : Prop := ∃ x y, x ≠ [] ∧ y ≠ [] ∧ m = x ++ y ∧ x <:+ a ∧ y <+: b

theorem Straddles.of_suffix {m a a' b : Text} (h : Straddles m a' b) (suffix : a' <:+ a) : Straddles m a b := by
  obtain ⟨x, y, hx, hy, is, left, right⟩ := h
  exact ⟨x, y, hx, hy, is, left.trans suffix, right⟩

theorem straddles_iff {m a b : Text} :
    Straddles m a b ↔ ∃ i ∈ List.range m.length, 0 < i ∧ m.take i <:+ a ∧ m.drop i <+: b := by
  constructor
  · rintro ⟨x, y, hx, hy, rfl, left, right⟩
    have hx := List.length_pos_iff.mpr hx
    have hy := List.length_pos_iff.mpr hy
    refine ⟨x.length, List.mem_range.mpr (by rw [List.length_append]; omega), hx, ?_⟩
    rw [List.take_left, List.drop_left]
    exact ⟨left, right⟩
  · rintro ⟨i, mem, positive, left, right⟩
    have short := List.mem_range.mp mem
    refine ⟨m.take i, m.drop i, ?_, ?_, (List.take_append_drop i m).symm, left, right⟩
    · exact List.length_pos_iff.mp (by rw [List.length_take]; omega)
    · exact List.length_pos_iff.mp (by rw [List.length_drop]; omega)

instance (m a b : Text) : Decidable (Straddles m a b) := decidable_of_iff _ straddles_iff.symm

theorem cut_nil {m : Text} (some_ : m ≠ []) : cut m [] = none := if_neg some_

/-- What a cut leaves out is the marker. -/
theorem cut_eq {m text before after : Text} (is : cut m text = some (before, after)) :
    text = before ++ m ++ after := by
  induction text generalizing before with
  | nil =>
    unfold cut at is
    split at is
    · rename_i empty
      cases is
      simp [empty]
    · cases is
  | cons c text ih =>
    unfold cut at is
    split at is
    · rename_i starts
      cases is
      obtain ⟨rest, same⟩ := List.isPrefixOf_iff_prefix.mp starts
      rw [← same, List.drop_left, List.nil_append]
    · obtain ⟨⟨u, v⟩, found, pair⟩ := Option.map_eq_some_iff.mp is
      cases pair
      rw [ih found]
      rfl

theorem cut_append_some {m a before after : Text} (b : Text) (is : cut m a = some (before, after)) (some_ : m ≠ []) :
    cut m (a ++ b) = some (before, after ++ b) := by
  induction a generalizing before with
  | nil =>
    rw [cut_nil some_] at is
    cases is
  | cons c a ih =>
    rw [List.cons_append]
    unfold cut at is ⊢
    split at is
    · rename_i starts
      cases is
      obtain ⟨rest, same⟩ := List.isPrefixOf_iff_prefix.mp starts
      have longer : m.isPrefixOf (c :: (a ++ b)) = true :=
        List.isPrefixOf_iff_prefix.mpr ⟨rest ++ b, by rw [← List.append_assoc, same, List.cons_append]⟩
      rw [if_pos longer, ← List.cons_append, ← same, List.append_assoc, List.drop_left, List.drop_left]
    · rename_i starts
      obtain ⟨⟨u, v⟩, found, pair⟩ := Option.map_eq_some_iff.mp is
      cases pair
      have later : ¬m.isPrefixOf (c :: (a ++ b)) = true := by
        rw [List.isPrefixOf_iff_prefix] at starts ⊢
        rw [← List.cons_append]
        intro pre
        refine starts (List.prefix_of_prefix_length_le pre (List.prefix_append _ b) ?_)
        rw [cut_eq found]
        simp
        omega
      rw [if_neg later, ih found]
      rfl

theorem cut_append_none {m a b : Text} (is : cut m a = none) (some_ : m ≠ []) (whole : ¬Straddles m a b) :
    cut m (a ++ b) = (cut m b).map fun p => (a ++ p.1, p.2) := by
  induction a with
  | nil => simp
  | cons c a ih =>
    rw [List.cons_append]
    unfold cut at is
    split at is
    · cases is
    · rename_i starts
      have later : ¬m.isPrefixOf (c :: (a ++ b)) = true := by
        rw [List.isPrefixOf_iff_prefix] at starts ⊢
        rw [← List.cons_append]
        intro pre
        -- a marker that reaches past the cut would straddle it
        rcases List.prefix_or_prefix_of_prefix pre (List.prefix_append _ b) with inside | past
        · exact starts inside
        · obtain ⟨y, rfl⟩ := past
          have rest : y ≠ [] := by
            rintro rfl
            exact starts (by simp)
          exact whole ⟨c :: a, y, by simp, rest, rfl, List.suffix_rfl, (List.prefix_append_right_inj _).mp pre⟩
      have found := ih (Option.map_eq_none_iff.mp is) fun h => whole (h.of_suffix (List.suffix_cons c a))
      rw [cut, if_neg later, found, Option.map_map]
      rfl

/-- A text without a cut has no marker anywhere. -/
theorem not_infix_of_cut {m text : Text} (is : cut m text = none) (some_ : m ≠ []) : ¬m <:+: text := by
  rintro ⟨u, v, rfl⟩
  induction u with
  | nil =>
    rw [List.nil_append] at is
    cases m with
    | nil => exact some_ rfl
    | cons c m =>
      have starts : (c :: m).isPrefixOf (c :: (m ++ v)) = true :=
        List.isPrefixOf_iff_prefix.mpr (List.prefix_append (c :: m) v)
      rw [List.cons_append, cut, if_pos starts] at is
      cases is
  | cons c u ih =>
    rw [List.cons_append, List.cons_append, cut] at is
    split at is
    · cases is
    · exact ih (Option.map_eq_none_iff.mp is)

theorem takeAll_append (out : ParsedOutput) (xs ys : List Piece) : out.takeAll (xs ++ ys) = (out.takeAll xs).takeAll ys :=
  List.foldl_append

/-- The same parser is left, and the pieces say the same. -/
def Same (x y : OutputParser × List Piece) : Prop :=
  x.1 = y.1 ∧ ∀ out : ParsedOutput, out.takeAll x.2 = out.takeAll y.2

theorem Same.refl (x : OutputParser × List Piece) : Same x x := ⟨rfl, fun _ => rfl⟩

theorem Same.trans {x y z : OutputParser × List Piece} (h : Same x y) (k : Same y z) : Same x z :=
  ⟨h.1.trans k.1, fun out => (h.2 out).trans (k.2 out)⟩

theorem Same.map (f : OutputParser → OutputParser) {x y : OutputParser × List Piece} (h : Same x y) :
    Same (f x.1, x.2) (f y.1, y.2) := ⟨congrArg f h.1, h.2⟩

theorem Same.prepend (xs : List Piece) {x y : OutputParser × List Piece} (h : Same x y) :
    Same (x.1, xs ++ x.2) (y.1, xs ++ y.2) :=
  ⟨h.1, fun out => by rw [takeAll_append, takeAll_append, h.2]⟩

namespace OutputParser

variable (reader : CallReader)

/-- A parser inside the reasoning knows how it ends. -/
def Sound (p : OutputParser) : Prop := p.inThink → p.fmt.thinkClose.isSome

theorem content_fields (p : OutputParser) (text : Text) :
    (p.content text).1 = { p with trimLeading := (p.content text).1.trimLeading } := by
  unfold content
  split <;> rfl

/-- Content that comes in two parts. -/
theorem content_append (p : OutputParser) (a x : Text) :
    Same (p.content (a ++ x))
      (((p.content a).1.content x).1, (p.content a).2 ++ ((p.content a).1.content x).2) := by
  have say : ∀ (out : ParsedOutput) (u v : Text),
      out.takeAll (if u ++ v = [] then [] else [.content (u ++ v)]) =
        out.takeAll ((if u = [] then [] else [.content u]) ++ if v = [] then [] else [.content v]) := by
    intro out u v
    by_cases hu : u = [] <;> by_cases hv : v = [] <;>
      simp [hu, hv, ParsedOutput.takeAll, ParsedOutput.take]
  by_cases trim : p.trimLeading = true
  · by_cases breaks : a.dropWhile isBreak = []
    · have all : (a ++ x).dropWhile isBreak = x.dropWhile isBreak := by
        rw [List.dropWhile_append, breaks]
        rfl
      simp only [content, trim, ↓reduceIte, breaks, all, List.isEmpty_nil, List.nil_append]
      exact .refl _
    · have some_ : (a ++ x).dropWhile isBreak = a.dropWhile isBreak ++ x := by
        rw [List.dropWhile_append, if_neg (by simpa using breaks)]
      have left : (a.dropWhile isBreak).isEmpty = false := by simpa using breaks
      have left' : (a.dropWhile isBreak ++ x).isEmpty = false := by simp [breaks]
      simp only [content, trim, ↓reduceIte, some_, left, left', Bool.false_eq_true]
      exact ⟨rfl, fun out => say out _ _⟩
  · simp only [content, trim, ↓reduceIte, Bool.false_eq_true]
    exact ⟨rfl, fun out => say out _ _⟩

/-- A turn takes something, from the beginning. -/
theorem turn_takes {p : OutputParser} (sound : p.Sound) {rest : Text} (some_ : rest ≠ []) :
    ∃ taken, taken ≠ [] ∧ taken ++ (p.turn reader rest).2.2 = rest := by
  have left : ∀ {m before after : Text}, m ≠ [] → cut m rest = some (before, after) →
      ∃ taken, taken ≠ [] ∧ taken ++ after = rest :=
    fun {m before after} marker is => ⟨before ++ m, by simp [marker], (cut_eq is).symm⟩
  have none_ : ∃ taken : Text, taken ≠ [] ∧ taken ++ [] = rest := ⟨rest, some_, List.append_nil rest⟩
  have marked := fun m => p.fmt.marker_some (m := m)
  simp only [OutputFormat.markers, List.mem_append, Option.mem_toList, List.mem_cons] at marked
  unfold turn
  split
  · rename_i think
    obtain ⟨m, is⟩ := Option.isSome_iff_exists.mp (sound think)
    rw [is, Option.getD_some]
    split
    · rename_i found
      exact left (marked m (by simp [is])) found
    · exact none_
  · split
    · split
      · rename_i found
        exact left (marked _ (by simp)) found
      · exact none_
    · split
      · rename_i found
        split
        · split
          · exact left (marked _ (by simp)) found
          · rename_i opens _
            obtain ⟨m, is, found⟩ := Option.bind_eq_some_iff.mp opens
            exact left (marked m (by simp [is])) found
        · exact left (marked _ (by simp)) found
      · rename_i opens
        obtain ⟨m, is, found⟩ := Option.bind_eq_some_iff.mp opens
        exact left (marked m (by simp [is])) found
      · exact none_

theorem turn_shorter {p : OutputParser} (sound : p.Sound) {rest : Text} (some_ : rest ≠ []) :
    (p.turn reader rest).2.2.length < rest.length := by
  obtain ⟨taken, some_', is⟩ := turn_takes reader sound some_
  have positive := List.length_pos_iff.mpr some_'
  have lengths := congrArg List.length is
  rw [List.length_append] at lengths
  omega

theorem turn_sound {p : OutputParser} (sound : p.Sound) (rest : Text) : (p.turn reader rest).1.Sound := by
  obtain ⟨here, -⟩ := p.turn_follows reader rest
  have opened : (p.scan.turn p.fmt rest).1.inThink → p.inThink ∨ p.fmt.thinkOpen.isSome := by
    unfold Scan.turn
    split
    · rename_i think
      exact fun _ => .inl think
    · split
      · split <;> exact .inl
      · split
        · rename_i opens
          obtain ⟨m, is, -⟩ := Option.bind_eq_some_iff.mp opens
          exact fun _ => .inr (is ▸ rfl)
        · exact .inl
        · rename_i opens
          obtain ⟨m, is, -⟩ := Option.bind_eq_some_iff.mp opens
          exact fun _ => .inr (is ▸ rfl)
        · exact .inl
  intro think
  rw [here.fmt]
  have think : (p.turn reader rest).1.scan.inThink := think
  rw [here.scan] at think
  exact (opened think).elim sound p.fmt.closes

/-- More turns than a text is long are no more. -/
theorem pushFrom_enough {p : OutputParser} (sound : p.Sound) {rest : Text} {fuel : Nat} (enough : rest.length ≤ fuel) :
    pushFrom reader fuel p rest = p.push reader rest := by
  induction fuel using Nat.strong_induction_on generalizing p rest with
  | h fuel ih =>
    rw [push]
    cases fuel with
    | zero => rw [Nat.le_zero.mp enough]
    | succ fuel =>
      cases is : rest.length with
      | zero =>
        rw [List.length_eq_zero_iff.mp is]
        rfl
      | succ n =>
        by_cases some_ : rest = []
        · simp [some_] at is
        have short := Nat.le_of_lt_succ (is ▸ turn_shorter reader sound some_)
        have sound' := turn_sound reader sound rest
        have most : n ≤ fuel := by omega
        simp only [pushFrom, if_neg some_]
        rw [ih fuel fuel.lt_succ_self sound' (short.trans most), ih n (Nat.lt_succ_of_le most) sound' short]

theorem push_turn {p : OutputParser} (sound : p.Sound) {rest : Text} (some_ : rest ≠ []) :
    p.push reader rest = (((p.turn reader rest).1.push reader (p.turn reader rest).2.2).1,
      (p.turn reader rest).2.1 ++ ((p.turn reader rest).1.push reader (p.turn reader rest).2.2).2) := by
  obtain ⟨n, is⟩ := Nat.exists_eq_add_one.mpr (List.length_pos_iff.mpr some_)
  have short := Nat.le_of_lt_succ (is ▸ turn_shorter reader sound some_)
  rw [push, is]
  simp only [pushFrom, if_neg some_]
  rw [pushFrom_enough reader (turn_sound reader sound rest) short]

/-- A text goes on after a turn: with what the turn has left, or with the turn it would have been. -/
theorem turn_append {p : OutputParser} (sound : p.Sound) {a : Text} (some_ : a ≠ []) (b : Text)
    (whole : ∀ m ∈ p.fmt.markers, ¬Straddles m a b) :
    p.turn reader (a ++ b) = ((p.turn reader a).1, (p.turn reader a).2.1, (p.turn reader a).2.2 ++ b) ∨
      (p.turn reader a).2.2 = [] ∧
        (p.turn reader (a ++ b)).2.2 = ((p.turn reader a).1.turn reader b).2.2 ∧
        Same ((p.turn reader (a ++ b)).1, (p.turn reader (a ++ b)).2.1)
          (((p.turn reader a).1.turn reader b).1,
            (p.turn reader a).2.1 ++ ((p.turn reader a).1.turn reader b).2.1) := by
  have marked := fun m => p.fmt.marker_some (m := m)
  simp only [OutputFormat.markers, List.mem_append, Option.mem_toList, List.mem_cons, List.not_mem_nil,
    or_false] at marked whole
  cases think : p.inThink with
  | true =>
    obtain ⟨m, is⟩ := Option.isSome_iff_exists.mp (sound think)
    have marker := marked m (by simp [is])
    have one := whole m (by simp [is])
    unfold turn
    simp only [think, ↓reduceIte, is, Option.getD_some]
    cases found : cut m a with
    | some pair =>
      rw [cut_append_some b found marker]
      exact .inl rfl
    | none =>
      rw [cut_append_none found marker one]
      refine .inr ⟨rfl, ?_⟩
      simp only [think, ↓reduceIte, is, Option.getD_some]
      cases cut m b with
      | none => exact ⟨rfl, rfl, fun out => by simp [ParsedOutput.takeAll, ParsedOutput.take]⟩
      | some pair =>
        refine ⟨rfl, rfl, fun out => ?_⟩
        by_cases empty : pair.1 = [] <;> simp [empty, some_, ParsedOutput.takeAll, ParsedOutput.take]
  | false =>
    cases block : p.toolBuf with
    | some buf =>
      have marker := marked p.fmt.toolEnd (by simp)
      have one := whole p.fmt.toolEnd (by simp)
      unfold turn
      simp only [think, Bool.false_eq_true, ↓reduceIte, block]
      cases found : cut p.fmt.toolEnd a with
      | some pair =>
        rw [cut_append_some b found marker]
        exact .inl rfl
      | none =>
        rw [cut_append_none found marker one]
        refine .inr ⟨rfl, ?_⟩
        simp only [Bool.false_eq_true, ↓reduceIte]
        cases cut p.fmt.toolEnd b with
        | none => exact ⟨rfl, by simp [Same]⟩
        | some pair =>
          refine ⟨rfl, ?_⟩
          simp only [Option.map_some, ← List.append_assoc, List.nil_append]
          exact .refl _
    | none =>
      have tool := marked p.fmt.toolStart (by simp)
      have oneTool := whole p.fmt.toolStart (by simp)
      -- a marker the model may not have
      have thinkSome : ∀ {before after}, p.fmt.thinkOpen.bind (cut · a) = some (before, after) →
          p.fmt.thinkOpen.bind (cut · (a ++ b)) = some (before, after ++ b) := by
        intro before after found
        obtain ⟨m, is, found⟩ := Option.bind_eq_some_iff.mp found
        rw [is, Option.bind_some]
        exact cut_append_some b found (marked m (by simp [is]))
      have thinkNone : p.fmt.thinkOpen.bind (cut · a) = none → p.fmt.thinkOpen.bind (cut · (a ++ b)) =
          (p.fmt.thinkOpen.bind (cut · b)).map fun pair => (a ++ pair.1, pair.2) := by
        intro found
        cases is : p.fmt.thinkOpen with
        | none => rfl
        | some m =>
          rw [is] at found
          exact cut_append_none found (marked m (by simp [is])) (whole m (by simp [is]))
      have inside : ∀ {m before after}, m ≠ [] → cut m a = some (before, after) → before.length < a.length := by
        intro m before after marker found
        have positive := List.length_pos_iff.mpr marker
        rw [cut_eq found]
        simp
        omega
      unfold turn
      simp only [think, Bool.false_eq_true, ↓reduceIte, block]
      cases tools : cut p.fmt.toolStart a with
      | some t =>
        rw [cut_append_some b tools tool]
        cases thinks : p.fmt.thinkOpen.bind (cut · a) with
        | some k =>
          rw [thinkSome thinks]
          left
          simp only
          split <;> rfl
        | none =>
          rw [thinkNone thinks]
          left
          cases p.fmt.thinkOpen.bind (cut · b) with
          | none => rfl
          | some k =>
            have first : t.1.length < (a ++ k.1).length := by
              have := inside tool tools
              rw [List.length_append]
              omega
            simp only [Option.map_some, first, ↓reduceIte]
      | none =>
        rw [cut_append_none tools tool oneTool]
        cases thinks : p.fmt.thinkOpen.bind (cut · a) with
        | some k =>
          rw [thinkSome thinks]
          left
          cases cut p.fmt.toolStart b with
          | none => rfl
          | some t =>
            obtain ⟨m, is, found⟩ := Option.bind_eq_some_iff.mp thinks
            have first : ¬(a ++ t.1).length < k.1.length := by
              have := inside (marked m (by simp [is])) found
              rw [List.length_append]
              omega
            simp only [Option.map_some, first, ↓reduceIte]
        | none =>
          rw [thinkNone thinks]
          right
          refine ⟨rfl, ?_⟩
          obtain ⟨trim, is⟩ : ∃ trim, (p.content a).1 = { p with trimLeading := trim } := ⟨_, content_fields p a⟩
          have goes := fun x => content_append p a x
          simp only [is, think, Bool.false_eq_true, ↓reduceIte, block] at goes ⊢
          have opens := fun x => (goes x).map fun q => { q with toolBuf := some [] }
          have reasons := fun x => (goes x).map fun q => { q with inThink := true }
          cases cut p.fmt.toolStart b with
          | none =>
            cases p.fmt.thinkOpen.bind (cut · b) with
            | none => exact ⟨rfl, goes b⟩
            | some k => exact ⟨rfl, reasons k.1⟩
          | some t =>
            cases p.fmt.thinkOpen.bind (cut · b) with
            | none => exact ⟨rfl, opens t.1⟩
            | some k =>
              simp only [Option.map_some, List.length_append, Nat.add_lt_add_iff_left]
              split
              · exact ⟨rfl, opens t.1⟩
              · exact ⟨rfl, reasons k.1⟩

/-- A text cut in two beside every marker. -/
theorem push_append {p : OutputParser} (sound : p.Sound) (a b : Text) (whole : ∀ m ∈ p.fmt.markers, ¬Straddles m a b) :
    Same (p.push reader (a ++ b))
      (((p.push reader a).1.push reader b).1, (p.push reader a).2 ++ ((p.push reader a).1.push reader b).2) := by
  induction is : a.length using Nat.strong_induction_on generalizing p a with
  | h n ih =>
    subst is
    by_cases some_ : a = []
    · subst some_
      exact .refl _
    have sound' := turn_sound reader sound a
    have some_' : a ++ b ≠ [] := by simp [some_]
    rw [push_turn reader sound some_', push_turn reader sound some_]
    rcases turn_append reader sound some_ b whole with on | ⟨done, left, same⟩
    · -- the turn ends inside the first part
      obtain ⟨taken, -, rest⟩ := turn_takes reader sound some_
      have whole' : ∀ m ∈ (p.turn reader a).1.fmt.markers, ¬Straddles m (p.turn reader a).2.2 b := by
        rw [(p.turn_follows reader a).1.fmt]
        exact fun m mem straddles => whole m mem (straddles.of_suffix ⟨taken, rest⟩)
      have rest := ih _ (turn_shorter reader sound some_) sound' _ whole' rfl
      rw [on]
      simpa only [List.append_assoc] using rest.prepend (p.turn reader a).2.1
    · -- it takes all of it
      have nothing : ∀ q : OutputParser, q.push reader [] = (q, []) := fun _ => rfl
      by_cases none_ : b = []
      · subst none_
        simp only [List.append_nil, done, nothing]
        exact .refl _
      · simp only [done, nothing, List.append_nil, push_turn reader sound' none_, left]
        obtain ⟨parser, say⟩ := same
        simp only at parser say
        refine ⟨by rw [parser], fun out => ?_⟩
        simp only [takeAll_append, say, parser]

theorem push_sound {p : OutputParser} (sound : p.Sound) (text : Text) :
    (p.push reader text).1.Sound ∧ (p.push reader text).1.fmt = p.fmt := by
  induction is : text.length using Nat.strong_induction_on generalizing p text with
  | h n ih =>
    subst is
    by_cases some_ : text = []
    · subst some_
      exact ⟨sound, rfl⟩
    · rw [push_turn reader sound some_]
      obtain ⟨sound', fmt⟩ := ih _ (turn_shorter reader sound some_) (turn_sound reader sound text) _ rfl
      exact ⟨sound', fmt.trans (p.turn_follows reader text).1.fmt⟩

end OutputParser

/-- No cut of the segments goes through a marker. -/
def Unbroken (fmt : OutputFormat) (texts : List Text) : Prop :=
  ∀ xs ys, texts = xs ++ ys → ∀ m ∈ fmt.markers, ¬Straddles m xs.flatten ys.flatten

theorem unbroken_iff {fmt : OutputFormat} {texts : List Text} : Unbroken fmt texts ↔
    ∀ k ∈ List.range (texts.length + 1), ∀ m ∈ fmt.markers,
      ¬Straddles m (texts.take k).flatten (texts.drop k).flatten := by
  constructor
  · exact fun h k _ => h _ _ (List.take_append_drop k texts).symm
  · rintro h xs ys rfl m mem
    have one := h xs.length (List.mem_range.mpr (by rw [List.length_append]; omega)) m mem
    rwa [List.take_left, List.drop_left] at one

instance (fmt : OutputFormat) (texts : List Text) : Decidable (Unbroken fmt texts) :=
  decidable_of_iff _ unbroken_iff.symm

/-- A text in one piece. -/
theorem unbroken_whole (fmt : OutputFormat) (text : Text) : Unbroken fmt [text] := by
  rintro xs ys is m - ⟨x, y, hx, hy, -, left, right⟩
  cases xs with
  | nil => exact hx (List.suffix_nil.mp left)
  | cons z xs =>
    rw [List.cons_append, List.cons.injEq] at is
    obtain ⟨-, rfl⟩ := List.append_eq_nil_iff.mp is.2.symm
    exact hy (List.prefix_nil.mp right)

namespace Parsed

variable (reader : CallReader)

/-- Pushing the parts of a text, or the text. -/
theorem pushAll_flatten {parser : OutputParser} (sound : parser.Sound) (out : ParsedOutput) {texts : List Text}
    (unbroken : Unbroken parser.fmt texts) :
    ({ parser := some parser, out } : Parsed).pushAll reader texts =
      ({ parser := some parser, out } : Parsed).push reader texts.flatten := by
  induction texts generalizing parser out with
  | nil => rfl
  | cons text texts ih =>
    obtain ⟨sound', fmt⟩ := OutputParser.push_sound reader sound text
    have unbroken' : Unbroken (parser.push reader text).1.fmt texts := by
      rw [fmt]
      rintro xs ys rfl m mem straddles
      refine unbroken (text :: xs) ys rfl m mem (straddles.of_suffix ?_)
      rw [List.flatten_cons]
      exact List.suffix_append _ _
    have whole := unbroken [text] texts rfl
    rw [List.flatten_singleton] at whole
    obtain ⟨left, say⟩ := OutputParser.push_append reader sound text texts.flatten whole
    have step : ({ parser := some parser, out } : Parsed).pushAll reader (text :: texts) =
        ({ parser := some (parser.push reader text).1, out := out.takeAll (parser.push reader text).2 } :
          Parsed).pushAll reader texts := rfl
    rw [step, ih sound' _ unbroken']
    simp only [push, List.flatten_cons, left, say, takeAll_append]

end Parsed

section Divided

variable (reader : CallReader)

/-- What is made of a divided text is what is made of the text. -/
theorem allPieces_whole {parser : OutputParser} (sound : parser.Sound) {texts : List Text}
    (unbroken : Unbroken parser.fmt texts) :
    ({} : ParsedOutput).takeAll (allPieces reader (some parser) texts) =
      ({} : ParsedOutput).takeAll (allPieces reader (some parser) [texts.flatten]) := by
  have parts := Parsed.pushAll_flatten reader sound {} unbroken
  have whole := Parsed.pushAll_flatten reader sound {} (unbroken_whole parser.fmt texts.flatten)
  rw [List.flatten_singleton] at whole
  have made : ∀ texts, ((({ parser := some parser } : Parsed).pushAll reader texts).finish .stop).1 =
      ({} : ParsedOutput).takeAll (allPieces reader (some parser) texts) :=
    fun texts => congrArg Prod.fst (collected_pieces reader (some parser) texts .stop)
  rw [← made, ← made, parts, whole]

/-- Two divisions of a text into deltas, neither through a marker: the reasoning, the content and the calls are the
same. -/
theorem divided_alike (fmt : OutputFormat) (seed : String) {texts texts' : List Text}
    (same : texts.flatten = texts'.flatten) (unbroken : Unbroken fmt texts) (unbroken' : Unbroken fmt texts') :
    let said := allPieces reader (some (.new fmt seed)) texts
    let said' := allPieces reader (some (.new fmt seed)) texts'
    reasoningOf said = reasoningOf said' ∧ contentOf said = contentOf said' ∧
      (callLists said).flatten = (callLists said').flatten := by
  have sound : (OutputParser.new fmt seed).Sound := by
    intro think
    exact (Bool.and_eq_true_iff.mp think).1
  have made := (allPieces_whole reader sound unbroken).trans
    ((congrArg _ (by rw [same])).trans (allPieces_whole reader sound unbroken').symm)
  obtain ⟨content, reasoning, calls⟩ := takeAll_pieces {} (allPieces reader (some (.new fmt seed)) texts)
  obtain ⟨content', reasoning', calls'⟩ := takeAll_pieces {} (allPieces reader (some (.new fmt seed)) texts')
  rw [made] at content reasoning calls
  exact ⟨reasoning.symm.trans reasoning', content.symm.trans content', calls.symm.trans calls'⟩

/-- A block of reasoning, a call and some text, character by character around the markers and at once. -/
theorem divided_alike_call :
    let texts := ["a".toList, "b</think>\n".toList, "\nhi<|tool_call_start|>[f(".toList, ")]<|tool_call_end|>".toList]
    let texts' := ["ab".toList, "</think>".toList, "\n\nhi".toList, "<|tool_call_start|>".toList,
      "[f()]<|tool_call_end|>".toList]
    let said := allPieces twoCalls (some (.new (.lfm2 true) "seed")) texts
    let said' := allPieces twoCalls (some (.new (.lfm2 true) "seed")) texts'
    reasoningOf said = reasoningOf said' ∧ contentOf said = contentOf said' ∧
      (callLists said).flatten = (callLists said').flatten :=
  divided_alike twoCalls (.lfm2 true) "seed" (by decide) (by decide +kernel) (by decide +kernel)

end Divided

end Vapi.Gateway
