import Vapi.Tokenize.Decision

/-!
# A well-formed row

A row is well formed when it ends in the separator and has its masks at the
markers and nowhere else. The layout is followed from what the tokenizer gave
for the question, the options and the state.
-/

namespace Vapi.Tokenize

/-- What the tokenizer gave for the texts of a question. -/
structure Ids where
  question : List UInt32
  options : List (List UInt32)
  state : List UInt32

/-- Where rows that follow one another start. -/
def starts : Nat → List (List UInt32) → List Nat
  | _, [] => []
  | at_, row :: rest => at_ :: starts (at_ + row.length) rest

theorem place_eq (rows : List (List UInt32)) (tokens markers : List UInt32) :
    place tokens markers rows = (tokens ++ rows.flatten, markers ++ (starts tokens.length rows).map UInt32.ofNat) := by
  induction rows generalizing tokens markers with
  | nil => simp [place, starts]
  | cons row rest ih => simp [place, starts, ih]

theorem starts_length (at_ : Nat) (rows : List (List UInt32)) : (starts at_ rows).length = rows.length := by
  induction rows generalizing at_ with
  | nil => rfl
  | cons row rest ih => rw [starts, List.length_cons, List.length_cons, ih]

theorem starts_shift (a b : Nat) (rows : List (List UInt32)) : starts (a + b) rows = (starts b rows).map (a + ·) := by
  induction rows generalizing b with
  | nil => rfl
  | cons row rest ih => rw [starts, starts, List.map_cons, ← ih, Nat.add_assoc]

/-- Numbers that are cut to 32 bits and still increase were not cut. -/
theorem starts_numbered {rows : List (List UInt32)} (narrow : ∀ row ∈ rows, row.length ≤ optionTokenCap + 1) {at_ : Nat}
    (first : at_ < 2 ^ 32) (increasing : ((starts at_ rows).map UInt32.ofNat).Pairwise (· < ·)) :
    ∀ p ∈ starts at_ rows, p < 2 ^ 32 := by
  induction rows generalizing at_ with
  | nil => exact nofun
  | cons row rest ih =>
    rw [starts, List.map_cons, List.pairwise_cons] at increasing
    intro p mem
    rcases List.mem_cons.mp mem with rfl | later
    · exact first
    · refine ih (fun row mem => narrow row (List.mem_cons_of_mem _ mem)) ?_ increasing.2 p later
      have width := narrow row List.mem_cons_self
      have next : UInt32.ofNat at_ < UInt32.ofNat (at_ + row.length) := by
        refine increasing.1 _ (List.mem_map_of_mem ?_)
        cases rest with
        | nil => cases later
        | cons => exact List.mem_cons_self
      rw [UInt32.lt_iff_toNat_lt, UInt32.toNat_ofNat', UInt32.toNat_ofNat'] at next
      unfold optionTokenCap at width
      omega

theorem total_cons (row : List UInt32) (rest : List (List UInt32)) : total (row :: rest) = row.length + total rest :=
  rfl

theorem total_take (k : Nat) (rows : List (List UInt32)) : total (rows.map (List.take k)) ≤ k * rows.length := by
  induction rows with
  | nil => exact Nat.le_refl _
  | cons row rest ih =>
    rw [List.map_cons, total_cons, List.length_cons, Nat.mul_succ]
    have := List.length_take_le k row
    omega

theorem flatten_length (rows : List (List UInt32)) : rows.flatten.length = total rows := List.length_flatten

/-- Each row is a mask with something behind it. -/
def Led (mask : UInt32) (rows : List (List UInt32)) : Prop := ∀ row ∈ rows, row.head? = some mask

section Led

variable {mask : UInt32} {rows : List (List UInt32)}

theorem starts_led (led : Led mask rows) {at_ p : Nat} (mem : p ∈ starts at_ rows) :
    at_ ≤ p ∧ rows.flatten[p - at_]? = some mask := by
  induction rows generalizing at_ with
  | nil => cases mem
  | cons row rest ih =>
    have first := led row List.mem_cons_self
    rcases List.mem_cons.mp mem with rfl | later
    · refine ⟨Nat.le_refl _, ?_⟩
      cases row with
      | nil => cases first
      | cons c body => simpa using first
    · obtain ⟨after, marked⟩ := ih (fun row mem => led row (List.mem_cons_of_mem _ mem)) later
      refine ⟨by omega, ?_⟩
      rw [List.flatten_cons, List.getElem?_append_right (by omega), show p - at_ - row.length = p - (at_ + row.length) by
        omega]
      exact marked

theorem starts_lt (led : Led mask rows) {at_ p : Nat} (mem : p ∈ starts at_ rows) : p < at_ + total rows := by
  obtain ⟨after, marked⟩ := starts_led led mem
  have within := (List.getElem?_eq_some_iff.mp marked).1
  rw [flatten_length] at within
  omega

theorem starts_increasing (led : Led mask rows) (at_ : Nat) : (starts at_ rows).Pairwise (· < ·) := by
  induction rows generalizing at_ with
  | nil => exact .nil
  | cons row rest ih =>
    have led' : Led mask rest := fun row mem => led row (List.mem_cons_of_mem _ mem)
    refine List.pairwise_cons.mpr ⟨fun p mem => ?_, ih led' _⟩
    have first : row ≠ [] := fun empty => by simpa [empty] using led row List.mem_cons_self
    have := (starts_led led' mem).1
    have := List.length_pos_iff.mpr first
    omega

/-- Nothing behind the masks is a mask. -/
theorem mem_starts_of_tail (at_ : Nat) (clear : ∀ row ∈ rows, mask ∉ row.tail) {i : Nat}
    (here : rows.flatten[i]? = some mask) : at_ + i ∈ starts at_ rows := by
  induction rows generalizing at_ i with
  | nil => cases here
  | cons row rest ih =>
    rw [List.flatten_cons] at here
    rcases Nat.lt_or_ge i row.length with first | later
    · rw [List.getElem?_append_left first] at here
      cases i with
      | zero => exact List.mem_cons_self
      | succ i =>
        refine absurd ?_ (clear row List.mem_cons_self)
        rw [← List.getElem?_tail] at here
        exact List.mem_of_getElem? here
    · rw [List.getElem?_append_right later] at here
      refine List.mem_cons_of_mem _ ?_
      have := ih (at_ + row.length) (fun row mem => clear row (List.mem_cons_of_mem _ mem)) here
      rwa [show at_ + row.length + (i - row.length) = at_ + i by omega] at this

end Led

/-- What a row is to be. -/
structure Wellformed (f : DecisionFormat) (options : Nat) (out : BuiltSequence) : Prop where
  short : out.tokens.length ≤ f.config.maxLen
  closed : out.tokens.getLast? = some f.sep
  counted : out.markers.length = options
  increasing : out.markers.Pairwise (· < ·)
  /-- A marker is where a mask is, and a mask is where a marker is. -/
  marked : ∀ i, out.tokens[i]? = some f.mask ↔ ∃ m ∈ out.markers, m.toNat = i

namespace DecisionFormat

variable (f : DecisionFormat) (ids : Ids)

/-- What the question and its options may spend. -/
def share : Nat := min f.config.headMaxLen f.config.maxLen

/-- The options, cut where they crowd the question out. -/
def rows : List (List UInt32) :=
  let rows := ids.options.map f.optionRow
  if f.share - total rows < minOptionBudget then rows.map (List.take ((f.share - minOptionBudget) / rows.length))
  else rows

/-- What is kept of the question. -/
def head : List UInt32 := ids.question.take (f.share - total (f.rows ids))

/-- By how much the question, its options and the three tokens around them are too long. -/
def excess : Nat := min (ids.question.length + total (f.rows ids)) f.share + 3 - f.config.maxLen

/-- The closing separator has its slot, or the option's token that is last instead is a separator. -/
def Closes : Prop := f.excess ids = 0 ∨ (f.rows ids).flatten[total (f.rows ids) - f.excess ids]? = some f.sep

/-- The places of the options are numbers of 32 bits. -/
def Numbered : Prop := ∀ p ∈ starts ((f.head ids).length + 2) (f.rows ids), p < 2 ^ 32

/-- What is left of the options. -/
def left : List UInt32 := (f.rows ids).flatten.take (f.config.maxLen - ((f.head ids).length + 2))

/-- What is left of the state. -/
def leftState : List UInt32 :=
  f.kept (f.config.maxLen - ((f.head ids).length + total (f.rows ids) + 4)) ids.state

/-- No token but the options' own masks is the mask, of those that are kept. -/
structure Clear : Prop where
  cls : f.cls ≠ f.mask
  sep : f.sep ≠ f.mask
  head : f.mask ∉ f.head ids
  options : ∀ i, (f.left ids)[i]? = some f.mask → i ∈ starts 0 (f.rows ids)
  state : f.mask ∉ f.leftState ids

def opening : List UInt32 := f.cls :: f.head ids ++ [f.sep]

def ending : List UInt32 :=
  ([f.sep] ++ f.leftState ids ++ [f.sep]).take (f.config.maxLen - ((f.head ids).length + 2 + total (f.rows ids)))

section Layout

variable {f} {ids}

theorem opening_length : (f.opening ids).length = (f.head ids).length + 2 := by simp [opening]

/-- Options fit beside sixteen tokens of the question. -/
structure Fits (f : DecisionFormat) (ids : Ids) : Prop where
  room : total (f.rows ids) + minOptionBudget ≤ f.share
  led : Led f.mask (f.rows ids)
  narrow : ∀ row ∈ f.rows ids, row.length ≤ optionTokenCap + 1
  two : 2 ≤ (f.rows ids).length

theorem led_total {mask : UInt32} {rows : List (List UInt32)} (led : Led mask rows) : rows.length ≤ total rows := by
  induction rows with
  | nil => exact Nat.le_refl _
  | cons row rest ih =>
    have := ih fun row mem => led row (List.mem_cons_of_mem _ mem)
    have first : row ≠ [] := fun empty => by simpa [empty] using led row List.mem_cons_self
    have := List.length_pos_iff.mpr first
    rw [List.length_cons, total_cons]
    omega

variable (fits : Fits f ids)
include fits

theorem head_length : (f.head ids).length + total (f.rows ids) = min (ids.question.length + total (f.rows ids)) f.share := by
  have := fits.room
  rw [head, List.length_take]
  omega

theorem opening_le : (f.head ids).length + 2 ≤ f.config.maxLen := by
  have := head_length fits
  have := led_total fits.led
  have := fits.two
  have : f.share ≤ f.config.maxLen := Nat.min_le_right _ _
  omega

theorem excess_eq : f.excess ids = (f.head ids).length + total (f.rows ids) + 3 - f.config.maxLen := by
  rw [excess, head_length fits]

theorem row_eq : ((f.opening ids ++ (f.rows ids).flatten ++ [f.sep]) ++ f.leftState ids ++ [f.sep]).take f.config.maxLen =
    f.opening ids ++ f.left ids ++ f.ending ids := by
  have := opening_le fits
  rw [List.append_assoc, List.append_assoc (f.opening ids ++ _), List.append_assoc, List.take_append,
    List.take_of_length_le (by rwa [opening_length]), List.take_append, opening_length, flatten_length, left, ending,
    Nat.sub_sub, List.append_assoc]
  simp

omit fits in
variable (f) (ids) in
theorem leftState_length :
    (f.leftState ids).length ≤ f.config.maxLen - ((f.head ids).length + total (f.rows ids) + 4) := by
  unfold leftState kept
  split
  · assumption
  · split
    · rw [List.length_drop]
      omega
    · exact List.length_take_le _ _

theorem ending_closed (whole : f.excess ids = 0) : (f.ending ids).getLast? = some f.sep := by
  rw [excess_eq fits] at whole
  have room := leftState_length f ids
  rcases Nat.eq_or_lt_of_le (Nat.sub_eq_zero_iff_le.mp whole) with tight | loose
  · have none : f.leftState ids = [] := List.length_eq_zero_iff.mp (by omega)
    rw [ending, none, show f.config.maxLen - ((f.head ids).length + 2 + total (f.rows ids)) = 1 by omega]
    rfl
  · rw [ending, List.take_of_length_le (by simp; omega), List.getLast?_concat]

theorem ending_nil (cut : 0 < f.excess ids) : f.ending ids = [] := by
  rw [excess_eq fits] at cut
  rw [ending, show f.config.maxLen - ((f.head ids).length + 2 + total (f.rows ids)) = 0 by omega, List.take_zero]

theorem row_closed (some_ : 0 < f.excess ids → f.left ids ≠ []) :
    (f.opening ids ++ f.left ids ++ f.ending ids).getLast? = some f.sep ↔ f.Closes ids := by
  rcases Nat.eq_zero_or_pos (f.excess ids) with whole | cut
  · rw [List.getLast?_append, ending_closed fits whole]
    exact iff_of_true rfl (.inl whole)
  · have some_ := some_ cut
    have excess := excess_eq fits
    have := opening_le fits
    have long : f.config.maxLen - ((f.head ids).length + 2) ≠ 0 := fun none => some_ (by rw [left, none, List.take_zero])
    have last : (f.left ids).getLast? = (f.rows ids).flatten[total (f.rows ids) - f.excess ids]? := by
      rw [left, List.getLast?_take, if_neg long, show f.config.maxLen - ((f.head ids).length + 2) - 1 =
        total (f.rows ids) - f.excess ids by omega,
        List.getElem?_eq_getElem (show _ < (f.rows ids).flatten.length by rw [flatten_length]; omega)]
      rfl
    obtain ⟨x, is⟩ := Option.isSome_iff_exists.mp (List.getLast?_isSome.mpr some_)
    rw [ending_nil fits cut, List.append_nil, List.getLast?_append, is, Option.some_or, ← is, last]
    exact ⟨.inr, fun closes => closes.resolve_left (by omega)⟩

/-- The options are whole, or the row ends within them. -/
theorem left_or : f.left ids = (f.rows ids).flatten ∨ f.ending ids = [] := by
  rcases Nat.eq_zero_or_pos (f.excess ids) with whole | cut
  · refine .inl (List.take_of_length_le ?_)
    rw [excess_eq fits] at whole
    rw [flatten_length]
    omega
  · exact .inr (ending_nil fits cut)

/-- An option's place in the row has its mask. -/
theorem row_marked {p : Nat} (mem : p ∈ starts ((f.head ids).length + 2) (f.rows ids))
    (within : p < (f.opening ids ++ f.left ids ++ f.ending ids).length) :
    (f.opening ids ++ f.left ids ++ f.ending ids)[p]? = some f.mask := by
  obtain ⟨after, marked⟩ := starts_led fits.led mem
  have last := starts_lt fits.led mem
  have inside : p - ((f.head ids).length + 2) < (f.left ids).length := by
    rw [List.length_append, List.length_append, opening_length] at within
    rcases left_or fits with whole | none
    · rw [whole, flatten_length]
      omega
    · rw [none, List.length_nil] at within
      omega
  rw [List.append_assoc, List.getElem?_append_right (by rwa [opening_length]), opening_length,
    List.getElem?_append_left inside, ← marked, left, List.getElem?_take_of_lt]
  rw [left, List.length_take] at inside
  omega

theorem clear_iff : f.Clear ids ↔ ∀ i, (f.opening ids ++ f.left ids ++ f.ending ids)[i]? = some f.mask →
    i ∈ starts ((f.head ids).length + 2) (f.rows ids) := by
  constructor
  · intro clear i here
    have opening : f.mask ∉ f.opening ids := by
      simp only [DecisionFormat.opening, List.mem_append, List.mem_cons, List.not_mem_nil, or_false, not_or]
      exact ⟨⟨clear.cls.symm, clear.head⟩, clear.sep.symm⟩
    have ending : f.mask ∉ f.ending ids := by
      intro mem
      have mem := List.mem_of_mem_take mem
      simp only [List.mem_append, List.mem_singleton] at mem
      rcases mem with (sep | state) | sep
      · exact clear.sep sep.symm
      · exact clear.state state
      · exact clear.sep sep.symm
    rw [List.append_assoc, List.getElem?_append] at here
    split at here
    · exact absurd (List.mem_of_getElem? here) opening
    · rename_i after
      rw [List.getElem?_append] at here
      split at here
      · have := clear.options _ here
        rw [opening_length] at after this
        rw [← Nat.add_zero ((f.head ids).length + 2), starts_shift]
        exact List.mem_map.mpr ⟨_, this, by omega⟩
      · exact absurd (List.mem_of_getElem? here) ending
  · intro all
    have opening : f.mask ∉ f.opening ids := by
      intro mem
      obtain ⟨i, within, here⟩ := List.mem_iff_getElem.mp mem
      have := all i (by rw [List.append_assoc, List.getElem?_append_left within, List.getElem?_eq_getElem within, here])
      have := (starts_led fits.led this).1
      rw [opening_length] at within
      omega
    simp only [DecisionFormat.opening, List.mem_append, List.mem_cons, List.not_mem_nil, or_false, not_or] at opening
    refine ⟨Ne.symm opening.1.1, Ne.symm opening.2, opening.1.2, fun i here => ?_, fun mem => ?_⟩
    · have within := (List.getElem?_eq_some_iff.mp here).1
      have := all ((f.head ids).length + 2 + i) (by
        rw [List.append_assoc, List.getElem?_append_right (by rw [opening_length]; omega), opening_length,
          Nat.add_sub_cancel_left, List.getElem?_append_left within, here])
      rw [← Nat.add_zero ((f.head ids).length + 2), starts_shift, List.mem_map] at this
      obtain ⟨j, mem, is⟩ := this
      exact (show j = i by omega) ▸ mem
    · -- a state that is left is behind whole options
      have room := leftState_length f ids
      have some_ := List.length_pos_of_mem mem
      have whole : f.ending ids = [f.sep] ++ f.leftState ids ++ [f.sep] := List.take_of_length_le (by simp; omega)
      have options : (f.left ids).length = total (f.rows ids) := by
        rw [left, List.length_take, flatten_length]
        omega
      have mem : f.mask ∈ f.ending ids := whole ▸ List.mem_append_left _ (List.mem_append_right _ mem)
      obtain ⟨i, within, here⟩ := List.mem_iff_getElem.mp mem
      have := all ((f.head ids).length + 2 + total (f.rows ids) + i) (by
        rw [List.getElem?_append_right (by rw [List.length_append, opening_length]; omega), List.length_append,
          opening_length, options, Nat.add_sub_cancel_left, List.getElem?_eq_getElem within, here])
      have := starts_lt fits.led this
      omega

end Layout

/-- Nothing is left of the options, and the question has masks just where their numbers, cut to 32 bits, point. -/
structure Coincides : Prop where
  gone : f.left ids = []
  increasing : ((starts ((f.head ids).length + 2) (f.rows ids)).map UInt32.ofNat).Pairwise (· < ·)
  marked : ∀ i, (f.opening ids)[i]? = some f.mask ↔
    ∃ m ∈ (starts ((f.head ids).length + 2) (f.rows ids)).map UInt32.ofNat, m.toNat = i

section Row

variable {f} {ids} (fits : Fits f ids)
include fits

theorem left_nil (gone : f.left ids = []) : 0 < f.excess ids ∧ f.config.maxLen = (f.head ids).length + 2 := by
  have := opening_le fits
  have := led_total fits.led
  have := fits.two
  have none := congrArg List.length gone
  rw [left, List.length_take, flatten_length, List.length_nil] at none
  rw [excess_eq fits]
  omega

theorem first_mem : (f.head ids).length + 2 ∈ starts ((f.head ids).length + 2) (f.rows ids) := by
  have two := fits.two
  cases rows : f.rows ids with
  | nil => simp [rows] at two
  | cons => exact List.mem_cons_self

theorem wellformed_of_row {out : BuiltSequence} (tokens : out.tokens = f.opening ids ++ f.left ids ++ f.ending ids)
    (markers : out.markers = (starts ((f.head ids).length + 2) (f.rows ids)).map UInt32.ofNat)
    (within : ∀ m ∈ out.markers, m.toNat < out.tokens.length) :
    Wellformed f (f.rows ids).length out ↔ (f.Closes ids ∧ f.Numbered ids ∧ f.Clear ids) ∨ f.Coincides ids := by
  have short : out.tokens.length ≤ f.config.maxLen := by
    rw [tokens, ← row_eq fits]
    exact List.length_take_le _ _
  have counted : out.markers.length = (f.rows ids).length := by rw [markers, List.length_map, starts_length]
  constructor
  · intro well
    by_cases gone : f.left ids = []
    · have ending := ending_nil fits (left_nil fits gone).1
      rw [gone, ending, List.append_nil, List.append_nil] at tokens
      exact .inr ⟨gone, markers ▸ well.increasing, fun i => markers ▸ tokens ▸ well.marked i⟩
    · have inside : (f.head ids).length + 2 < (f.opening ids ++ f.left ids ++ f.ending ids).length := by
        have := List.length_pos_iff.mpr gone
        simp only [List.length_append, opening_length]
        omega
      -- the first option's number is its place, and from there the numbers grow
      obtain ⟨m, -, is⟩ := (well.marked _).mp (tokens ▸ row_marked fits (first_mem fits) inside)
      have numbered : f.Numbered ids :=
        starts_numbered fits.narrow (is ▸ m.toNat_lt) (markers ▸ well.increasing)
      refine .inl ⟨(row_closed fits fun _ => gone).mp (tokens ▸ well.closed), numbered, (clear_iff fits).mpr ?_⟩
      intro i here
      obtain ⟨m, mem, rfl⟩ := (well.marked i).mp (tokens ▸ here)
      rw [markers, List.mem_map] at mem
      obtain ⟨p, place, rfl⟩ := mem
      rwa [UInt32.toNat_ofNat_of_lt' (numbered p place)]
  · rintro (⟨closes, numbered, clear⟩ | ⟨gone, increasing, marked⟩)
    · have number : ∀ p ∈ starts ((f.head ids).length + 2) (f.rows ids), (UInt32.ofNat p).toNat = p :=
        fun p mem => UInt32.toNat_ofNat_of_lt' (numbered p mem)
      have places : ∀ p ∈ starts ((f.head ids).length + 2) (f.rows ids),
          p < (f.opening ids ++ f.left ids ++ f.ending ids).length := by
        intro p mem
        have := within (UInt32.ofNat p) (markers ▸ List.mem_map_of_mem mem)
        rwa [number p mem, tokens] at this
      have some_ : 0 < f.excess ids → f.left ids ≠ [] := by
        intro cut gone
        have := places _ (first_mem fits)
        rw [gone, ending_nil fits cut, List.append_nil, List.append_nil, opening_length] at this
        omega
      refine ⟨short, tokens ▸ (row_closed fits some_).mpr closes, counted, ?_, fun i => ?_⟩
      · rw [markers, List.pairwise_map]
        refine (starts_increasing fits.led _).imp_of_mem fun {p q} memp memq lt => ?_
        rwa [UInt32.lt_iff_toNat_lt, number p memp, number q memq]
      · rw [tokens, markers]
        constructor
        · intro here
          have mem := (clear_iff fits).mp clear i here
          exact ⟨_, List.mem_map_of_mem mem, number i mem⟩
        · rintro ⟨m, mem, rfl⟩
          obtain ⟨p, place, rfl⟩ := List.mem_map.mp mem
          rw [number p place]
          exact row_marked fits place (places p place)
    · have ending := ending_nil fits (left_nil fits gone).1
      rw [gone, ending, List.append_nil, List.append_nil] at tokens
      refine ⟨short, ?_, counted, markers ▸ increasing, fun i => markers ▸ tokens ▸ marked i⟩
      rw [tokens, opening, List.getLast?_concat]

end Row

/-- The tokens of the texts that a row is built from. -/
structure Read (encode : Text → Except Error (List UInt32)) (qtype : QuestionType) (instructions : Text)
    (options : List Text) (state : Text) : Prop where
  question : encode (f.question qtype instructions) = .ok ids.question
  options : options.mapM (fun opt => encode (f.optionText opt)) = .ok ids.options
  state : encode (f.scrub state) = .ok ids.state

section Built

variable {f} {ids} {encode : Text → Except Error (List UInt32)} {qtype : QuestionType} {instructions : Text}
  {options : List Text} {state : Text}

theorem shrink_ok {rows : List (List UInt32)} {shrunk : Option Nat}
    (ok : shrink f.share (ids.options.map f.optionRow) = .ok (rows, shrunk)) (two : 2 ≤ ids.options.length) :
    rows = f.rows ids ∧ Fits f ids := by
  unfold shrink at ok
  have narrow : ∀ row ∈ ids.options.map f.optionRow, row.length ≤ optionTokenCap + 1 ∧ row.head? = some f.mask := by
    intro row mem
    obtain ⟨o, -, rfl⟩ := List.mem_map.mp mem
    exact ⟨Nat.succ_le_succ (List.length_take_le _ _), rfl⟩
  split at ok
  · rename_i crowded
    dsimp only at ok
    split at ok
    · cases ok
    · rename_i room
      cases ok
      have rows : f.rows ids = (ids.options.map f.optionRow).map
          (List.take ((f.share - minOptionBudget) / (ids.options.map f.optionRow).length)) := if_pos crowded
      unfold minTokensPerOption at room
      refine ⟨rows.symm, ?_, ?_, ?_, ?_⟩ <;> rw [rows]
      · have each := total_take ((f.share - minOptionBudget) / (ids.options.map f.optionRow).length)
          (ids.options.map f.optionRow)
        have all := Nat.div_mul_le_self (f.share - minOptionBudget) (ids.options.map f.optionRow).length
        have some_ : 1 ≤ f.share - minOptionBudget := by
          by_contra none
          rw [show f.share - minOptionBudget = 0 by omega, Nat.zero_div] at room
          omega
        omega
      · intro row mem
        obtain ⟨whole, here, rfl⟩ := List.mem_map.mp mem
        rw [List.head?_take, if_neg (by omega)]
        exact (narrow whole here).2
      · intro row mem
        obtain ⟨whole, here, rfl⟩ := List.mem_map.mp mem
        exact (List.length_take_le' _ _).trans (narrow whole here).1
      · rwa [List.length_map, List.length_map]
  · rename_i loose
    cases ok
    have rows : f.rows ids = ids.options.map f.optionRow := if_neg loose
    refine ⟨rows.symm, ?_, ?_, ?_, ?_⟩ <;> rw [rows]
    · unfold minOptionBudget at *
      omega
    · exact fun row mem => (narrow row mem).2
    · exact fun row mem => (narrow row mem).1
    · rwa [List.length_map]

theorem bind_ok {α β : Type} {x : Except Error α} {g : α → Except Error β} {b : β} (h : x >>= g = .ok b) :
    ∃ a, x = .ok a ∧ g a = .ok b := by
  cases x with
  | error e => cases h
  | ok a => exact ⟨a, rfl, h⟩

theorem mapM_length {α β : Type} {g : α → Except Error β} {l : List α} {l' : List β} (h : l.mapM g = .ok l') :
    l'.length = l.length := by
  induction l generalizing l' with
  | nil =>
    cases h
    rfl
  | cons a rest ih =>
    rw [List.mapM_cons] at h
    obtain ⟨b, -, h⟩ := bind_ok h
    obtain ⟨bs, more, h⟩ := bind_ok h
    cases h
    rw [List.length_cons, ih more, List.length_cons]

theorem rows_length : (f.rows ids).length = ids.options.length := by
  unfold rows
  dsimp only
  split <;> simp only [List.length_map]

theorem build_ok {out : BuiltSequence} (read : f.Read ids encode qtype instructions options state)
    (built : f.build encode qtype instructions options state = .ok out) :
    Fits f ids ∧ (f.rows ids).length = options.length ∧
      out.tokens = f.opening ids ++ f.left ids ++ f.ending ids ∧
      out.markers = (starts ((f.head ids).length + 2) (f.rows ids)).map UInt32.ofNat ∧
      ∀ m ∈ out.markers, m.toNat < out.tokens.length := by
  unfold build at built
  split at built
  · cases built
  rename_i two
  have many := mapM_length read.options
  obtain ⟨q, question, built⟩ := bind_ok built
  obtain rfl := Except.ok.inj (question.symm.trans read.question)
  obtain ⟨os, texts, built⟩ := bind_ok built
  obtain rfl := Except.ok.inj (texts.symm.trans read.options)
  obtain ⟨⟨rows, shrunk⟩, shrank, built⟩ := bind_ok built
  obtain ⟨rfl, fits⟩ := shrink_ok shrank (by omega)
  have room : minHeadTokens ≤ f.share - total (f.rows ids) := by
    have := fits.room
    unfold minOptionBudget at this
    unfold minHeadTokens
    omega
  have head : ids.question.take (max (f.share - total (f.rows ids)) minHeadTokens) = f.head ids := by
    rw [Nat.max_eq_left room, DecisionFormat.head]
  obtain ⟨st, text, built⟩ := bind_ok built
  obtain rfl := Except.ok.inj (text.symm.trans read.state)
  rw [show min f.config.headMaxLen f.config.maxLen = f.share from rfl, head, place_eq,
    show f.cls :: f.head ids ++ [f.sep] = f.opening ids from rfl, List.nil_append] at built
  have state : f.kept (f.config.maxLen - ((f.opening ids ++ (f.rows ids).flatten ++ [f.sep]).length + 1)) ids.state =
      f.leftState ids := by
    rw [leftState]
    congr 2
    simp only [List.length_append, opening_length, flatten_length, List.length_singleton]
    omega
  dsimp only at built
  rw [state, row_eq fits, opening_length] at built
  split at built
  · cases built
  rename_i inside
  cases built
  refine ⟨fits, rows_length.trans many, rfl, rfl, fun m mem => ?_⟩
  simpa using fun past => inside (List.any_eq_true.mpr ⟨m, mem, decide_eq_true past⟩)

end Built

/-- The mask text is a word that the format's own words do not have, and the other structural tokens are not the
mask. -/
structure Plain (f : DecisionFormat) (qtype : QuestionType) : Prop where
  cls : f.cls ≠ f.mask
  sep : f.sep ≠ f.mask
  some_ : f.maskText ≠ []
  word : ' ' ∉ f.maskText
  other : ¬f.maskText <:+: qtype.asStr ++ " question:".toList

/-- A text with no mask text in it has no mask for a token. -/
def Silent (f : DecisionFormat) (encode : Text → Except Error (List UInt32)) : Prop :=
  ∀ text ids, encode text = .ok ids → ¬f.maskText <:+: text → f.mask ∉ ids

section Scrub

variable {w : Text}

/-- A word on one side of a blank is not on the other. -/
theorem infix_blank (word : ' ' ∉ w) (some_ : w ≠ []) {l r : Text} (found : w <:+: l ++ ' ' :: r) :
    w <:+: l ∨ w <:+: r := by
  obtain ⟨before, after, is⟩ := found
  rw [List.append_assoc] at is
  rcases List.append_eq_append_iff.mp is with ⟨a, rfl, rest⟩ | ⟨a, rfl, rest⟩
  · rcases List.append_eq_append_iff.mp rest with ⟨b, rfl, -⟩ | ⟨b, rfl, tail⟩
    · exact .inl ⟨before, b, by rw [List.append_assoc]⟩
    · cases b with
      | nil => exact .inl ⟨before, [], by simp⟩
      | cons c b => exact absurd ((List.cons.inj tail).1 ▸ List.mem_append_right _ List.mem_cons_self) word
  · cases a with
    | nil =>
      cases w with
      | nil => exact absurd rfl some_
      | cons c w => exact absurd ((List.cons.inj rest).1 ▸ List.mem_cons_self) word
    | cons c a => exact .inr ⟨a, after, by rw [List.append_assoc]; exact (List.cons.inj rest).2.symm⟩

theorem replaceFrom_skip (pattern new : Text) (skip : Nat) (text : Text) :
    replaceFrom pattern new skip text = replaceFrom pattern new 0 (text.drop skip) := by
  induction text generalizing skip with
  | nil => cases skip <;> rfl
  | cons c rest ih =>
    cases skip with
    | zero => rfl
    | succ skip => exact ih skip

/-- What begins with a word without a blank began with it before. -/
theorem prefix_of_replace {pattern text : Text} (word : ' ' ∉ w) (found : w <+: replaceFrom pattern " ".toList 0 text) :
    w <+: text := by
  induction text generalizing w with
  | nil => exact found
  | cons c rest ih =>
    rw [replaceFrom] at found
    cases w with
    | nil => exact List.nil_prefix
    | cons x w =>
      split at found
      · exact absurd ((List.cons_prefix_cons.mp found).1 ▸ List.mem_cons_self) word
      · obtain ⟨same, more⟩ := List.cons_prefix_cons.mp found
        exact List.cons_prefix_cons.mpr ⟨same, ih (fun mem => word (List.mem_cons_of_mem _ mem)) more⟩

theorem replace_absent (word : ' ' ∉ w) (some_ : w ≠ []) (text : Text) :
    ¬w <:+: replaceFrom w " ".toList 0 text := by
  induction long : text.length using Nat.strong_induction_on generalizing text with
  | h n ih =>
    cases text with
    | nil => exact fun found => some_ (List.infix_nil.mp found)
    | cons c rest =>
      rw [List.length_cons] at long
      intro found
      rw [replaceFrom] at found
      split at found
      · rw [replaceFrom_skip] at found
        rcases infix_blank word some_ (show w <:+: [] ++ ' ' :: _ from found) with nothing | later
        · exact some_ (List.infix_nil.mp nothing)
        · exact ih _ (by rw [List.length_drop]; omega) _ rfl later
      · rename_i absent
        rcases List.infix_cons_iff.mp found with begun | later
        · have same : replaceFrom w " ".toList 0 (c :: rest) = c :: replaceFrom w " ".toList 0 rest := by
            rw [replaceFrom, if_neg absent]
          exact absent (prefix_of_replace word (same ▸ begun))
        · exact ih _ (by omega) rest rfl later

end Scrub

section Plain

variable {f : DecisionFormat} {ids : Ids} {encode : Text → Except Error (List UInt32)} {qtype : QuestionType}
  {instructions : Text} {options : List Text} {state : Text}

theorem scrub_absent (plain : f.Plain qtype) (text : Text) : ¬f.maskText <:+: f.scrub text := by
  unfold scrub
  split
  · rw [replace, if_neg plain.some_]
    exact replace_absent plain.word plain.some_ text
  · assumption

theorem mapM_mem {α β : Type} {g : α → Except Error β} {l : List α} {l' : List β} (h : l.mapM g = .ok l') :
    ∀ b ∈ l', ∃ a ∈ l, g a = .ok b := by
  induction l generalizing l' with
  | nil =>
    cases h
    exact nofun
  | cons a rest ih =>
    rw [List.mapM_cons] at h
    obtain ⟨b, first, h⟩ := bind_ok h
    obtain ⟨bs, more, h⟩ := bind_ok h
    cases h
    intro c mem
    rcases List.mem_cons.mp mem with rfl | mem
    · exact ⟨a, List.mem_cons_self, first⟩
    · obtain ⟨a', mem, is⟩ := ih more c mem
      exact ⟨a', List.mem_cons_of_mem _ mem, is⟩

/-- A row of an option has its mask and then the option's tokens. -/
theorem mem_rows {row : List UInt32} (mem : row ∈ f.rows ids) :
    ∃ o ∈ ids.options, ∀ id ∈ row.tail, id ∈ o := by
  unfold rows at mem
  dsimp only at mem
  split at mem
  · obtain ⟨whole, among, rfl⟩ := List.mem_map.mp mem
    obtain ⟨o, given, rfl⟩ := List.mem_map.mp among
    refine ⟨o, given, fun id here => ?_⟩
    have tail : ∀ k, ((f.optionRow o).take k).tail = (o.take optionTokenCap).take (k - 1) := fun k => by cases k <;> rfl
    exact List.mem_of_mem_take (List.mem_of_mem_take (tail _ ▸ here))
  · obtain ⟨o, given, rfl⟩ := List.mem_map.mp mem
    exact ⟨o, given, fun id here => List.mem_of_mem_take here⟩

theorem clear_of_plain (silent : f.Silent encode) (read : f.Read ids encode qtype instructions options state)
    (plain : f.Plain qtype) : f.Clear ids := by
  have question : f.mask ∉ ids.question := by
    refine silent _ _ read.question fun found => ?_
    have parts : f.question qtype instructions = (qtype.asStr ++ " question:".toList) ++ ' ' :: f.scrub instructions := by
      simp [DecisionFormat.question]
    rcases infix_blank plain.word plain.some_ (parts ▸ found) with own | given
    · exact plain.other own
    · exact scrub_absent plain _ given
  have texts : ∀ o ∈ ids.options, f.mask ∉ o := by
    intro o mem
    obtain ⟨opt, -, is⟩ := mapM_mem read.options o mem
    refine silent _ _ is fun found => ?_
    rcases infix_blank plain.word plain.some_ (show _ <:+: [] ++ ' ' :: _ from found) with nothing | given
    · exact plain.some_ (List.infix_nil.mp nothing)
    · exact scrub_absent plain _ given
  have state := silent _ _ read.state (scrub_absent plain _)
  refine ⟨plain.cls, plain.sep, fun mem => question (List.mem_of_mem_take mem), fun i here => ?_, fun mem => ?_⟩
  · have here : (f.rows ids).flatten[i]? = some f.mask := by
      rw [left, List.getElem?_take] at here
      split at here
      · exact here
      · cases here
    have := mem_starts_of_tail 0 (fun row mem masked => by
      obtain ⟨o, some_, within⟩ := mem_rows mem
      exact texts o some_ (within _ masked)) here
    rwa [Nat.zero_add] at this
  · refine state ?_
    unfold leftState kept at mem
    split at mem
    · exact mem
    · split at mem
      · exact List.mem_of_mem_drop mem
      · exact List.mem_of_mem_take mem

end Plain

/-- A built row is well formed just when its closing separator has its slot, the options' places are numbers of 32
bits and no other token is the mask; which a mask text that is a word sees to. -/
theorem wellformed_iff {f : DecisionFormat} {ids : Ids} {encode : Text → Except Error (List UInt32)} {qtype : QuestionType}
    {instructions : Text} {options : List Text} {state : Text} {out : BuiltSequence} (silent : f.Silent encode)
    (read : f.Read ids encode qtype instructions options state)
    (built : f.build encode qtype instructions options state = .ok out) :
    (Wellformed f options.length out ↔ (f.Closes ids ∧ f.Numbered ids ∧ f.Clear ids) ∨ f.Coincides ids) ∧
      (f.Plain qtype → f.Clear ids) := by
  obtain ⟨fits, many, tokens, markers, within⟩ := build_ok read built
  exact ⟨many ▸ wellformed_of_row fits tokens markers within, clear_of_plain silent read⟩

section Example

/-- Letters that follow one another are one word, any other character is one by itself. -/
def words (text : Text) : List Text :=
  (text.splitBy fun a b => a.isAlpha && b.isAlpha).filter (· ≠ [' '])

def vocabulary : List (Text × UInt32) := [("choice".toList, 5), ("question".toList, 6), (":".toList, 7),
  ("which".toList, 8), ("team".toList, 9), ("billing".toList, 10), ("other".toList, 11), ("help".toList, 12)]

/-- Word level, behind the five special tokens; what is unknown is the first of these. -/
def wordLevel (text : Text) : Except Error (List UInt32) :=
  .ok ((words text).map fun w => ((vocabulary.find? fun e => e.1 = w).map Prod.snd).getD 0)

def wordFormat (maxLen headMaxLen : Nat) : DecisionFormat := ⟨1, 2, 3, "[MASK]".toList, ⟨maxLen, headMaxLen⟩, false⟩

theorem wordLevel_silent (maxLen headMaxLen : Nat) : (wordFormat maxLen headMaxLen).Silent wordLevel := by
  intro text ids is _ mem
  obtain rfl := Except.ok.inj is
  obtain ⟨w, -, is⟩ := List.mem_map.mp mem
  have ordinary : ∀ e ∈ vocabulary, e.2 ≠ 3 := by decide
  cases found : vocabulary.find? fun e => e.1 = w with
  | none =>
    rw [found] at is
    exact absurd (show (0 : UInt32) = 3 from is) (by decide)
  | some e =>
    rw [found] at is
    exact ordinary e (List.mem_of_find?_eq_some found) is

def shortIds : Ids := ⟨[5, 6, 7, 8, 9], [[10], [11]], [12]⟩

theorem shortIds_read : (wordFormat 64 32).Read shortIds wordLevel .choice "which team".toList
    ["billing".toList, "other".toList] "help".toList :=
  ⟨rfl, rfl, rfl⟩

theorem wellformed_short :
    Wellformed (wordFormat 64 32) 2 ⟨[1, 5, 6, 7, 8, 9, 2, 3, 10, 3, 11, 2, 12, 2], [7, 9], none⟩ := by
  have both := wellformed_iff (wordLevel_silent 64 32) shortIds_read (show _ = Except.ok
    ⟨[1, 5, 6, 7, 8, 9, 2, 3, 10, 3, 11, 2, 12, 2], [7, 9], none⟩ from rfl)
  have plain : (wordFormat 64 32).Plain .choice :=
    ⟨by decide, by decide, by decide, by decide, by decide +kernel⟩
  exact both.1.mpr (.inl ⟨.inl (by decide), by unfold Numbered; decide, both.2 plain⟩)

set_option maxRecDepth 2000 in
/-- With the head's share two tokens short of the row, a long question pushes the closing separator out. -/
theorem closing_lost : (wordFormat 24 22).Silent wordLevel ∧ ∃ out, (wordFormat 24 22).build wordLevel .choice
    "which team which team which team which team which team which team which team which team".toList
    ["billing".toList, "other".toList] "help".toList = .ok out ∧ out.tokens.getLast? ≠ some (wordFormat 24 22).sep :=
  ⟨wordLevel_silent 24 22, ⟨[1, 5, 6, 7, 8, 9, 8, 9, 8, 9, 8, 9, 8, 9, 8, 9, 8, 9, 8, 2, 3, 10, 3, 11], [20, 22], none⟩, rfl,
    by decide⟩

end Example

end DecisionFormat

end Vapi.Tokenize
