import Mathlib.Logic.Function.Basic

/-!
# Paged memory

Memory in pages of a fixed size, read through a table of pages: cell `i` of a
table lies at offset `i % size` of the table's page number `i / size`.
-/

namespace Paged

variable {V : Type}

/-- What each page holds at each offset. -/
abbrev Memory (V : Type) := Nat → Nat → Option V

namespace Memory

/-- Write one cell, given by its number over all pages. -/
def write (m : Memory V) (size cell : Nat) (v : V) : Memory V :=
  Function.update m (cell / size) (Function.update (m (cell / size)) (cell % size) (some v))

/-- Copy one page over another. -/
def copy (m : Memory V) (src dst : Nat) : Memory V := Function.update m dst (m src)

def lookup (m : Memory V) (size : Nat) (table : List Nat) (i : Nat) : Option V := do
  let page ← table[i / size]?
  m page (i % size)

end Memory

/-- The first `n` cells of the table hold the values of `f`. -/
def Holds (m : Memory V) (size : Nat) (table : List Nat) (n : Nat) (f : Nat → V) : Prop :=
  ∀ i, i < n → m.lookup size table i = some (f i)

variable {m m' : Memory V} {size n i o page : Nat} {table : List Nat} {f : Nat → V} {v : V}

/-- A cell's number tells its page and its offset. -/
theorem cell_inj {p q i j : Nat} (hi : i < size) (hj : j < size)
    (same : p * size + i = q * size + j) : p = q ∧ i = j := by
  have div := congrArg (· / size) same
  have mod := congrArg (· % size) same
  simp only [Nat.mul_add_mod_self_right, Nat.mod_eq_of_lt hi, Nat.mod_eq_of_lt hj] at mod
  simp only [Nat.add_comm _ i, Nat.add_comm _ j, Nat.add_mul_div_right _ _ (Nat.zero_lt_of_lt hi),
    Nat.div_eq_of_lt hi, Nat.div_eq_of_lt hj, Nat.zero_add] at div
  exact ⟨div, mod⟩

theorem write_apply (size_pos : o < size) (p j : Nat) :
    m.write size (page * size + o) v p j = if p = page ∧ j = o then some v else m p j := by
  have div : (page * size + o) / size = page := by
    rw [Nat.add_comm, Nat.add_mul_div_right _ _ (by omega), Nat.div_eq_of_lt size_pos, Nat.zero_add]
  have mod : (page * size + o) % size = o := by
    rw [Nat.mul_add_mod_self_right, Nat.mod_eq_of_lt size_pos]
  unfold Memory.write
  rw [div, mod, Function.update_apply]
  by_cases hp : p = page
  · subst hp
    by_cases hj : j = o <;> simp [hj]
  · simp [hp]

theorem lookup_of_page (h : table[i / size]? = some page) :
    m.lookup size table i = m page (i % size) := by
  simp [Memory.lookup, h]

theorem lookup_some_page (h : m.lookup size table i = some v) :
    ∃ page, table[i / size]? = some page ∧ m page (i % size) = some v :=
  Option.bind_eq_some_iff.mp h

/-- Memories that agree on a cell's page agree on the cell. -/
theorem lookup_congr (same : ∀ page, table[i / size]? = some page → m' page (i % size) = m page (i % size)) :
    m'.lookup size table i = m.lookup size table i := by
  unfold Memory.lookup
  cases h : table[i / size]? with
  | none => rfl
  | some page => exact same page h

theorem Holds.mono {k : Nat} (h : Holds m size table n f) (le : k ≤ n) : Holds m size table k f :=
  fun i hi => h i (Nat.lt_of_lt_of_le hi le)

theorem Holds.congr (h : Holds m size table n f)
    (same : ∀ i page, i < n → table[i / size]? = some page → m' page (i % size) = m page (i % size)) :
    Holds m' size table n f :=
  fun i hi => (lookup_congr fun page hp => same i page hi hp).trans (h i hi)

/-- The same cells, of another value function that agrees on them. -/
theorem Holds.values {g : Nat → V} (h : Holds m size table n f) (same : ∀ i, i < n → g i = f i) :
    Holds m size table n g :=
  fun i hi => by rw [h i hi, same i hi]

/-- The table may go on. -/
theorem Holds.append (h : Holds m size table n f) (more : List Nat) : Holds m size (table ++ more) n f := by
  intro i hi
  obtain ⟨page, hp, hv⟩ := lookup_some_page (h i hi)
  rw [lookup_of_page (by rw [List.getElem?_append_left (List.getElem?_eq_some_iff.mp hp).1]; exact hp)]
  exact hv

/-- Tables whose pages hold the same cells. -/
theorem Holds.swap {table' : List Nat} (h : Holds m size table n f)
    (same : ∀ i page, i < n → table[i / size]? = some page →
      ∃ page', table'[i / size]? = some page' ∧ m' page' (i % size) = m page (i % size)) :
    Holds m' size table' n f := by
  intro i hi
  obtain ⟨page, hp, hv⟩ := lookup_some_page (h i hi)
  obtain ⟨page', hp', eq⟩ := same i page hi hp
  rw [lookup_of_page hp', eq, hv]

/-- The next cell is written, and none before it lies there. -/
theorem Holds.write (h : Holds m size table n f) (size_pos : 0 < size) (here : table[n / size]? = some page)
    (once : ∀ i, table[i]? = some page → i = n / size) :
    Holds (m.write size (page * size + n % size) (f n)) size table (n + 1) f := by
  have lt := Nat.mod_lt n size_pos
  intro i hi
  by_cases e : i = n
  · subst e
    rw [lookup_of_page here, write_apply lt, if_pos ⟨rfl, rfl⟩]
  · rw [lookup_congr fun p hp => ?_]
    · exact h i (by omega)
    · rw [write_apply lt, if_neg]
      rintro ⟨rfl, mod⟩
      have div := once _ hp
      exact e (by rw [← Nat.div_add_mod i size, div, mod, Nat.div_add_mod])

/-- A cell of a page the table does not have, or only from a later cell on. -/
theorem Holds.write_later (h : Holds m size table n f) (lt : o < size)
    (later : ∀ i, table[i]? = some page → n ≤ i * size + o) :
    Holds (m.write size (page * size + o) v) size table n f := by
  refine h.congr fun i p hi hp => ?_
  rw [write_apply lt, if_neg]
  rintro ⟨rfl, mod⟩
  have := later _ hp
  have := Nat.div_add_mod i size
  rw [Nat.mul_comm] at this
  omega

/-- Copies leave a page alone that none goes to. -/
theorem copies_other (l : List (Nat × Nat)) (m : Memory V) {p : Nat} (out : p ∉ l.map Prod.snd) :
    l.foldl (fun d c => d.copy c.1 c.2) m p = m p := by
  induction l generalizing m with
  | nil => rfl
  | cons c l ih =>
    rw [List.map_cons, List.mem_cons, not_or] at out
    exact (ih _ out.2).trans (Function.update_of_ne out.1 ..)

/-- Copies of one page to others, none of them that page. -/
theorem copies_apply {l : List (Nat × Nat)} {src : Nat} (from_ : ∀ c ∈ l, c.1 = src)
    (apart : ∀ c ∈ l, c.2 ≠ src) (p : Nat) :
    l.foldl (fun d c => d.copy c.1 c.2) m p = if p ∈ l.map Prod.snd then m src else m p := by
  induction l generalizing m with
  | nil => rfl
  | cons c l ih =>
    have first : m.copy c.1 c.2 src = m src := Function.update_of_ne (apart c (by simp)).symm ..
    rw [List.foldl_cons, ih (fun x hx => from_ x (by simp [hx])) (fun x hx => apart x (by simp [hx])), first,
      List.map_cons]
    by_cases later : p ∈ l.map Prod.snd
    · rw [if_pos later, if_pos (List.mem_cons_of_mem _ later)]
    · by_cases here : p = c.2
      · rw [if_neg later, if_pos (by simp [here]), here, Memory.copy, Function.update_self, from_ c (by simp)]
      · rw [if_neg later, if_neg (by simp [here, later]), Memory.copy, Function.update_of_ne here]

end Paged
