import Mathlib.Algebra.BigOperators.Group.List.Basic
import Mathlib.Algebra.Ring.Nat

/-!
# Packed lists of lists

Several lists laid end to end, and the offsets at which each begins. What is
done to each piece by itself splits: done to all of them laid end to end, it
gives each piece what it would give it alone.
-/

namespace Ragged

variable {α β : Type}

/-- Where each of the pieces begins, from `n` on, and where the last one ends. -/
def offsets : Nat → List Nat → List Nat
  | n, [] => [n]
  | n, l :: ls => n :: offsets (n + l) ls

@[simp] theorem offsets_length (n : Nat) (ls : List Nat) : (offsets n ls).length = ls.length + 1 := by
  induction ls generalizing n with
  | nil => rfl
  | cons l ls ih => simp [offsets, ih]

theorem offsets_getElem? (n : Nat) {ls : List Nat} {i : Nat} (h : i ≤ ls.length) :
    (offsets n ls)[i]? = some (n + (ls.take i).sum) := by
  induction ls generalizing n i with
  | nil =>
    obtain rfl : i = 0 := Nat.le_zero.mp h
    rfl
  | cons l ls ih =>
    cases i with
    | zero => simp [offsets]
    | succ i =>
      have := ih (n + l) (Nat.le_of_succ_le_succ h)
      simpa [offsets, Nat.add_assoc] using this

theorem offsets_append (n l : Nat) (ls : List Nat) :
    offsets n (ls ++ [l]) = offsets n ls ++ [n + ls.sum + l] := by
  induction ls generalizing n with
  | nil => rfl
  | cons k ls ih => simp [offsets, ih, Nat.add_assoc]

theorem offsets_getLast? (n : Nat) (ls : List Nat) : (offsets n ls).getLast? = some (n + ls.sum) := by
  rw [List.getLast?_eq_getElem?, offsets_length, Nat.add_sub_cancel, offsets_getElem? n (Nat.le_refl _),
    List.take_length]

theorem offsets_head? (n : Nat) (ls : List Nat) : (offsets n ls).head? = some n := by
  cases ls <;> rfl

theorem take_sum_le (ls : List Nat) (i : Nat) : (ls.take i).sum ≤ ls.sum := by
  conv_rhs => rw [← List.take_append_drop i ls, List.sum_append]
  exact Nat.le_add_right _ _

/-- An element of a piece lies at the piece's offset plus its own. -/
theorem flatMap_getElem? {f : α → List β} {xs : List α} {i k : Nat} {x : α} (hx : xs[i]? = some x)
    (hk : k < (f x).length) :
    (xs.flatMap f)[((xs.take i).map fun x => (f x).length).sum + k]? = (f x)[k]? := by
  induction xs generalizing i with
  | nil => simp at hx
  | cons y xs ih =>
    cases i with
    | zero =>
      obtain rfl : y = x := by simpa using hx
      simp [List.getElem?_append_left hk]
    | succ i =>
      rw [List.take_succ_cons, List.map_cons, List.sum_cons, List.flatMap_cons, Nat.add_assoc,
        List.getElem?_append_right (Nat.le_add_right _ _), Nat.add_sub_cancel_left]
      exact ih (by simpa using hx)

/-- Where each of the pieces begins, and its length. -/
def spans : Nat → List Nat → List (Nat × Nat)
  | _, [] => []
  | n, l :: ls => (n, l) :: spans (n + l) ls

def slice (xs : List β) (span : Nat × Nat) : List β := (xs.drop span.1).take span.2

@[simp] theorem spans_length (n : Nat) (ls : List Nat) : (spans n ls).length = ls.length := by
  induction ls generalizing n with
  | nil => rfl
  | cons l ls ih => simp [spans, ih]

/-- The slices of a flat list are its pieces. -/
theorem slices (pre : List β) {f : α → List β} {len : α → Nat} {xs : List α} (lens : ∀ x ∈ xs, (f x).length = len x) :
    (spans pre.length (xs.map len)).map (slice (pre ++ xs.flatMap f)) = xs.map f := by
  induction xs generalizing pre with
  | nil => rfl
  | cons x xs ih =>
    have here := lens x (by simp)
    have rest := ih (pre ++ f x) fun y hy => lens y (by simp [hy])
    rw [List.length_append, here] at rest
    simp only [List.map_cons, spans, List.flatMap_cons, ← List.append_assoc, rest, slice]
    simp [here]

theorem spans_snd (n : Nat) (ls : List Nat) : (spans n ls).map Prod.snd = ls := by
  induction ls generalizing n with
  | nil => rfl
  | cons l ls ih => simp [spans, ih]

theorem spans_getElem? (n : Nat) (ls : List Nat) (i : Nat) :
    (spans n ls)[i]? = ls[i]?.map fun l => (n + (ls.take i).sum, l) := by
  induction ls generalizing n i with
  | nil => rfl
  | cons l ls ih =>
    cases i with
    | zero => simp [spans]
    | succ i => simp [spans, ih, Nat.add_assoc]

theorem slice_at {f : α → List β} {len : α → Nat} {xs : List α} (lens : ∀ x ∈ xs, (f x).length = len x) {i : Nat} {x : α}
    (hx : xs[i]? = some x) : slice (xs.flatMap f) (((xs.take i).map len).sum, len x) = f x := by
  have at_ := congrArg (·[i]?) (slices [] lens)
  simpa [spans_getElem?, hx, List.map_take] using at_

/-- Elements named by their piece's offset and their own. -/
theorem pick_spans (pre : List β) {f : α → List β} {len : α → Nat} {xs : List α}
    (lens : ∀ x ∈ xs, (f x).length = len x) (at_ : α → List Nat) (within : ∀ x ∈ xs, ∀ k ∈ at_ x, k < len x) :
    (List.zipWith (fun span x => (at_ x).map (span.1 + ·)) (spans pre.length (xs.map len)) xs).flatten.map
        (fun i => (pre ++ xs.flatMap f)[i]?) =
      xs.flatMap fun x => (at_ x).map fun k => (f x)[k]? := by
  induction xs generalizing pre with
  | nil => rfl
  | cons x xs ih =>
    have here := lens x (by simp)
    have rest := ih (pre ++ f x) (fun y hy => lens y (by simp [hy])) fun y hy => within y (by simp [hy])
    rw [List.length_append, here] at rest
    simp only [List.map_cons, spans, List.zipWith_cons_cons, List.flatten_cons, List.map_append, List.flatMap_cons,
      ← List.append_assoc, rest]
    congr 1
    rw [List.map_map]
    refine List.map_congr_left fun k hk => ?_
    have inside : k < (f x).length := here ▸ within x (by simp) k hk
    simp [List.getElem?_append_right, List.getElem?_append_left inside, List.append_assoc]

theorem zipWith_flatMap {γ δ : Type} (g : β → γ → δ) {a : α → List β} {b : α → List γ} {xs : List α}
    (lens : ∀ x ∈ xs, (a x).length = (b x).length) :
    List.zipWith g (xs.flatMap a) (xs.flatMap b) = xs.flatMap fun x => List.zipWith g (a x) (b x) := by
  induction xs with
  | nil => rfl
  | cons x xs ih =>
    rw [List.flatMap_cons, List.flatMap_cons, List.flatMap_cons, List.zipWith_append (lens x (by simp)),
      ih fun y hy => lens y (by simp [hy])]

section Splits

variable {γ δ : Type} {len : α → Nat} {fits : List α → Prop}

/-- The operation gives each piece what it would give it alone, and leaves its length. -/
def Splits (len : α → Nat) (fits : List α → Prop) (op : List α → List β → List γ) : Prop :=
  ∀ (xs : List α) (f : α → List β), fits xs → (∀ x ∈ xs, (f x).length = len x) →
    op xs (xs.flatMap f) = xs.flatMap (fun x => op [x] (f x)) ∧ ∀ x ∈ xs, (op [x] (f x)).length = len x

theorem Splits.map (g : β → γ) : Splits len fits fun _ => List.map g := by
  intro xs f _ lens
  exact ⟨List.map_flatMap, fun x hx => by rw [List.length_map, lens x hx]⟩

theorem Splits.comp {op : List α → List β → List γ} {op' : List α → List γ → List δ}
    (second : Splits len fits op') (first : Splits len fits op) :
    Splits len fits fun xs bs => op' xs (op xs bs) := by
  intro xs f ok lens
  obtain ⟨flat, lens'⟩ := first xs f ok lens
  obtain ⟨flat', lens''⟩ := second xs _ ok lens'
  exact ⟨by simp only [flat, flat'], lens''⟩

/-- Two operations side by side. -/
theorem Splits.zipWith {op : List α → List β → List γ} {op' : List α → List β → List δ} {ε : Type} (g : γ → δ → ε)
    (left : Splits len fits op) (right : Splits len fits op') :
    Splits len fits fun xs bs => List.zipWith g (op xs bs) (op' xs bs) := by
  intro xs f ok lens
  obtain ⟨flat, lens₁⟩ := left xs f ok lens
  obtain ⟨flat', lens₂⟩ := right xs f ok lens
  refine ⟨?_, fun x hx => by rw [List.length_zipWith, lens₁ x hx, lens₂ x hx, Nat.min_self]⟩
  simp only [flat, flat']
  exact zipWith_flatMap g fun x hx => (lens₁ x hx).trans (lens₂ x hx).symm

/-- What each piece has by itself, whatever is in it. -/
theorem Splits.const (own : α → List γ) (lens : ∀ xs, fits xs → ∀ x ∈ xs, (own x).length = len x) :
    Splits len fits fun xs (_ : List β) => xs.flatMap own := by
  intro xs f ok _
  exact ⟨by simp, fun x hx => by simpa using lens xs ok x hx⟩

theorem Splits.congr {op op' : List α → List β → List γ} (one : ∀ xs, fits xs → ∀ x ∈ xs, fits [x])
    (same : ∀ xs bs, fits xs → op xs bs = op' xs bs) (splits : Splits len fits op') : Splits len fits op := by
  intro xs f ok lens
  obtain ⟨flat, lens'⟩ := splits xs f ok lens
  refine ⟨?_, fun x hx => same [x] (f x) (one xs ok x hx) ▸ lens' x hx⟩
  rw [same xs _ ok, flat]
  exact List.flatMap_congr fun x hx => (same [x] (f x) (one xs ok x hx)).symm

theorem Splits.foldl {ι : Type} {op : ι → List α → List β → List β} (each : ∀ i, Splits len fits (op i)) (is : List ι) :
    Splits len fits fun xs bs => is.foldl (fun bs i => op i xs bs) bs := by
  induction is with
  | nil => exact fun xs f _ lens => ⟨rfl, lens⟩
  | cons i is ih => exact ih.comp (each i)

end Splits

end Ragged
