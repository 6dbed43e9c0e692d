import Mathlib.Data.List.Perm.Basic

/-!
# Grouped values

A list of keys, each with what was put under it: an entry is changed in place,
or made of a default. What the groups hold together is what was put in, in
some order.
-/

namespace Groups

variable {κ V α : Type} [DecidableEq κ] {k : κ} {d : V} {f : V → V} {m : List (κ × V)}

/-- The entry of `k` changed; where there is none, the default is. -/
def update (k : κ) (d : V) (f : V → V) : List (κ × V) → List (κ × V)
  | [] => [(k, f d)]
  | (k', v) :: rest => if k' = k then (k', f v) :: rest else (k', v) :: update k d f rest

/-- What holds of every entry and of the default goes on to hold. -/
theorem forall_update {P : κ × V → Prop} (all : ∀ entry ∈ m, P entry) (start : P (k, d))
    (step : ∀ v, P (k, v) → P (k, f v)) : ∀ entry ∈ update k d f m, P entry := by
  induction m with
  | nil =>
    intro entry mem
    rw [List.mem_singleton.mp mem]
    exact step d start
  | cons entry rest ih =>
    obtain ⟨key, v⟩ := entry
    obtain ⟨here, later⟩ := List.forall_mem_cons.mp all
    rw [update]
    by_cases same : key = k
    · subst same
      rw [if_pos rfl]
      exact List.forall_mem_cons.mpr ⟨step v here, later⟩
    · rw [if_neg same]
      exact List.forall_mem_cons.mpr ⟨here, ih later⟩

/-- The groups hold one more than before. -/
theorem held_update {P : κ × V → Prop} (all : ∀ entry ∈ m, P entry) (start : P (k, d)) {held : κ × V → List α} {a : α}
    (none_ : held (k, d) = []) (one : ∀ v, P (k, v) → held (k, f v) = held (k, v) ++ [a]) :
    ((update k d f m).flatMap held).Perm (m.flatMap held ++ [a]) := by
  induction m with
  | nil => simp [update, one d start, none_]
  | cons entry rest ih =>
    obtain ⟨key, v⟩ := entry
    obtain ⟨here, later⟩ := List.forall_mem_cons.mp all
    rw [update]
    by_cases same : key = k
    · subst same
      rw [if_pos rfl, List.flatMap_cons, List.flatMap_cons, one v here, List.append_assoc, List.append_assoc]
      exact (List.perm_append_comm).append_left _
    · rw [if_neg same, List.flatMap_cons, List.flatMap_cons, List.append_assoc]
      exact (ih later).append_left _

end Groups
