import Vapi.Lib.Run
import Mathlib.Data.List.Forall2

/-!
# A desk that serves in order

Tickets wait in line, are begun in the order they came and are answered in
that order; a ticket may also leave, or be dismissed without having been begun.
-/

open Transition

/-- The tickets being served, and those behind them. -/
structure Desk (τ : Type) where
  begun : List τ
  waiting : List τ

namespace Desk

variable {ι τ α : Type}

inductive Entry (ι τ α : Type)
  | arrive (t : τ)
  | leave (i : ι)
  | start (i : ι)
  | answer (i : ι) (a : α)

variable [DecidableEq ι] (name : τ → ι) (settles : τ → α → Prop) (dismisses : α → Prop)

def tickets (d : Desk τ) : List τ := d.begun ++ d.waiting

inductive Step : Desk τ → Entry ι τ α → Desk τ → Prop
  | arrive (b w : List τ) (t : τ) : Step ⟨b, w⟩ (.arrive t) ⟨b, w ++ [t]⟩
  | leave (b w : List τ) (i : ι) : Step ⟨b, w⟩ (.leave i) ⟨b.filter (name · ≠ i), w.filter (name · ≠ i)⟩
  | start (b w : List τ) (t : τ) : Step ⟨b, t :: w⟩ (.start (name t)) ⟨b ++ [t], w⟩
  | settle (b w : List τ) (t : τ) (a : α) : settles t a → Step ⟨t :: b, w⟩ (.answer (name t) a) ⟨b, w⟩
  | dismiss (b w : List τ) (t : τ) (a : α) : dismisses a → Step ⟨t :: b, w⟩ (.answer (name t) a) ⟨b, w⟩
  | turnAway (w : List τ) (t : τ) (a : α) : dismisses a → Step ⟨[], t :: w⟩ (.answer (name t) a) ⟨[], w⟩

def arrivals (i : ι) (h : List (Entry ι τ α)) : List τ :=
  h.filterMap fun
    | .arrive t => if name t = i then some t else none
    | _ => none

def answers (i : ι) (h : List (Entry ι τ α)) : List α :=
  h.filterMap fun
    | .answer j a => if j = i then some a else none
    | _ => none

def starts (i : ι) (h : List (Entry ι τ α)) : List Unit :=
  h.filterMap fun
    | .start j => if j = i then some () else none
    | _ => none

/-- Every ticket that arrives. -/
def arrived (h : List (Entry ι τ α)) : List τ :=
  h.filterMap fun
    | .arrive t => some t
    | _ => none

/-- Those of a list that go by a name. -/
def named (i : ι) (l : List τ) : List τ := l.filter (name · = i)

theorem named_append (i : ι) (l m : List τ) : named name i (l ++ m) = named name i l ++ named name i m :=
  List.filter_append ..

theorem named_filter_ne {i j : ι} (ne : i ≠ j) (l : List τ) :
    named name j (l.filter (name · ≠ i)) = named name j l := by
  unfold named
  rw [List.filter_filter]
  refine List.filter_congr fun t _ => ?_
  by_cases h : name t = j
  · simp [h, Ne.symm ne]
  · simp [h]

variable {name settles dismisses} {d d' : Desk τ} {h : List (Entry ι τ α)} {i : ι}

/-- The first of those waiting are begun. -/
theorem Run.start_all (b w rest : List τ) :
    Run (Step name settles dismisses) ⟨b, w ++ rest⟩ (w.map fun t => .start (name t)) ⟨b ++ w, rest⟩ := by
  induction w generalizing b with
  | nil => simpa using Run.nil
  | cons t w ih => simpa using (ih (b ++ [t])).cons (.start b (w ++ rest) t)

theorem Run.settle_all (answer : τ → α) (done b w : List τ) (right : ∀ t ∈ done, settles t (answer t)) :
    Run (Step name settles dismisses) ⟨done ++ b, w⟩ (done.map fun t => .answer (name t) (answer t)) ⟨b, w⟩ := by
  induction done with
  | nil => exact .nil
  | cons t done ih =>
    exact (ih fun t ht => right t (by simp [ht])).cons (.settle (done ++ b) w t _ (right t (by simp)))

theorem Run.dismiss_all (a : α) (gone : dismisses a) (b w : List τ) :
    Run (Step name settles dismisses) ⟨b, w⟩ ((b ++ w).map fun t => .answer (name t) a) ⟨[], []⟩ := by
  induction b with
  | nil =>
    induction w with
    | nil => exact .nil
    | cons t w ih => exact ih.cons (.turnAway w t a gone)
  | cons t b ih => exact ih.cons (.dismiss b w t a gone)

/-- Every ticket of a name that stays is answered once, in turn, or still at the desk. -/
theorem Run.answered (run : Run (Step name settles dismisses) d h d') (none : named name i d.tickets = [])
    (stays : Entry.leave i ∉ h) :
    ∃ served, arrivals name i h = served ++ named name i d'.tickets ∧
      List.Forall₂ (fun t a => settles t a ∨ dismisses a) served (answers i h) := by
  induction run with
  | nil => exact ⟨[], by simp [arrivals, none], .nil⟩
  | @snoc ls t u l run step ih =>
    obtain ⟨served, came, each⟩ := ih fun mem => stays (by simp [mem])
    have stays : Entry.leave i ≠ l := fun same => stays (by simp [same])
    simp only [arrivals, answers, List.filterMap_append] at came each ⊢
    cases step with
    | arrive b w t =>
      refine ⟨served, ?_, by simpa using each⟩
      rw [came]
      by_cases h : name t = i <;> simp [tickets, named, h]
    | leave b w j =>
      have other : j ≠ i := fun same => stays (same ▸ rfl)
      refine ⟨served, ?_, by simpa using each⟩
      rw [came]
      simp only [tickets, named_append, named_filter_ne name other]
      simp
    | start b w t =>
      refine ⟨served, ?_, by simpa using each⟩
      rw [came]
      simp [tickets]
    | settle b w t a settled =>
      by_cases h : name t = i
      · refine ⟨served ++ [t], ?_, ?_⟩
        · rw [came]
          simp [tickets, named, h]
        · simpa [h] using List.rel_append each (.cons (.inl settled) .nil)
      · refine ⟨served, ?_, by simpa [h] using each⟩
        rw [came]
        simp [tickets, named, h]
    | dismiss b w t a gone =>
      by_cases h : name t = i
      · refine ⟨served ++ [t], ?_, ?_⟩
        · rw [came]
          simp [tickets, named, h]
        · simpa [h] using List.rel_append each (.cons (.inr gone) .nil)
      · refine ⟨served, ?_, by simpa [h] using each⟩
        rw [came]
        simp [tickets, named, h]
    | turnAway w t a gone =>
      by_cases h : name t = i
      · refine ⟨served ++ [t], ?_, ?_⟩
        · rw [came]
          simp [tickets, named, h]
        · simpa [h] using List.rel_append each (.cons (.inr gone) .nil)
      · refine ⟨served, ?_, by simpa [h] using each⟩
        rw [came]
        simp [tickets, named, h]

/-- Nobody overtakes. -/
theorem Run.order (run : Run (Step name settles dismisses) d h d') :
    d'.tickets.Sublist (d.tickets ++ arrived h) := by
  induction run with
  | nil => simp [arrived]
  | @snoc ls t u l run step ih =>
    simp only [arrived, List.filterMap_append, ← List.append_assoc] at ih ⊢
    cases step with
    | arrive b w t => simpa [tickets] using ih.append (List.Sublist.refl [t])
    | leave b w j =>
      have fewer : ((b ++ w).filter (name · ≠ j)).Sublist (b ++ w) := List.filter_sublist
      rw [List.filter_append] at fewer
      simpa [tickets] using fewer.trans ih
    | start b w t => simpa [tickets] using ih
    | settle b w t a settled => simpa [tickets] using (List.sublist_cons_self t (b ++ w)).trans ih
    | dismiss b w t a gone => simpa [tickets] using (List.sublist_cons_self t (b ++ w)).trans ih
    | turnAway w t a gone => simpa [tickets] using (List.sublist_cons_self t w).trans ih

/-- A ticket is begun at most once, and not after it has left the line. -/
theorem Run.starts_le (run : Run (Step name settles dismisses) d h d') (stays : Entry.leave i ∉ h) :
    (starts i h).length + (named name i d'.waiting).length ≤
      (named name i d.waiting).length + (arrivals name i h).length := by
  induction run with
  | nil => simp [starts, arrivals]
  | @snoc ls t u l run step ih =>
    have ih := ih fun mem => stays (by simp [mem])
    have stays : Entry.leave i ≠ l := fun same => stays (by simp [same])
    simp only [starts, arrivals, List.filterMap_append, List.length_append] at ih ⊢
    cases step with
    | arrive b w t => by_cases h : name t = i <;> simp [named, h] at ih ⊢ <;> omega
    | leave b w j =>
      have other : j ≠ i := fun same => stays (same ▸ rfl)
      simp only [named_filter_ne name other]
      simpa using ih
    | start b w t => by_cases h : name t = i <;> simp [named, h] at ih ⊢ <;> omega
    | settle b w t a settled => simpa using ih
    | dismiss b w t a gone => simpa using ih
    | turnAway w t a gone => by_cases h : name t = i <;> simp [named, h] at ih ⊢ <;> omega

/-- What is settled was begun before. -/
theorem Run.settled_le (run : Run (Step name settles dismisses) d h d') (stays : Entry.leave i ∉ h) (full : α → Bool)
    (dismissal : ∀ a, dismisses a → full a = false) :
    ((answers i h).filter full).length + (named name i d'.begun).length ≤
      (named name i d.begun).length + (starts i h).length := by
  induction run with
  | nil => simp [starts, answers]
  | @snoc ls t u l run step ih =>
    have ih := ih fun mem => stays (by simp [mem])
    have stays : Entry.leave i ≠ l := fun same => stays (by simp [same])
    simp only [starts, answers, List.filterMap_append, List.filter_append, List.length_append] at ih ⊢
    cases step with
    | arrive b w t => simpa using ih
    | leave b w j =>
      have other : j ≠ i := fun same => stays (same ▸ rfl)
      simp only [named_filter_ne name other]
      simpa using ih
    | start b w t => by_cases h : name t = i <;> simp [named, h] at ih ⊢ <;> omega
    | settle b w t a settled =>
      have once := List.length_filter_le full [a]
      simp only [List.length_singleton] at once
      by_cases h : name t = i <;> simp [named, h] at ih ⊢ <;> omega
    | dismiss b w t a gone => by_cases h : name t = i <;> simp [named, h, dismissal a gone] at ih ⊢ <;> omega
    | turnAway w t a gone => by_cases h : name t = i <;> simp [h, dismissal a gone] at ih ⊢ <;> omega

end Desk
