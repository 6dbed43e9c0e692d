import Mathlib.Logic.Basic

/-!
# Results, errors and faults

A program that has a result, refuses with an error, or does what it must never
do. `Ends` says that it does one of the first two, and what holds of a result.
-/

namespace Faults

variable {ε α β : Type}

/-- No result and no error. -/
def fault : ExceptT ε Option α := ExceptT.mk none

/-- There is no fault, and a result has the property. -/
def Ends (x : ExceptT ε Option α) (P : α → Prop) : Prop := ∃ r : Except ε α, x.run = some r ∧ ∀ a, r = .ok a → P a

theorem Ends.pure {P : α → Prop} {a : α} (h : P a) : Ends (Pure.pure a : ExceptT ε Option α) P :=
  ⟨.ok a, rfl, fun _ same => Except.ok.inj same ▸ h⟩

theorem Ends.throw (e : ε) (P : α → Prop) : Ends (throwThe ε e : ExceptT ε Option α) P :=
  ⟨.error _, rfl, fun _ => nofun⟩

theorem Ends.bind {x : ExceptT ε Option α} {f : α → ExceptT ε Option β} {P : α → Prop} {Q : β → Prop} (first : Ends x P)
    (rest : ∀ a, P a → Ends (f a) Q) : Ends (x >>= f) Q := by
  obtain ⟨r, is, holds⟩ := first
  cases r with
  | error e =>
    refine ⟨.error e, ?_, fun _ => nofun⟩
    rw [ExceptT.run_bind, is]
    rfl
  | ok a =>
    obtain ⟨r, is', holds'⟩ := rest a (holds a rfl)
    refine ⟨r, ?_, holds'⟩
    rw [ExceptT.run_bind, is]
    exact is'

theorem Ends.mono {x : ExceptT ε Option α} {P Q : α → Prop} (ends : Ends x P) (weaker : ∀ a, P a → Q a) : Ends x Q := by
  obtain ⟨r, is, holds⟩ := ends
  exact ⟨r, is, fun a same => weaker a (holds a same)⟩

end Faults
