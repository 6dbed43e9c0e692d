import Vapi.Audio.Chunks

/-!
# Mel frames

How many frames a clip has, and the samples each of them reads. What is made
of a frame's samples is a function.
-/

namespace Vapi.Audio

structure MelSettings where
  nFft : Nat
  hopLength : Nat
  nMels : Nat

/-- A configured frontend: what a windowed frame has under each filter. -/
structure MelSpectrogram (S : Type) where
  settings : MelSettings
  energy : List S → Nat → S

/-- The index of a position that may be outside of the samples, reflected at
both edges. -/
def reflect (at_ : Int) (len : Nat) : Nat :=
  if len = 0 then 0
  else if len = 1 then 0
  else
    let period : Int := 2 * (len - 1)
    let i := at_ % period
    (if i ≥ len then period - i else i).toNat

theorem reflect_lt {len : Nat} (some_ : 0 < len) (at_ : Int) : reflect at_ len < len := by
  unfold reflect
  rw [if_neg some_.ne']
  by_cases one : len = 1
  · rw [if_pos one]
    exact some_
  · rw [if_neg one]
    have lower := Int.emod_nonneg at_ (show (2 * (len - 1) : Int) ≠ 0 by omega)
    have upper := Int.emod_lt_of_pos at_ (show (0 : Int) < 2 * (len - 1) by omega)
    dsimp only
    split <;> omega

namespace MelSpectrogram

variable {S : Type} (mel : MelSpectrogram S)

def numFrames (samples : Nat) : Except String Nat :=
  if mel.settings.hopLength = 0 then .error "attempt to divide by zero" else .ok (samples / mel.settings.hopLength)

/-- The samples of frame `t`, which is centred. -/
def frame (samples : List S) (t : Nat) : Except String (List S) :=
  (List.range mel.settings.nFft).mapM fun i =>
    let at_ := t * mel.settings.hopLength + i
    let idx := reflect (at_ - (mel.settings.nFft / 2 : Nat)) samples.length
    (samples[idx]?).elim (.error "index out of bounds") .ok

/-- The features, for each filter those of every frame. -/
def compute (samples : List S) : Except String (List (List S)) := do
  let frames ← mel.numFrames samples.length
  if frames = 0 then return List.replicate mel.settings.nMels []
  let read ← (List.range frames).mapM (mel.frame samples)
  return (List.range mel.settings.nMels).map fun m => read.map fun frame => mel.energy frame m

/-- Where each is made, all are. -/
theorem mapM_total {α β ε : Type} {f : α → Except ε β} {l : List α} (each : ∀ x ∈ l, ∃ y, f x = .ok y) :
    ∃ ys, l.mapM f = .ok ys ∧ ys.length = l.length := by
  induction l with
  | nil => exact ⟨[], rfl, rfl⟩
  | cons x l ih =>
    obtain ⟨⟨y, made⟩, later⟩ := List.forall_mem_cons.mp each
    obtain ⟨ys, rest, same⟩ := ih later
    refine ⟨y :: ys, ?_, by rw [List.length_cons, List.length_cons, same]⟩
    rw [List.mapM_cons, made, rest]
    rfl

variable {samples : List S}

theorem frame_total (some_ : samples ≠ []) (t : Nat) : ∃ read, mel.frame samples t = .ok read := by
  refine (mapM_total fun i _ => ?_).imp fun _ made => made.1
  have inside := reflect_lt (List.length_pos_iff.mpr some_)
    ((t * mel.settings.hopLength + i : Nat) - (mel.settings.nFft / 2 : Nat))
  dsimp only
  rw [List.getElem?_eq_getElem inside]
  exact ⟨_, rfl⟩

variable {mel}

/-- A clip of any length has its features, one for each whole hop. -/
theorem compute_eq (hop : 0 < mel.settings.hopLength) (samples : List S) :
    ∃ out, mel.compute samples = .ok out ∧ out.length = mel.settings.nMels ∧
      ∀ row ∈ out, row.length = samples.length / mel.settings.hopLength := by
  rw [compute, numFrames, if_neg hop.ne']
  by_cases none_ : samples.length / mel.settings.hopLength = 0
  · refine ⟨List.replicate mel.settings.nMels [], if_pos none_, List.length_replicate, fun row mem => ?_⟩
    rw [List.eq_of_mem_replicate mem, none_]
    rfl
  · have some_ : samples ≠ [] := by
      rintro rfl
      exact none_ (Nat.zero_div _)
    obtain ⟨read, made, length⟩ := mapM_total fun t (_ : t ∈ List.range (samples.length / mel.settings.hopLength)) =>
      frame_total mel some_ t
    refine ⟨(List.range mel.settings.nMels).map fun m => read.map fun frame => mel.energy frame m, ?_, by simp, ?_⟩
    · refine (if_neg none_).trans ?_
      rw [made]
      rfl
    · intro row mem
      obtain ⟨m, -, rfl⟩ := List.mem_map.mp mem
      rw [List.length_map, length, List.length_range]

end MelSpectrogram

end Vapi.Audio
