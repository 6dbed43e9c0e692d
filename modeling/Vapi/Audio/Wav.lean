import Vapi.Cache.Hash
import Vapi.Lib.Faults

/-!
# The WAV reader

`vapi-audio/src/wav.rs`: the walk over a file's chunks, and the samples of its
data. A slice outside the file or a sum past 64 bits would be a panic, which is
none here; what the reader refuses is an error.
-/

namespace Vapi.Audio

open Cache (ascii leBytes)
open Faults (Ends)

/-- 32-bit floats, as far as they are used here. -/
structure F32 (F : Type) where
  zero : F
  ofInt : Int → F
  ofBits : Nat → F
  add : F → F → F
  sub : F → F → F
  div : F → F → F

/-- A result, an error, or none of both. -/
abbrev Outcome (α : Type) := ExceptT Error Option α

def fault {α : Type} : Outcome α := ExceptT.mk none

def bad {α : Type} (message : String) : Outcome α := throw (.invalidRequest ("wav: " ++ message))

/-- A sum of lengths. -/
def usize (n : Nat) : Outcome Nat := if n < 2 ^ 64 then pure n else fault

def slice? (bytes : List UInt8) (first last : Nat) : Option (List UInt8) :=
  if first ≤ last ∧ last ≤ bytes.length then some ((bytes.take last).drop first) else none

def slice (bytes : List UInt8) (first last : Nat) : Outcome (List UInt8) := (slice? bytes first last).elim fault pure

def leValue : List UInt8 → Nat
  | [] => 0
  | b :: bytes => b.toNat + 256 * leValue bytes

def leAt (width : Nat) (bytes : List UInt8) (at_ : Nat) : Outcome Nat := do
  let last ← usize (at_ + width)
  (slice? bytes at_ last).elim (bad "truncated header") fun s => pure (leValue s)

def u16At : List UInt8 → Nat → Outcome Nat := leAt 2

def u32At : List UInt8 → Nat → Outcome Nat := leAt 4

/-- What the walk has found. -/
structure Found where
  /-- Its tag, bits and channels. -/
  format : Option (Nat × Nat × Nat) := none
  rate : Nat := 0
  data : Option (List UInt8) := none
  deriving DecidableEq

/-- What a chunk tells, its body between two bytes of the file. -/
def find (bytes id : List UInt8) (body end_ : Nat) (w : Found) : Outcome Found :=
  if id = ascii "fmt " then do
    let tag ← u16At bytes body
    let channels ← u16At bytes (← usize (body + 2))
    let rate ← u32At bytes (← usize (body + 4))
    let bits ← u16At bytes (← usize (body + 14))
    pure { w with format := some (tag, bits, channels), rate }
  else if id = ascii "data" then do
    let data ← slice bytes body end_
    pure { w with data := some data }
  else pure w

/-- One turn of the walk: the chunk at `at_`, and where the next one is. -/
def chunk (bytes : List UInt8) (at_ : Nat) (w : Found) : Outcome (Nat × Found) := do
  let id ← slice bytes at_ (← usize (at_ + 4))
  let size ← u32At bytes (← usize (at_ + 4))
  let body ← usize (at_ + 8)
  let end_ := min (min (body + size) (2 ^ 64 - 1)) bytes.length
  let w ← find bytes id body end_ w
  -- chunks are word-aligned; an odd size carries a pad byte
  let next ← usize (body + size)
  let next ← usize (next + size % 2)
  pure (next, w)

/-- The walk. Every turn is past the eight bytes of a chunk's header, so the file's length bounds the turns. -/
def walk (bytes : List UInt8) : Nat → Nat → Found → Outcome Found
  | 0, _, _ => fault
  | fuel + 1, at_, w => do
    let body ← usize (at_ + 8)
    if bytes.length < body then pure w
    else do
      let (at_, w) ← chunk bytes at_ w
      walk bytes fuel at_ w

/-- Whole groups of `n` bytes; what is left over is dropped. -/
def chunksExact (n : Nat) (l : List UInt8) : List (List UInt8) :=
  (List.range (l.length / n)).map fun i => (l.drop (i * n)).take n

/-- Little-endian two's complement in `w` bits. -/
def fromLe (w : Nat) (bytes : List UInt8) : Int := (BitVec.ofNat w (leValue bytes)).toInt

/-- Sign-extend the 24-bit value. -/
def int24 (c : List UInt8) : Int :=
  let byte i := BitVec.ofNat 32 (c.getD i 0).toNat
  ((byte 2 <<< 24 ||| byte 1 <<< 16 ||| byte 0 <<< 8).sshiftRight 8).toInt

variable {F : Type} (k : F32 F)

def samplesOf (tag bits : Nat) (data : List UInt8) : Outcome (List F) :=
  -- 1 is PCM, 3 IEEE float, 0xFFFE extensible, whose real tag is in the extension
  if (tag = 1 ∨ tag = 0xFFFE) ∧ bits = 8 then
    pure (data.map fun b => k.div (k.sub (k.ofInt b.toNat) (k.ofInt 128)) (k.ofInt 128))
  else if (tag = 1 ∨ tag = 0xFFFE) ∧ bits = 16 then
    pure ((chunksExact 2 data).map fun c => k.div (k.ofInt (fromLe 16 c)) (k.ofInt 32768))
  else if (tag = 1 ∨ tag = 0xFFFE) ∧ bits = 24 then
    pure ((chunksExact 3 data).map fun c => k.div (k.ofInt (int24 c)) (k.ofInt 8388608))
  else if (tag = 1 ∨ tag = 0xFFFE) ∧ bits = 32 then
    pure ((chunksExact 4 data).map fun c => k.div (k.ofInt (fromLe 32 c)) (k.ofInt 2147483648))
  else if tag = 3 ∧ bits = 32 then pure ((chunksExact 4 data).map fun c => k.ofBits (leValue c))
  else bad ("unsupported format tag " ++ toString tag ++ " at " ++ toString bits ++
    " bits; PCM 8/16/24/32 and float32 are supported")

/-- Decoded PCM, its samples interleaved. -/
structure Pcm (F : Type) where
  samples : List F
  sampleRate : Nat
  channels : Nat

def decode (bytes : List UInt8) : Outcome (Pcm F) := do
  if bytes.length < 12 ∨ (bytes.take 4) ≠ ascii "RIFF" ∨ (bytes.drop 8).take 4 ≠ ascii "WAVE" then
    bad "not a RIFF/WAVE file"
  else do
    let w ← walk bytes (bytes.length + 1) 12 {}
    match w.format, w.data with
    | none, _ => bad "no fmt chunk"
    | some _, none => bad "no data chunk"
    | some (tag, bits, channels), some data =>
      if channels = 0 ∨ w.rate = 0 then bad "zero channels or sample rate"
      else do
        let samples ← samplesOf k tag bits data
        pure { samples, sampleRate := w.rate, channels }

/-- Groups of `n`, the last of which may be shorter. -/
def chunks (n : Nat) (l : List F) : List (List F) :=
  (List.range ((l.length + n - 1) / n)).map fun i => (l.drop (i * n)).take n

/-- Average interleaved channels down to one. -/
def toMono (samples : List F) (channels : Nat) : List F :=
  if channels ≤ 1 then samples
  else (chunks channels samples).map fun frame => k.div (frame.foldl k.add k.zero) (k.ofInt frame.length)

section Ends

theorem bad_ends {α : Type} (message : String) (P : α → Prop) : Ends (bad message) P := .throw _ P

theorem usize_of_lt {n : Nat} (small : n < 2 ^ 64) : usize n = pure n := if_pos small

theorem usize_ends {n : Nat} (small : n < 2 ^ 64) : Ends (usize n) (· = n) := by
  rw [usize_of_lt small]
  exact .pure rfl

variable {bytes : List UInt8}

theorem slice_ends {first last : Nat} (ordered : first ≤ last) (within : last ≤ bytes.length) :
    Ends (slice bytes first last) fun _ => True := by
  rw [slice, slice?, if_pos ⟨ordered, within⟩]
  exact .pure trivial

theorem leValue_lt (bytes : List UInt8) : leValue bytes < 256 ^ bytes.length := by
  induction bytes with
  | nil => exact Nat.zero_lt_one
  | cons b bytes ih =>
    have byte := b.toNat_lt
    rw [leValue, List.length_cons, Nat.pow_succ]
    omega

theorem leAt_ends {width at_ : Nat} (small : at_ + width < 2 ^ 64) :
    Ends (leAt width bytes at_) (· < 256 ^ width) := by
  refine (usize_ends small).bind fun last is => ?_
  subst is
  rw [slice?]
  split
  · refine .pure ?_
    have value := leValue_lt ((bytes.take (at_ + width)).drop at_)
    rwa [List.length_drop, List.length_take, Nat.min_eq_left (by omega), Nat.add_sub_cancel_left] at value
  · exact bad_ends _ _

theorem find_ends {body end_ : Nat} (small : body + 16 < 2 ^ 64) (ordered : body ≤ end_) (within : end_ ≤ bytes.length)
    (id : List UInt8) (w : Found) : Ends (find bytes id body end_ w) fun _ => True := by
  unfold find
  split
  · refine (leAt_ends (by omega)).bind fun tag _ => ?_
    refine (usize_ends (by omega)).bind fun place is => ?_
    subst is
    refine (leAt_ends (by omega)).bind fun channels _ => ?_
    refine (usize_ends (by omega)).bind fun place is => ?_
    subst is
    refine (leAt_ends (by omega)).bind fun rate _ => ?_
    refine (usize_ends (by omega)).bind fun place is => ?_
    subst is
    exact (leAt_ends (by omega)).bind fun bits _ => .pure trivial
  · split
    · exact (slice_ends ordered within).bind fun data _ => .pure trivial
    · exact .pure trivial

/-- A turn of the walk ends, and the next chunk is past the header of this one. -/
theorem chunk_ends (fits : bytes.length < 2 ^ 63) {at_ : Nat} (within : at_ + 8 ≤ bytes.length) (w : Found) :
    Ends (chunk bytes at_ w) fun next => at_ + 8 ≤ next.1 ∧ next.1 < 2 ^ 63 + 2 ^ 33 := by
  refine (usize_ends (by omega)).bind fun last is => ?_
  subst is
  refine (slice_ends (by omega) (by omega)).bind fun id _ => ?_
  refine (usize_ends (by omega)).bind fun place is => ?_
  subst is
  refine (leAt_ends (by omega)).bind fun size bounded => ?_
  have bounded : size < 2 ^ 32 := bounded
  refine (usize_ends (by omega)).bind fun body is => ?_
  subst is
  refine (find_ends (by omega) (by omega) (by omega) id w).bind fun w _ => ?_
  refine (usize_ends (by omega)).bind fun next is => ?_
  subst is
  refine (usize_ends (by omega)).bind fun next is => ?_
  subst is
  exact .pure (by dsimp only; omega)

theorem walk_ends (fits : bytes.length < 2 ^ 63) {fuel at_ : Nat} (turns : 0 < fuel)
    (enough : bytes.length < at_ + fuel) (small : at_ < 2 ^ 63 + 2 ^ 33) (w : Found) :
    Ends (walk bytes fuel at_ w) fun _ => True := by
  induction fuel generalizing at_ w with
  | zero => exact absurd turns (Nat.lt_irrefl 0)
  | succ fuel ih =>
    refine (usize_ends (by omega)).bind fun body is => ?_
    subst is
    split
    · exact .pure trivial
    · rename_i inside
      refine (chunk_ends fits (by omega) w).bind fun next later => ?_
      exact ih (by omega) (by omega) later.2 next.2

theorem samplesOf_ends {F : Type} (k : F32 F) (tag bits : Nat) (data : List UInt8) :
    Ends (samplesOf k tag bits data) fun _ => True := by
  unfold samplesOf
  repeat' split
  all_goals first | exact .pure trivial | exact bad_ends _ _

/-- Whatever the bytes are, the reader comes to a result or an error. -/
theorem decode_ends {F : Type} (k : F32 F) (fits : bytes.length < 2 ^ 63) : Ends (decode k bytes) fun _ => True := by
  unfold decode
  split
  · exact bad_ends _ _
  · refine (walk_ends fits (Nat.succ_pos _) (by omega) (by omega) {}).bind fun w _ => ?_
    split
    · exact bad_ends _ _
    · exact bad_ends _ _
    · split
      · exact bad_ends _ _
      · exact (samplesOf_ends k _ _ _).bind fun samples _ => .pure trivial

end Ends

end Vapi.Audio
