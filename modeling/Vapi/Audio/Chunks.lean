import Vapi.Audio.Wav

/-!
# Well-formed files

A RIFF file is its header and a list of chunks. Of one with a format and its
data among any other chunks, the reader makes the samples of the data.
-/

namespace Vapi.Audio

open Cache (ascii leBytes leBytes_length)

section Bytes

variable {bytes : List UInt8}

/-- A little-endian field. -/
def field (offset width : Nat) (bytes : List UInt8) : Nat := leValue ((bytes.drop offset).take width)

theorem leValue_leBytes (width n : Nat) : leValue (leBytes width n) = n % 256 ^ width := by
  induction width generalizing n with
  | zero => exact (Nat.mod_one n).symm
  | succ width ih =>
    rw [leBytes, leValue, ih, Nat.pow_succ, Nat.mul_comm (256 ^ width), Nat.mod_mul]
    simp

theorem slice_eq {first width : Nat} (within : first + width ≤ bytes.length) :
    slice? bytes first (first + width) = some ((bytes.drop first).take width) := by
  rw [slice?, if_pos ⟨Nat.le_add_right _ _, within⟩, List.drop_take, Nat.add_sub_cancel_left]

theorem leAt_eq {width at_ : Nat} (fits : bytes.length < 2 ^ 63) (within : at_ + width ≤ bytes.length) :
    leAt width bytes at_ = pure (field at_ width bytes) := by
  rw [leAt, usize_of_lt (by omega), pure_bind, slice_eq within]
  rfl

/-- A part of a part of a file. -/
theorem part (pre body rest : List UInt8) {offset width : Nat} (within : offset + width ≤ body.length) :
    ((pre ++ body ++ rest).drop (pre.length + offset)).take width = (body.drop offset).take width := by
  obtain ⟨left, right, split, length⟩ : ∃ left right, body = left ++ right ∧ left.length = offset :=
    ⟨body.take offset, body.drop offset, (List.take_append_drop offset body).symm, by rw [List.length_take]; omega⟩
  have long : width ≤ right.length := by
    rw [split, List.length_append] at within
    omega
  have before : (pre ++ left).length = pre.length + offset := by rw [List.length_append, length]
  rw [split, show pre ++ (left ++ right) ++ rest = (pre ++ left) ++ (right ++ rest) by simp, ← before, List.drop_left,
    ← length, List.drop_left, List.take_append_of_le_length long]

theorem leAt_part (pre body rest : List UInt8) {offset width : Nat} (fits : (pre ++ body ++ rest).length < 2 ^ 63)
    (within : offset + width ≤ body.length) :
    leAt width (pre ++ body ++ rest) (pre.length + offset) = pure (field offset width body) := by
  have total : (pre ++ body ++ rest).length = pre.length + body.length + rest.length := by simp [Nat.add_assoc]
  rw [leAt_eq fits (by omega), field, part pre body rest within, field]

theorem slice_part (pre body rest : List UInt8) :
    slice (pre ++ body ++ rest) pre.length (pre.length + body.length) = pure body := by
  have total : (pre ++ body ++ rest).length = pre.length + body.length + rest.length := by simp [Nat.add_assoc]
  have all := part pre body rest (Nat.zero_add body.length).le
  rw [slice, slice_eq (by omega)]
  rw [Nat.add_zero, List.drop_zero, List.take_length] at all
  rw [all]
  rfl

end Bytes

/-- A chunk of a file. -/
structure Chunk where
  id : List UInt8
  body : List UInt8
  /-- What follows a body of odd length. -/
  pad : UInt8 := 0
  id_length : id.length = 4
  short : body.length < 2 ^ 32

namespace Chunk

def padding (c : Chunk) : List UInt8 := if c.body.length % 2 = 1 then [c.pad] else []

def bytes (c : Chunk) : List UInt8 := c.id ++ leBytes 4 c.body.length ++ c.body ++ c.padding

theorem padding_length (c : Chunk) : c.padding.length = c.body.length % 2 := by
  unfold padding
  split
  · rename_i odd
    exact odd.symm
  · rename_i even
    exact (Nat.mod_two_ne_one.mp even).symm

theorem bytes_length (c : Chunk) : c.bytes.length = 8 + c.body.length + c.body.length % 2 := by
  simp only [bytes, List.length_append, c.id_length, leBytes_length, padding_length]

/-- What the reader makes of a chunk. -/
def tell (w : Found) (c : Chunk) : Found :=
  if c.id = ascii "fmt " then
    { w with format := some (field 0 2 c.body, field 14 2 c.body, field 2 2 c.body), rate := field 4 4 c.body }
  else if c.id = ascii "data" then { w with data := some c.body }
  else w

/-- A format is long enough for the fields that are read of it. -/
def Long (c : Chunk) : Prop := c.id = ascii "fmt " → 16 ≤ c.body.length

end Chunk

section Walk

variable {pre rest : List UInt8} {c : Chunk}

/-- A chunk tells the reader what is in its body. -/
theorem find_eq (before after : List UInt8) (fits : (before ++ c.body ++ after).length < 2 ^ 63) (long : c.Long)
    (w : Found) : find (before ++ c.body ++ after) c.id before.length (before.length + c.body.length) w =
      pure (c.tell w) := by
  have total : (before ++ c.body ++ after).length = before.length + c.body.length + after.length := by
    simp [Nat.add_assoc]
  unfold find Chunk.tell
  split
  · rename_i format
    have long := long format
    have read : ∀ offset width, offset + width ≤ 16 →
        leAt width (before ++ c.body ++ after) (before.length + offset) = pure (field offset width c.body) :=
      fun offset width within => leAt_part before c.body after fits (by omega)
    have first := read 0 2 (by omega)
    rw [Nat.add_zero] at first
    simp only [u16At, u32At, usize_of_lt (show before.length + 2 < 2 ^ 64 by omega),
      usize_of_lt (show before.length + 4 < 2 ^ 64 by omega), usize_of_lt (show before.length + 14 < 2 ^ 64 by omega),
      first, read 2 2 (by omega), read 4 4 (by omega), read 14 2 (by omega), pure_bind]
  · split
    · rw [slice_part, pure_bind]
    · rfl

/-- A turn of the walk takes a chunk that is there. -/
theorem chunk_eq (fits : (pre ++ c.bytes ++ rest).length < 2 ^ 63) (long : c.Long) (w : Found) :
    chunk (pre ++ c.bytes ++ rest) pre.length w = pure (pre.length + c.bytes.length, c.tell w) := by
  have total : (pre ++ c.bytes ++ rest).length = pre.length + c.bytes.length + rest.length := by
    simp [Nat.add_assoc]
  have width := c.bytes_length
  have short := c.short
  have size := leBytes_length 4 c.body.length
  have id : slice (pre ++ c.bytes ++ rest) pre.length (pre.length + 4) = pure c.id := by
    have here := slice_part pre c.id (leBytes 4 c.body.length ++ c.body ++ c.padding ++ rest)
    rw [c.id_length] at here
    simpa only [Chunk.bytes, List.append_assoc] using here
  have length : u32At (pre ++ c.bytes ++ rest) (pre.length + 4) = pure c.body.length := by
    have here := leAt_part (pre ++ c.id) (leBytes 4 c.body.length) (c.body ++ c.padding ++ rest)
      (by simpa only [Chunk.bytes, List.append_assoc] using fits) (show 0 + 4 ≤ _ by omega)
    rw [Nat.add_zero, List.length_append, c.id_length, field, List.drop_zero, List.take_of_length_le (by omega),
      leValue_leBytes, Nat.mod_eq_of_lt (show c.body.length < 256 ^ 4 from short)] at here
    simpa only [u32At, Chunk.bytes, List.append_assoc] using here
  have told : find (pre ++ c.bytes ++ rest) c.id (pre.length + 8) (pre.length + 8 + c.body.length) w = pure (c.tell w) := by
    have here := find_eq (pre ++ c.id ++ leBytes 4 c.body.length) (c.padding ++ rest)
      (by simpa only [Chunk.bytes, List.append_assoc] using fits) long w
    rw [List.length_append, List.length_append, c.id_length, size] at here
    simpa only [Chunk.bytes, List.append_assoc] using here
  unfold chunk
  simp only [usize_of_lt (show pre.length + 4 < 2 ^ 64 by omega), usize_of_lt (show pre.length + 8 < 2 ^ 64 by omega),
    usize_of_lt (show pre.length + 8 + c.body.length < 2 ^ 64 by omega),
    usize_of_lt (show pre.length + 8 + c.body.length + c.body.length % 2 < 2 ^ 64 by omega), pure_bind, id, length,
    show min (min (pre.length + 8 + c.body.length) (2 ^ 64 - 1)) (pre ++ c.bytes ++ rest).length =
      pre.length + 8 + c.body.length by omega, told]
  rw [width]
  simp only [Nat.add_assoc]

/-- The walk takes every chunk of a file, and what is too short to be one ends it. -/
theorem walk_eq {chunks : List Chunk} (long : ∀ c ∈ chunks, c.Long) (ends : rest.length < 8)
    (fits : (pre ++ chunks.flatMap Chunk.bytes ++ rest).length < 2 ^ 63) {fuel : Nat} (turns : chunks.length < fuel)
    (w : Found) : walk (pre ++ chunks.flatMap Chunk.bytes ++ rest) fuel pre.length w =
      pure (chunks.foldl Chunk.tell w) := by
  induction chunks generalizing pre fuel w with
  | nil =>
    obtain ⟨fuel, rfl⟩ := Nat.exists_eq_succ_of_ne_zero (Nat.ne_of_gt turns)
    simp only [List.flatMap_nil, List.append_nil, List.length_append] at fits ⊢
    rw [walk, usize_of_lt (by omega), pure_bind, if_pos (by rw [List.length_append]; omega)]
    rfl
  | cons c chunks ih =>
    obtain ⟨fuel, rfl⟩ := Nat.exists_eq_succ_of_ne_zero (Nat.ne_of_gt (Nat.zero_lt_of_lt turns))
    have split : pre ++ (c :: chunks).flatMap Chunk.bytes ++ rest =
        pre ++ c.bytes ++ (chunks.flatMap Chunk.bytes ++ rest) := by simp
    have split' : pre ++ c.bytes ++ (chunks.flatMap Chunk.bytes ++ rest) =
        (pre ++ c.bytes) ++ chunks.flatMap Chunk.bytes ++ rest := by simp
    have width := c.bytes_length
    rw [split] at fits ⊢
    have total : (pre ++ c.bytes ++ (chunks.flatMap Chunk.bytes ++ rest)).length =
        pre.length + c.bytes.length + (chunks.flatMap Chunk.bytes ++ rest).length := by simp [Nat.add_assoc]
    rw [walk, usize_of_lt (by omega), pure_bind, if_neg (by omega), chunk_eq fits (long c (by simp)), pure_bind]
    dsimp only
    rw [← List.length_append, split']
    rw [split'] at fits
    exact ih (fun c hc => long c (by simp [hc])) fits (Nat.lt_of_succ_lt_succ turns) _

end Walk

section Samples

variable {F : Type} (k : F32 F)

/-- How a format writes a sample: whole numbers of so many bytes, or floats. -/
inductive Encoding
  | pcm (width : Nat)
  | float
  deriving DecidableEq

def Encoding.width : Encoding → Nat
  | .pcm width => width
  | .float => 4

/-- What a format chunk says of the samples. The tag of an extensible one is in its extension. -/
def encoding (fmt : List UInt8) : Option Encoding :=
  let tag := if field 0 2 fmt = 0xFFFE then field 24 2 fmt else field 0 2 fmt
  let bits := field 14 2 fmt
  if tag = 1 ∧ bits ∈ [8, 16, 24, 32] then some (.pcm (bits / 8))
  else if tag = 3 ∧ bits = 32 then some .float
  else none

/-- Little-endian two's complement. -/
def signed (raw : List UInt8) : Int := (leValue raw : Int).bmod (256 ^ raw.length)

/-- The number some bytes are a sample of: a byte is unsigned, wider ones are signed, to the scale of one. -/
def value : Encoding → List UInt8 → F
  | .pcm 1, raw => k.div (k.sub (k.ofInt (leValue raw)) (k.ofInt 128)) (k.ofInt 128)
  | .pcm width, raw => k.div (k.ofInt (signed raw)) (k.ofInt (2 ^ (8 * width - 1)))
  | .float, raw => k.ofBits (leValue raw)

theorem chunksExact_cons {n : Nat} (some_ : 0 < n) {raw : List UInt8} (l : List UInt8) (length : raw.length = n) :
    chunksExact n (raw ++ l) = raw :: chunksExact n l := by
  have one_more : (raw ++ l).length / n = l.length / n + 1 := by
    rw [List.length_append, length, Nat.add_div_left _ some_]
  rw [chunksExact, one_more, List.range_succ_eq_map, List.map_cons, List.map_map, Nat.zero_mul, List.drop_zero, ← length,
    List.take_left]
  refine congrArg _ (List.map_congr_left fun i _ => ?_)
  dsimp only [Function.comp]
  rw [Nat.succ_mul, Nat.add_comm, ← List.drop_drop, List.drop_left]

theorem chunksExact_flatten {n : Nat} {raws : List (List UInt8)} (lengths : ∀ raw ∈ raws, raw.length = n)
    {leftover : List UInt8} (fewer : leftover.length < n) : chunksExact n (raws.flatten ++ leftover) = raws := by
  induction raws with
  | nil =>
    rw [List.flatten_nil, List.nil_append, chunksExact, Nat.div_eq_of_lt fewer]
    rfl
  | cons raw raws ih =>
    rw [List.flatten_cons, List.append_assoc, chunksExact_cons (Nat.zero_lt_of_lt fewer) _ (lengths raw (by simp)),
      ih fun raw h => lengths raw (by simp [h])]

theorem fromLe_signed {raw : List UInt8} {w : Nat} (length : w = 8 * raw.length) : fromLe w raw = signed raw := by
  rw [fromLe, BitVec.toInt_ofNat', signed, length, Nat.pow_mul]

/-- Three bytes side by side, eight bits up. -/
theorem int24_bits (a b c : UInt8) : (BitVec.ofNat 32 c.toNat <<< 24 ||| BitVec.ofNat 32 b.toNat <<< 16 |||
    BitVec.ofNat 32 a.toNat <<< 8).toNat = leValue [a, b, c] * 256 := by
  have ha := a.toNat_lt
  have hb := b.toNat_lt
  have hc := c.toNat_lt
  have high := Nat.shiftLeft_add_eq_or_of_lt (show b.toNat <<< 16 < 2 ^ 24 by rw [Nat.shiftLeft_eq]; omega) c.toNat
  have low := Nat.shiftLeft_add_eq_or_of_lt (show a.toNat <<< 8 < 2 ^ 16 by rw [Nat.shiftLeft_eq]; omega)
    (c.toNat * 256 + b.toNat)
  have joined : c.toNat <<< 24 + b.toNat <<< 16 = (c.toNat * 256 + b.toNat) <<< 16 := by
    simp only [Nat.shiftLeft_eq]
    omega
  have fits : ∀ n i : Nat, n < 256 → i ≤ 24 → (n % 2 ^ 32) <<< i % 2 ^ 32 = n <<< i := by
    intro n i hn hi
    have most := Nat.pow_le_pow_right (show 0 < 2 by decide) hi
    have below : n * 2 ^ i < 2 ^ 32 := calc
      n * 2 ^ i < 256 * 2 ^ i := Nat.mul_lt_mul_of_pos_right hn (Nat.two_pow_pos i)
      _ ≤ 256 * 2 ^ 24 := Nat.mul_le_mul_left 256 most
    rw [Nat.mod_eq_of_lt (show n < 2 ^ 32 by omega), Nat.shiftLeft_eq, Nat.mod_eq_of_lt below]
  simp only [BitVec.toNat_or, BitVec.toNat_shiftLeft, BitVec.toNat_ofNat]
  rw [fits _ 24 hc (by decide), fits _ 16 hb (by decide), fits _ 8 ha (by decide), ← high, joined, ← low]
  simp only [leValue, Nat.shiftLeft_eq]
  omega

theorem int24_signed {raw : List UInt8} (length : raw.length = 3) : int24 raw = signed raw := by
  obtain ⟨a, b, c, rfl⟩ := List.length_eq_three.mp length
  have bits := int24_bits a b c
  have small : leValue [a, b, c] < 256 ^ 3 := leValue_lt [a, b, c]
  unfold int24 signed
  simp only [List.getD_eq_getElem?_getD, List.getElem?_cons_zero, List.getElem?_cons_succ, Option.getD_some]
  rw [BitVec.toInt_sshiftRight, BitVec.toInt_eq_toNat_bmod, bits, Int.shiftRight_eq_div_pow]
  generalize leValue [a, b, c] = v at small
  simp only [Int.bmod_def, List.length_cons, List.length_nil]
  omega

/-- A format chunk the reader takes as it is meant: it names one of the encodings, and channels and a rate. An extensible
one whose extension says float is left out. -/
structure Supported (fmt : List UInt8) (e : Encoding) : Prop where
  long : 16 ≤ fmt.length
  encoded : encoding fmt = some e
  plain : field 0 2 fmt = 0xFFFE → e ≠ .float
  channels : field 2 2 fmt ≠ 0
  rate : field 4 4 fmt ≠ 0

theorem Supported.cases {fmt : List UInt8} {e : Encoding} (supported : Supported fmt e) :
    (field 0 2 fmt = 1 ∨ field 0 2 fmt = 0xFFFE) ∧ (field 14 2 fmt = 8 ∧ e = .pcm 1 ∨ field 14 2 fmt = 16 ∧ e = .pcm 2 ∨
        field 14 2 fmt = 24 ∧ e = .pcm 3 ∨ field 14 2 fmt = 32 ∧ e = .pcm 4) ∨
      field 0 2 fmt = 3 ∧ field 14 2 fmt = 32 ∧ e = .float := by
  have encoded := supported.encoded
  have plain := supported.plain
  unfold encoding at encoded
  generalize field 0 2 fmt = tag at encoded plain ⊢
  generalize field 14 2 fmt = bits at encoded ⊢
  dsimp only at encoded
  generalize said : (if tag = 0xFFFE then field 24 2 fmt else tag) = code at encoded
  have own : tag ≠ 0xFFFE → tag = code := fun plain => by rwa [if_neg plain] at said
  split at encoded
  · rename_i pcm
    obtain ⟨rfl, listed⟩ := pcm
    cases encoded
    refine .inl ⟨?_, ?_⟩
    · by_cases extensible : tag = 0xFFFE
      · exact .inr extensible
      · exact .inl (own extensible)
    · simp only [List.mem_cons, List.not_mem_nil, or_false] at listed
      rcases listed with rfl | rfl | rfl | rfl <;> simp
  · split at encoded
    · rename_i float
      obtain ⟨rfl, wide⟩ := float
      cases encoded
      exact .inr ⟨own fun extensible => plain extensible rfl, wide, rfl⟩
    · cases encoded

theorem samplesOf_eq {fmt : List UInt8} {e : Encoding} (supported : Supported fmt e) {raws : List (List UInt8)}
    (lengths : ∀ raw ∈ raws, raw.length = e.width) {leftover : List UInt8} (fewer : leftover.length < e.width) :
    samplesOf k (field 0 2 fmt) (field 14 2 fmt) (raws.flatten ++ leftover) = pure (raws.map (value k e)) := by
  have groups := chunksExact_flatten lengths fewer
  rcases supported.cases with ⟨tag, ⟨bits, rfl⟩ | ⟨bits, rfl⟩ | ⟨bits, rfl⟩ | ⟨bits, rfl⟩⟩ | ⟨tag, bits, rfl⟩
  · have none_ : leftover = [] := List.length_eq_zero_iff.mp (by simpa [Encoding.width] using fewer)
    rw [samplesOf, if_pos ⟨tag, bits⟩, none_, List.append_nil, List.map_flatten, List.flatten_eq_flatMap]
    refine congrArg pure ?_
    rw [List.flatMap_map, ← List.flatMap_singleton' (raws.map _), List.flatMap_map]
    refine List.flatMap_congr fun raw mem => ?_
    obtain ⟨b, rfl⟩ := List.length_eq_one_iff.mp (lengths raw mem)
    simp [value, leValue]
  · rw [samplesOf, if_neg (by omega), if_pos ⟨tag, bits⟩]
    simp only [Encoding.width] at groups lengths
    rw [groups]
    refine congrArg pure (List.map_congr_left fun raw mem => ?_)
    rw [fromLe_signed (by rw [lengths raw mem])]
    rfl
  · rw [samplesOf, if_neg (by omega), if_neg (by omega), if_pos ⟨tag, bits⟩]
    simp only [Encoding.width] at groups lengths
    rw [groups]
    refine congrArg pure (List.map_congr_left fun raw mem => ?_)
    rw [int24_signed (lengths raw mem)]
    rfl
  · rw [samplesOf, if_neg (by omega), if_neg (by omega), if_neg (by omega), if_pos ⟨tag, bits⟩]
    simp only [Encoding.width] at groups lengths
    rw [groups]
    refine congrArg pure (List.map_congr_left fun raw mem => ?_)
    rw [fromLe_signed (by rw [lengths raw mem])]
    rfl
  · rw [samplesOf, if_neg (by omega), if_neg (by omega), if_neg (by omega), if_neg (by omega), if_pos ⟨tag, bits⟩]
    simp only [Encoding.width] at groups
    rw [groups]
    rfl

end Samples

/-- A file with a format before its data, among any other chunks. -/
structure Wave where
  size : List UInt8
  before : List Chunk
  fmt : Chunk
  between : List Chunk
  data : Chunk
  after : List Chunk
  /-- Less than the header of a chunk. -/
  trailing : List UInt8
  size_length : size.length = 4
  trailing_length : trailing.length < 8
  fmt_id : fmt.id = ascii "fmt "
  data_id : data.id = ascii "data"
  other : ∀ c ∈ before ++ between ++ after, c.id ≠ ascii "fmt " ∧ c.id ≠ ascii "data"

namespace Wave

variable (w : Wave)

def chunks : List Chunk := w.before ++ w.fmt :: w.between ++ w.data :: w.after

def bytes : List UInt8 := ascii "RIFF" ++ w.size ++ ascii "WAVE" ++ w.chunks.flatMap Chunk.bytes ++ w.trailing

theorem tell_others {others : List Chunk} (plain : ∀ c ∈ others, c.id ≠ ascii "fmt " ∧ c.id ≠ ascii "data") (found : Found) :
    others.foldl Chunk.tell found = found := by
  induction others generalizing found with
  | nil => rfl
  | cons c others ih =>
    obtain ⟨notFmt, notData⟩ := plain c (by simp)
    rw [List.foldl_cons, Chunk.tell, if_neg notFmt, if_neg notData]
    exact ih (fun c hc => plain c (by simp [hc])) found

/-- The walk finds the format and the data. -/
theorem tell_chunks : w.chunks.foldl Chunk.tell {} =
    { format := some (field 0 2 w.fmt.body, field 14 2 w.fmt.body, field 2 2 w.fmt.body), rate := field 4 4 w.fmt.body,
      data := some w.data.body } := by
  have told : ∀ found, w.fmt.tell found = { found with
      format := some (field 0 2 w.fmt.body, field 14 2 w.fmt.body, field 2 2 w.fmt.body),
      rate := field 4 4 w.fmt.body } := fun found => by rw [Chunk.tell, if_pos w.fmt_id]
  have told' : ∀ found, w.data.tell found = { found with data := some w.data.body } := fun found => by
    rw [Chunk.tell, if_neg (by rw [w.data_id]; decide), if_pos w.data_id]
  rw [chunks, List.foldl_append, List.foldl_append, List.foldl_cons, List.foldl_cons,
    tell_others fun c hc => w.other c (by simp [hc]), tell_others fun c hc => w.other c (by simp [hc]),
    tell_others fun c hc => w.other c (by simp [hc]), told, told']

variable {F : Type} (k : F32 F)

theorem decode_eq {e : Encoding} (fits : w.bytes.length < 2 ^ 63) (supported : Supported w.fmt.body e)
    (raws : List (List UInt8)) (leftover : List UInt8) (data : w.data.body = raws.flatten ++ leftover)
    (lengths : ∀ raw ∈ raws, raw.length = e.width) (fewer : leftover.length < e.width) :
    decode k w.bytes = pure ⟨raws.map (value k e), field 4 4 w.fmt.body, field 2 2 w.fmt.body⟩ := by
  have long : ∀ c ∈ w.chunks, c.Long := by
    intro c mem format
    have listed : c = w.fmt ∨ c = w.data ∨ c ∈ w.before ++ w.between ++ w.after := by
      simp only [chunks, List.mem_append, List.mem_cons] at mem ⊢
      tauto
    rcases listed with rfl | rfl | plain
    · exact supported.long
    · rw [w.data_id] at format
      exact absurd format (by decide)
    · exact absurd format (w.other c plain).1
  have header : (ascii "RIFF" ++ w.size ++ ascii "WAVE").length = 12 := by
    rw [List.length_append, List.length_append, w.size_length]
    rfl
  have many : w.chunks.length ≤ (w.chunks.flatMap Chunk.bytes).length := by
    induction w.chunks with
    | nil => exact Nat.le_refl 0
    | cons c chunks ih =>
      rw [List.flatMap_cons, List.length_append, List.length_cons, c.bytes_length]
      omega
  have total : w.bytes.length = 12 + (w.chunks.flatMap Chunk.bytes).length + w.trailing.length := by
    rw [bytes, List.length_append, List.length_append, header]
  have walked := walk_eq long w.trailing_length fits (Nat.lt_succ_of_le (show w.chunks.length ≤ w.bytes.length by omega)) {}
  rw [header] at walked
  have riff : w.bytes.take 4 = ascii "RIFF" := by
    simp only [bytes, List.append_assoc]
    exact List.take_left' rfl
  have wave : (w.bytes.drop 8).take 4 = ascii "WAVE" := by
    have eight : (ascii "RIFF" ++ w.size).length = 8 := by
      rw [List.length_append, w.size_length]
      rfl
    simp only [bytes, List.append_assoc]
    rw [← List.append_assoc, ← eight, List.drop_left]
    exact List.take_left' rfl
  have named : ¬(w.bytes.length < 12 ∨ w.bytes.take 4 ≠ ascii "RIFF" ∨ (w.bytes.drop 8).take 4 ≠ ascii "WAVE") := by
    simp only [riff, wave, ne_eq, not_true_eq_false, or_false]
    omega
  rw [decode, if_neg named]
  change walk w.bytes _ _ _ >>= _ = _
  rw [show walk w.bytes (w.bytes.length + 1) 12 {} = _ from walked, pure_bind, w.tell_chunks]
  dsimp only
  rw [if_neg (by simp [supported.channels, supported.rate]), data, samplesOf_eq k supported lengths fewer, pure_bind]

end Wave

section Mono

variable {F : Type} (k : F32 F)

theorem chunks_cons {n : Nat} (some_ : 0 < n) {frame : List F} (l : List F) (length : frame.length = n) :
    chunks n (frame ++ l) = frame :: chunks n l := by
  have one_more : ((frame ++ l).length + n - 1) / n = (l.length + n - 1) / n + 1 := by
    rw [List.length_append, length, show n + l.length + n - 1 = n + (l.length + n - 1) by omega, Nat.add_div_left _ some_]
  rw [chunks, one_more, List.range_succ_eq_map, List.map_cons, List.map_map, Nat.zero_mul, List.drop_zero, ← length,
    List.take_left]
  refine congrArg _ (List.map_congr_left fun i _ => ?_)
  dsimp only [Function.comp]
  rw [Nat.succ_mul, Nat.add_comm, ← List.drop_drop, List.drop_left]

theorem chunks_flatten {n : Nat} (some_ : 0 < n) {frames : List (List F)} (lengths : ∀ frame ∈ frames, frame.length = n) :
    chunks n frames.flatten = frames := by
  induction frames with
  | nil =>
    rw [List.flatten_nil, chunks, List.length_nil, Nat.zero_add, Nat.div_eq_of_lt (by omega)]
    rfl
  | cons frame frames ih =>
    rw [List.flatten_cons, chunks_cons some_ _ (lengths frame (by simp)), ih fun frame h => lengths frame (by simp [h])]

/-- The mean of a frame; the one sample of a mono frame is left as it is. -/
def mean : List F → F
  | [x] => x
  | frame => k.div (frame.foldl k.add k.zero) (k.ofInt frame.length)

/-- Frames are mixed one by one. -/
theorem toMono_frames {channels : Nat} (some_ : channels ≠ 0) {frames : List (List F)}
    (lengths : ∀ frame ∈ frames, frame.length = channels) :
    toMono k frames.flatten channels = frames.map (mean k) := by
  unfold toMono
  split
  · have one : channels = 1 := by omega
    subst one
    induction frames with
    | nil => rfl
    | cons frame frames ih =>
      obtain ⟨x, rfl⟩ := List.length_eq_one_iff.mp (lengths frame (by simp))
      rw [List.flatten_cons, List.map_cons, ← ih fun frame h => lengths frame (by simp [h])]
      rfl
  · rename_i several
    rw [chunks_flatten (by omega) lengths]
    refine List.map_congr_left fun frame mem => ?_
    have long := lengths frame mem
    match frame with
    | [] | [x] =>
      simp at long
      omega
    | x :: y :: rest => rfl

end Mono

section Reader

variable {F : Type} (k : F32 F)

/-- Whatever the bytes, the reader comes to a result or an error: no index is out of range and no sum too large. A file
with a supported format before its data, and any other chunks, gives its rate, its channels and exactly the samples of
its data, interleaved; mixing them to one channel takes the mean of each frame. -/
theorem reads_wave :
    (∀ bytes : List UInt8, bytes.length < 2 ^ 63 → ∃ r, (decode k bytes).run = some r) ∧
      ∀ (w : Wave) (e : Encoding) (raws : List (List UInt8)) (leftover : List UInt8), w.bytes.length < 2 ^ 63 →
        Supported w.fmt.body e → w.data.body = raws.flatten ++ leftover → (∀ raw ∈ raws, raw.length = e.width) →
        leftover.length < e.width →
        (decode k w.bytes).run =
            some (.ok ⟨raws.map (value k e), field 4 4 w.fmt.body, field 2 2 w.fmt.body⟩) ∧
          ∀ frames : List (List F), raws.map (value k e) = frames.flatten →
            (∀ frame ∈ frames, frame.length = field 2 2 w.fmt.body) →
            toMono k (raws.map (value k e)) (field 2 2 w.fmt.body) = frames.map (mean k) := by
  constructor
  · intro bytes fits
    obtain ⟨r, is, -⟩ := decode_ends k fits
    exact ⟨r, is⟩
  · intro w e raws leftover fits supported data lengths fewer
    refine ⟨by rw [w.decode_eq k fits supported raws leftover data lengths fewer]; rfl, fun frames split whole => ?_⟩
    rw [split]
    exact toMono_frames k supported.channels whole

end Reader

section Example

/-- Fractions for floats; no float is read here. -/
def fractions : F32 ℚ := ⟨0, fun n => n, fun _ => 0, (· + ·), (· - ·), (· / ·)⟩

/-- Two channels of two 16-bit samples each, behind a list of odd length. -/
def stereo : Wave where
  size := [0, 0, 0, 0]
  before := []
  fmt := ⟨ascii "fmt ", leBytes 2 1 ++ leBytes 2 2 ++ leBytes 4 8000 ++ [0, 0, 0, 0, 0, 0] ++ leBytes 2 16, 0,
    by decide, by decide⟩
  between := [⟨ascii "LIST", ascii "INFOx", 0, by decide, by decide⟩]
  data := ⟨ascii "data", [0, 64, 0, 0, 0, 192, 0, 0], 0, by decide, by decide⟩
  after := []
  trailing := []
  size_length := rfl
  trailing_length := by decide
  fmt_id := rfl
  data_id := rfl
  other := by decide

def stereoSamples : List (List UInt8) := [[0, 64], [0, 0], [0, 192], [0, 0]]

theorem stereo_supported : Supported stereo.fmt.body (.pcm 2) :=
  ⟨by decide, by decide, by decide, by decide, by decide⟩

theorem stereo_values : stereoSamples.map (value fractions (.pcm 2)) = [1 / 2, 0, -1 / 2, 0] := by decide +kernel

theorem reads_wave_stereo :
    (decode fractions stereo.bytes).run = some (.ok ⟨[1 / 2, 0, -1 / 2, 0], 8000, 2⟩) ∧
      toMono fractions [1 / 2, 0, -1 / 2, 0] 2 = [1 / 4, -1 / 4] := by
  have read := (reads_wave fractions).2 stereo (.pcm 2) stereoSamples [] (by decide) stereo_supported (by decide)
    (by decide) (by decide)
  rw [stereo_values] at read
  exact ⟨read.1, (read.2 [[1 / 2, 0], [-1 / 2, 0]] rfl (by decide)).trans (by decide +kernel)⟩

/-- What comes back of two channels is not mixed. -/
theorem stereo_interleaved : ∃ pcm, (decode fractions stereo.bytes).run = some (.ok pcm) ∧
    pcm.samples ≠ toMono fractions pcm.samples pcm.channels := by
  refine ⟨⟨stereoSamples.map (value fractions (.pcm 2)), 8000, 2⟩, ?_, by rw [stereo_values]; decide +kernel⟩
  rw [stereo.decode_eq fractions (by decide) stereo_supported stereoSamples [] (by decide)
    (by decide) (by decide)]
  rfl

end Example

end Vapi.Audio
