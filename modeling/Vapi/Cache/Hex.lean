import Vapi.Cache.SpillRun
import Vapi.Lib.Radix
import Vapi.Worker.Slices

/-!
# Hashes as file names

The text form of a block hash, which the spill tier uses as a file name, and
what the scan of its directory makes of the names it finds. The decoder reads
what the encoder writes, and other spellings too.
-/

namespace Vapi.Cache

open Engine (fromByte fromByte_append)
open Radix (Foreign)

/-- The bytes of a hash. -/
@[ext]
structure BlockHash where
  asBytes : List UInt8
  size : asBytes.length = 32
  deriving DecidableEq

/-- The text between two bytes, none where one is in the middle of a character. -/
def getBytes (s : Text) (first last : Nat) : Option Text := do
  let rest ← fromByte first s
  uptoByte (last - first) rest

namespace BlockHash

def hexByte (b : UInt8) : Text := Radix.padded 16 2 b.toNat

def toHex (h : BlockHash) : Text := h.asBytes.flatMap hexByte

/-- The bytes from the `i`-th on, each of two characters. -/
def hexLoop (s : Text) : (n i : Nat) → Option { out : List UInt8 // out.length = n }
  | 0, _ => some ⟨[], rfl⟩
  | n + 1, i => do
    let piece ← getBytes s (i * 2) (i * 2 + 2)
    let byte ← Radix.fromStr 16 256 piece
    let ⟨out, length⟩ ← hexLoop s n (i + 1)
    some ⟨UInt8.ofNat byte :: out, congrArg (· + 1) length⟩

def fromHex (s : Text) : Option BlockHash :=
  if bytes s ≠ 64 then none
  else (hexLoop s 32 0).map fun out => ⟨out.1, out.2⟩

/-- The file of a block. -/
def fileName (h : BlockHash) : Text := h.toHex ++ ['.', 'k', 'v']

end BlockHash

/-- A file's name up to its last dot, all of it when no text is before that. -/
def fileStem (name : Text) : Text :=
  let before := ((name.reverse.dropWhile (· ≠ '.')).drop 1).reverse
  if before = [] then name else before

/-- The hash a file of the directory is indexed under. -/
def hashOf (name : Text) : Option BlockHash := BlockHash.fromHex (fileStem name)

/-- The files that are indexed, in the order they are listed. -/
def scanned {V : Type} (directory : List (Text × V)) : List (BlockHash × V) :=
  directory.filterMap fun x => (hashOf x.1).map (·, x.2)

/-- Pairs of digits of base 16, where a plus sign may be the first of a pair. -/
def InPairs : Text → Bool
  | [] => true
  | [_] => false
  | a :: b :: s => (a = '+' || (Radix.digit? 16 a).isSome) && (Radix.digit? 16 b).isSome && InPairs s

/-- A hash, but not as it is written. -/
def Respelt (s : Text) : Prop := s.length = 64 ∧ InPairs s ∧ ∃ c ∈ s, Foreign c

/-- A file that is not under the name of the hash it is indexed under. -/
def Stray (name : Text) : Prop :=
  (fileStem name).length = 64 ∧ InPairs (fileStem name) ∧
    ((∃ c ∈ fileStem name, Foreign c) ∨ name ≠ fileStem name ++ ['.', 'k', 'v'])

/-- A text and the bytes that are read of it. -/
inductive Spells : Text → List UInt8 → Prop
  | nil : Spells [] []
  | cons {a b : Char} {n : Nat} {s : Text} {out : List UInt8} :
      Radix.fromStr 16 256 [a, b] = some n → Spells s out → Spells (a :: b :: s) (UInt8.ofNat n :: out)

section Reading

variable {s t : Text} {out : List UInt8} {h : BlockHash}

/-- A piece that is read is of two characters. -/
theorem piece_pair {piece : Text} {n : Nat} (length : bytes piece = 2) (read : Radix.fromStr 16 256 piece = some n) :
    ∃ a b, piece = [a, b] := by
  match piece with
  | [] => cases length
  | [c] =>
    -- a single character of two bytes is no digit
    rw [Radix.fromStr] at read
    split at read
    · cases read
    · obtain ⟨d, digit, -⟩ := Option.bind_eq_some_iff.mp read
      have one := Radix.digit_utf8Size digit
      simp [bytes, one] at length
  | [a, b] => exact ⟨a, b, rfl⟩
  | a :: b :: c :: rest =>
    have ha := a.utf8Size_pos
    have hb := b.utf8Size_pos
    have hc := c.utf8Size_pos
    simp only [bytes, List.map_cons, List.sum_cons] at length
    omega

/-- Both characters of a pair that is read are one byte long. -/
theorem pair_bytes {a b : Char} {n : Nat} (read : Radix.fromStr 16 256 [a, b] = some n) : bytes [a, b] = 2 := by
  obtain ⟨d, e, first, second, -⟩ := Radix.fromStr_pair.mp read
  have low := Radix.digit_utf8Size second
  have high : a.utf8Size = 1 := by
    rcases first with ⟨rfl, -⟩ | ⟨-, first⟩
    · rfl
    · exact Radix.digit_utf8Size first
  simp [bytes, high, low]

theorem Spells.length (h : Spells s out) : s.length = 2 * out.length ∧ bytes s = 2 * out.length := by
  induction h with
  | nil => exact ⟨rfl, rfl⟩
  | @cons a b n s out read _ ih =>
    have two := pair_bytes read
    simp only [bytes, List.map_cons, List.sum_cons, List.map_nil, List.sum_nil] at two ih ⊢
    simp only [List.length_cons]
    omega

/-- What the loop makes of a text, from a place in it on. -/
theorem hexLoop_iff {n i : Nat} (place : bytes s = i * 2) (size : bytes t = 2 * n) :
    (∃ length, BlockHash.hexLoop (s ++ t) n i = some ⟨out, length⟩) ↔ Spells t out := by
  induction n generalizing s t i out with
  | zero =>
    obtain rfl : t = [] := by
      by_contra some_
      exact Nat.ne_of_gt (Engine.byteLength_pos some_) size
    constructor
    · rintro ⟨length, read⟩
      obtain rfl := List.length_eq_zero_iff.mp length
      exact .nil
    · intro spells
      cases spells
      exact ⟨rfl, rfl⟩
  | succ n ih =>
    have rest : fromByte (i * 2) (s ++ t) = some t := place ▸ fromByte_append s t
    have next : ∀ {a b : Char}, bytes [a, b] = 2 → bytes (s ++ [a, b]) = (i + 1) * 2 := by
      intro a b two
      rw [bytes_append, place, two, Nat.succ_mul]
    rw [BlockHash.hexLoop, getBytes, rest]
    simp only [Option.bind_eq_bind, Option.bind_some, Nat.add_sub_cancel_left]
    constructor
    · rintro ⟨length, read⟩
      obtain ⟨piece, sliced, read⟩ := Option.bind_eq_some_iff.mp read
      obtain ⟨byte, number, read⟩ := Option.bind_eq_some_iff.mp read
      cases loop : BlockHash.hexLoop (s ++ t) n (i + 1) with
      | none =>
        rw [loop] at read
        cases read
      | some more =>
        rw [loop] at read
        obtain rfl := congrArg Subtype.val (Option.some.inj read)
        obtain ⟨⟨u, rfl⟩, two⟩ := uptoByte_some sliced
        obtain ⟨a, b, rfl⟩ := piece_pair two number
        rw [← List.append_assoc] at loop
        rw [bytes_append, two] at size
        have size' : bytes u = 2 * n := by omega
        exact .cons number ((ih (next two) size').mp ⟨more.2, loop⟩)
    · intro spells
      cases spells with
      | nil => cases size
      | @cons a b byte u out number spells =>
        have two := pair_bytes number
        have sliced : uptoByte 2 (a :: b :: u) = some [a, b] := two ▸ uptoByte_append [a, b] u
        have size' : bytes u = 2 * n := by
          change bytes ([a, b] ++ u) = _ at size
          rw [bytes_append, two] at size
          omega
        obtain ⟨length, loop⟩ := (ih (next two) size').mpr spells
        rw [List.append_assoc] at loop
        change BlockHash.hexLoop (s ++ a :: b :: u) n (i + 1) = _ at loop
        refine ⟨congrArg (· + 1) length, ?_⟩
        rw [sliced]
        simp only [Option.bind_some, number, loop]

/-- A text is read as the hash it spells. -/
theorem fromHex_iff : BlockHash.fromHex s = some h ↔ Spells s h.asBytes := by
  unfold BlockHash.fromHex
  constructor
  · intro read
    split at read
    · cases read
    · rename_i size
      obtain ⟨⟨out, length⟩, loop, rfl⟩ := Option.map_eq_some_iff.mp read
      exact (hexLoop_iff (s := []) (i := 0) rfl (not_not.mp size)).mp ⟨length, loop⟩
  · intro spells
    have size : bytes s = 2 * 32 := h.size ▸ spells.length.2
    rw [if_neg (not_not.mpr size)]
    obtain ⟨length, loop⟩ := (hexLoop_iff (s := []) (i := 0) rfl size).mpr spells
    rw [List.nil_append] at loop
    rw [loop]
    rfl

/-- What is written for a hash spells it, and holds nothing foreign. -/
theorem toHex_spells (out : List UInt8) :
    Spells (out.flatMap BlockHash.hexByte) out ∧ ∀ c ∈ out.flatMap BlockHash.hexByte, ¬Foreign c := by
  induction out with
  | nil => exact ⟨.nil, fun c mem => absurd mem List.not_mem_nil⟩
  | cons byte out ih =>
    have read := Radix.fromStr_padded byte.toNat_lt
    have pair := Radix.padded_pair byte.toNat_lt
    have high : byte.toNat / 16 < 16 := by
      have := byte.toNat_lt
      omega
    have low : byte.toNat % 16 < 16 := Nat.mod_lt _ (by decide)
    rw [List.flatMap_cons, BlockHash.hexByte, pair]
    constructor
    · rw [pair] at read
      have spells := Spells.cons read ih.1
      rw [UInt8.ofNat_toNat] at spells
      exact spells
    · intro c mem
      simp only [List.cons_append, List.nil_append, List.mem_cons] at mem
      rcases mem with rfl | rfl | mem
      · exact Radix.digitChar_own high
      · exact Radix.digitChar_own low
      · exact ih.2 c mem

/-- A text that spells a hash is what is written for it, unless it holds something foreign. -/
theorem Spells.written (h : Spells s out) (own : ∀ c ∈ s, ¬Foreign c) : s = out.flatMap BlockHash.hexByte := by
  induction h with
  | nil => rfl
  | @cons a b n s out read _ ih =>
    have pair := Radix.padded_of_fromStr read (own a (by simp)) (own b (by simp))
    obtain ⟨d, e, first, second, same⟩ := Radix.fromStr_pair.mp read
    have small : n < 256 := by
      have low := Radix.digit_lt second
      rcases first with ⟨-, rfl⟩ | ⟨-, first⟩
      · omega
      · have high := Radix.digit_lt first
        omega
    have byte : BlockHash.hexByte (UInt8.ofNat n) = [a, b] := by
      unfold BlockHash.hexByte
      rw [UInt8.toNat_ofNat_of_lt' small, pair]
    rw [List.flatMap_cons, byte, ← ih fun c mem => own c (by simp [mem])]
    rfl

/-- The pairs of digits are what can be read. -/
theorem inPairs_iff (s : Text) : InPairs s = true ↔ ∃ out, Spells s out := by
  match s with
  | [] => exact ⟨fun _ => ⟨[], .nil⟩, fun _ => rfl⟩
  | [c] =>
    constructor
    · intro pairs
      cases pairs
    · rintro ⟨out, spells⟩
      cases spells
  | a :: b :: s =>
    have rest := inPairs_iff s
    rw [InPairs, Bool.and_eq_true, Bool.and_eq_true, Bool.or_eq_true, decide_eq_true_eq, rest]
    constructor
    · rintro ⟨⟨first, second⟩, out, spells⟩
      obtain ⟨e, second⟩ := Option.isSome_iff_exists.mp second
      by_cases plus : a = '+'
      · exact ⟨_, .cons (Radix.fromStr_pair.mpr ⟨0, e, .inl ⟨plus, rfl⟩, second, rfl⟩) spells⟩
      · obtain ⟨d, first⟩ := Option.isSome_iff_exists.mp (first.resolve_left plus)
        exact ⟨_, .cons (Radix.fromStr_pair.mpr ⟨d, e, .inr ⟨plus, first⟩, second, rfl⟩) spells⟩
    · rintro ⟨out, spells⟩
      cases spells with
      | @cons _ _ n _ out read spells =>
        obtain ⟨d, e, first, second, -⟩ := Radix.fromStr_pair.mp read
        refine ⟨⟨?_, Option.isSome_iff_exists.mpr ⟨e, second⟩⟩, out, spells⟩
        rcases first with ⟨plus, -⟩ | ⟨-, first⟩
        · exact .inl plus
        · exact .inr (Option.isSome_iff_exists.mpr ⟨d, first⟩)

/-- A text of 64 characters in pairs is read, and no other. -/
theorem fromHex_isSome : (∃ h, BlockHash.fromHex s = some h) ↔ s.length = 64 ∧ InPairs s := by
  rw [inPairs_iff]
  constructor
  · rintro ⟨h, read⟩
    have spells := fromHex_iff.mp read
    have length := spells.length.1
    rw [h.size] at length
    exact ⟨length, h.asBytes, spells⟩
  · rintro ⟨length, out, spells⟩
    have size : out.length = 32 := by
      have := spells.length.1
      omega
    exact ⟨⟨out, size⟩, fromHex_iff.mpr spells⟩

theorem fromHex_toHex (h : BlockHash) : BlockHash.fromHex h.toHex = some h :=
  fromHex_iff.mpr (toHex_spells h.asBytes).1

theorem toHex_of_fromHex (read : BlockHash.fromHex s = some h) (own : ∀ c ∈ s, ¬Foreign c) : s = h.toHex :=
  (fromHex_iff.mp read).written own

theorem toHex_own (h : BlockHash) : ∀ c ∈ h.toHex, ¬Foreign c := (toHex_spells h.asBytes).2

end Reading

section Names

variable {V : Type} {name : Text} {h : BlockHash}

/-- The name of a block's file is its hash, the extension aside. -/
theorem fileStem_fileName (h : BlockHash) : fileStem h.fileName = h.toHex := by
  have some_ : h.toHex ≠ [] := by
    intro none
    have length := (toHex_spells h.asBytes).1.length.1
    rw [h.size] at length
    change h.toHex.length = _ at length
    rw [none] at length
    cases length
  have reversed : h.fileName.reverse = 'v' :: 'k' :: '.' :: h.toHex.reverse := by
    unfold BlockHash.fileName
    rw [List.reverse_append]
    rfl
  have before : ((h.fileName.reverse.dropWhile (· ≠ '.')).drop 1).reverse = h.toHex := by
    rw [reversed]
    exact List.reverse_reverse _
  unfold fileStem
  simp only [before, if_neg some_]

/-- A name that is written is read back as the hash it was written for. -/
theorem hashOf_fileName (h : BlockHash) : hashOf h.fileName = some h := by
  unfold hashOf
  rw [fileStem_fileName]
  exact fromHex_toHex h

theorem fileName_of_hashOf (read : hashOf name = some h) (kept : ¬Stray name) : name = h.fileName := by
  have spelt := fromHex_isSome.mp ⟨h, read⟩
  have own : ∀ c ∈ fileStem name, ¬Foreign c := fun c mem foreign => kept ⟨spelt.1, spelt.2, .inl ⟨c, mem, foreign⟩⟩
  have extended : name = fileStem name ++ ['.', 'k', 'v'] :=
    Classical.byContradiction fun other => kept ⟨spelt.1, spelt.2, .inr other⟩
  rw [toHex_of_fromHex read own] at extended
  exact extended

/-- Distinct names none of which is stray are of distinct hashes. -/
theorem hashes_nodup {names : List Text} (nodup : names.Nodup) (kept : ∀ name ∈ names, ¬Stray name) :
    (names.filterMap hashOf).Nodup := by
  apply List.pairwise_filterMap.mpr
  apply nodup.imp_of_mem
  intro a b here there distinct h first k second same
  apply distinct
  rw [fileName_of_hashOf first (kept a here), fileName_of_hashOf second (kept b there), same]

/-- A text is read as a hash just when it is what is written for the hash, but
for the other spellings of one. A file is indexed under a hash just when it is
the hash's file, but for stray ones. A name that is written is read back, and
distinct names none of which is stray are of distinct hashes. -/
theorem hex_exact (s name : Text) (names : List Text) :
    ((∀ h, BlockHash.fromHex s = some h ↔ s = h.toHex) ↔ ¬Respelt s) ∧
    ((∀ h, hashOf name = some h ↔ name = h.fileName) ↔ ¬Stray name) ∧
    (∀ h : BlockHash, hashOf h.fileName = some h) ∧
    (names.Nodup → (∀ name ∈ names, ¬Stray name) → (names.filterMap hashOf).Nodup) := by
  refine ⟨?_, ?_, hashOf_fileName, hashes_nodup⟩
  · constructor
    · rintro exact_ ⟨length, pairs, c, mem, foreign⟩
      obtain ⟨h, read⟩ := fromHex_isSome.mpr ⟨length, pairs⟩
      rw [(exact_ h).mp read] at mem
      exact toHex_own h c mem foreign
    · intro plain h
      constructor
      · intro read
        obtain ⟨length, pairs⟩ := fromHex_isSome.mp ⟨h, read⟩
        exact toHex_of_fromHex read fun c mem foreign => plain ⟨length, pairs, c, mem, foreign⟩
      · rintro rfl
        exact fromHex_toHex h
  · constructor
    · rintro exact_ ⟨length, pairs, odd⟩
      obtain ⟨h, read⟩ := fromHex_isSome.mpr ⟨length, pairs⟩
      obtain rfl := (exact_ h).mp read
      rw [fileStem_fileName] at odd
      rcases odd with ⟨c, mem, foreign⟩ | other
      · exact toHex_own h c mem foreign
      · exact other rfl
    · intro kept h
      constructor
      · intro read
        exact fileName_of_hashOf read kept
      · rintro rfl
        exact hashOf_fileName h

/-- The hash of 32 bytes 170. -/
def tens : BlockHash := ⟨List.replicate 32 0xAA, rfl⟩

/-- Upper case is read as a hash, and no hash is written so. -/
theorem upper_case_read : ¬∀ s h, BlockHash.fromHex s = some h ↔ s = h.toHex := by
  intro exact_
  have spells : ∀ n, Spells (List.replicate (2 * n) 'A') (List.replicate n 0xAA) := by
    intro n
    induction n with
    | zero => exact .nil
    | succ n ih => exact .cons (n := 170) rfl ih
  have read : BlockHash.fromHex (List.replicate 64 'A') = some tens := fromHex_iff.mpr (spells 32)
  have written := (exact_ _ _).mp read
  have own := toHex_own tens 'A' (written ▸ by simp)
  exact own (.inr rfl)

/-- The files of the directory that are indexed, each under the hash whose file it is. -/
theorem scanned_mem {directory : List (Text × V)} (kept : ∀ x ∈ directory, ¬Stray x.1) {v : V} :
    (h, v) ∈ scanned directory ↔ (h.fileName, v) ∈ directory := by
  unfold scanned
  rw [List.mem_filterMap]
  constructor
  · rintro ⟨⟨name, w⟩, mem, indexed⟩
    obtain ⟨h', read, same⟩ := Option.map_eq_some_iff.mp indexed
    obtain ⟨rfl, rfl⟩ := Prod.mk.inj same
    rw [← fileName_of_hashOf read (kept _ mem)]
    exact mem
  · intro mem
    refine ⟨(h.fileName, v), mem, ?_⟩
    rw [hashOf_fileName]
    rfl

theorem scanned_hashes (directory : List (Text × V)) :
    (scanned directory).map Prod.fst = (directory.map Prod.fst).filterMap hashOf := by
  unfold scanned
  rw [List.map_filterMap, List.filterMap_map]
  apply List.filterMap_congr
  intro x _
  change ((hashOf x.1).map (·, x.2)).map Prod.fst = hashOf x.1
  rw [Option.map_map]
  exact Option.map_id'

/-- A store opened over a directory without stray names has its counters, lists and limits in agreement. -/
theorem opened_directory_tidy {directory : List (Text × V)} (nodup : (directory.map Prod.fst).Nodup)
    (kept : ∀ x ∈ directory, ¬Stray x.1) (dir : Bool) (ramMax diskMax : Nat) (size : V → Nat) (files : Oracle Bool) :
    (SpillStore.opened (scanned directory) dir ramMax diskMax size files).Tidy := by
  apply SpillStore.opened_tidy
  rw [scanned_hashes]
  apply hashes_nodup nodup
  intro name mem
  obtain ⟨x, there, rfl⟩ := List.mem_map.mp mem
  exact kept x there

end Names

end Vapi.Cache
