import Vapi.Cache.Hash
import Vapi.Lib.Subjects
import Vapi.Proto.Envelope

/-!
# Subjects and routing

`vapi-proto/src/subjects.rs`: where jobs, deltas and cancels are published, and
which partition a prompt belongs to.
-/

namespace Vapi

open Cache

/-- A model as named on the wire. -/
structure ModelId where
  value : String
  deriving DecidableEq, Repr

/-- What may not stand in a subject's token. -/
def ModelId.flat (c : Char) : Char :=
  if c = '/' ∨ c = '.' ∨ c = ' ' ∨ c = '*' ∨ c = '>' then '_' else c

def ModelId.subjectToken (model : ModelId) : String := String.ofList (model.value.toList.map flat)

namespace Proto.Subjects

def jobs (model : ModelId) : String := "vapi.jobs." ++ model.subjectToken

def jobsPartition (model : ModelId) (partition : UInt32) : String :=
  "vapi.jobs." ++ model.subjectToken ++ ".p" ++ toString partition.toNat

/-- One byte of the hash, by the source's own constant. -/
def hashByte (h : UInt64) (b : UInt8) : UInt64 := (h ^^^ b.toUInt64) * 0x1000000001b3

def hashToken (h : UInt64) (t : Token) : UInt64 := (leBytes 4 t.toNat).foldl hashByte h

def mixed (h : UInt64) : UInt64 :=
  let h := h ^^^ (h >>> 33)
  let h := h * 0xff51afd7ed558ccd
  let h := h ^^^ (h >>> 33)
  let h := h * 0xc4ceb9fe1a85ec53
  h ^^^ (h >>> 33)

/-- Which partition a prompt belongs to: the hash covers its first block only. -/
def partitionFor (promptTokens : List Token) (blockSize : Nat) (partitions : UInt32) : UInt32 :=
  if partitions ≤ 1 then 0
  else (mixed ((promptTokens.take blockSize).foldl hashToken 0xcbf29ce484222325) % partitions.toUInt64).toUInt32

def jobsFor (model : ModelId) (promptTokens : List Token) (blockSize : Nat) (partitions : UInt32) : String :=
  if partitions ≤ 1 then jobs model else jobsPartition model (partitionFor promptTokens blockSize partitions)

def jobsWildcard : String := "vapi.jobs.>"

def cancel (id : RequestId) : String := "vapi.cancel." ++ id.value

def workerCtl (workerId : String) : String := "vapi.ctl.worker." ++ workerId

def workerCtlWildcard : String := "vapi.ctl.worker.>"

def consumerName (model : ModelId) : String := "vapi-workers-" ++ model.subjectToken

end Proto.Subjects

open Subject Proto.Subjects

theorem ModelId.flat_legal (c : Char) : flat c ≠ '.' ∧ flat c ≠ '*' ∧ flat c ≠ '>' := by
  unfold flat
  split
  · decide
  · rename_i legal
    exact ⟨fun is => legal (.inr (.inl is)), fun is => legal (by simp [is]), fun is => legal (by simp [is])⟩

theorem ModelId.subjectToken_whole (model : ModelId) : '.' ∉ model.subjectToken.toList := by
  intro mem
  rw [subjectToken, String.toList_ofList] at mem
  obtain ⟨c, -, is⟩ := List.mem_map.mp mem
  exact (flat_legal c).1 is

theorem ModelId.subjectToken_plain (model : ModelId) : Plain model.subjectToken.toList := by
  have legal : ∀ c ∈ model.subjectToken.toList, c ≠ '*' ∧ c ≠ '>' := by
    intro c mem
    rw [subjectToken, String.toList_ofList] at mem
    obtain ⟨b, -, rfl⟩ := List.mem_map.mp mem
    exact (flat_legal b).2
  exact ⟨fun is => (legal '*' (by simp [is])).1 rfl, fun is => (legal '>' (by simp [is])).2 rfl⟩

namespace Proto.Subjects

/-- The token of a partition. -/
def partToken (partition : UInt32) : List Char := 'p' :: (Nat.toDigits 10 partition.toNat)

theorem partToken_injective : Function.Injective partToken := by
  intro a b same
  have digits := congrArg (Nat.ofDigitChars 10 · 0) (List.cons.inj same).2
  simp only [Nat.ofDigitChars_ten_toDigits] at digits
  exact UInt32.toNat_inj.mp digits

theorem digit_of_mem {n : Nat} {c : Char} (mem : c ∈ Nat.toDigits 10 n) : c.isDigit = true :=
  Nat.isDigit_of_mem_toDigits (by decide) (by decide) mem

theorem tokens_jobs (model : ModelId) :
    tokens (jobs model) = ["vapi".toList, "jobs".toList, model.subjectToken.toList] := by
  have is : jobs model = "vapi.jobs" ++ "." ++ model.subjectToken := rfl
  rw [is, tokens_dot, tokens_single model.subjectToken_whole]
  rfl

theorem tokens_jobsPartition (model : ModelId) (partition : UInt32) :
    tokens (jobsPartition model partition) =
      ["vapi".toList, "jobs".toList, model.subjectToken.toList, partToken partition] := by
  have last : ("p" ++ toString partition.toNat).toList = partToken partition := by
    simp [partToken, Nat.toString_eq_repr]
  have whole : '.' ∉ ("p" ++ toString partition.toNat).toList := by
    rw [last]
    intro mem
    rcases List.mem_cons.mp mem with is | mem
    · cases is
    · exact absurd (digit_of_mem mem) (by decide)
  have is : jobsPartition model partition =
      "vapi.jobs" ++ "." ++ model.subjectToken ++ "." ++ ("p" ++ toString partition.toNat) := by
    have opens : ∀ s : String, "vapi.jobs" ++ ("." ++ s) = "vapi.jobs." ++ s := fun _ => String.append_assoc.symm
    have parts : ∀ s : String, "." ++ ("p" ++ s) = ".p" ++ s := fun _ => String.append_assoc.symm
    simp only [jobsPartition, String.append_assoc, opens, parts]
  rw [is, tokens_dot, tokens_dot, tokens_single model.subjectToken_whole, tokens_single whole, last]
  rfl

/-- The subject of a partition, or of the one shared queue. -/
def queueOf (partitions : UInt32) (model : ModelId) (partition : UInt32) : String :=
  if partitions ≤ 1 then jobs model else jobsPartition model partition

theorem jobsFor_eq (model : ModelId) (promptTokens : List Token) (blockSize : Nat) (partitions : UInt32) :
    jobsFor model promptTokens blockSize partitions =
      queueOf partitions model (partitionFor promptTokens blockSize partitions) := by
  unfold jobsFor queueOf
  split <;> rfl

theorem queueOf_plain (partitions : UInt32) (model : ModelId) (partition : UInt32) :
    ∀ t ∈ tokens (queueOf partitions model partition), Plain t := by
  have part : Plain (partToken partition) := by
    constructor <;> intro is <;> cases (List.cons.inj is).1
  unfold queueOf
  split
  · rw [tokens_jobs]
    simpa [Plain] using model.subjectToken_plain
  · rw [tokens_jobsPartition]
    simpa [Plain] using ⟨model.subjectToken_plain, part⟩

theorem tokens_queueOf_inj {partitions : UInt32} {model model' : ModelId} {p p' : UInt32} :
    tokens (queueOf partitions model p) = tokens (queueOf partitions model' p') ↔
      model.subjectToken = model'.subjectToken ∧ (partitions ≤ 1 ∨ p = p') := by
  unfold queueOf
  split
  · rename_i one
    simp [tokens_jobs, String.toList_inj, one]
  · rename_i many
    simp [tokens_jobsPartition, String.toList_inj, partToken_injective.eq_iff, many]

/-- Every queue is in the stream of jobs. -/
theorem captures_queueOf (partitions : UInt32) (model : ModelId) (partition : UInt32) :
    captures jobsWildcard (queueOf partitions model partition) = true := by
  change fits (["vapi".toList, "jobs".toList] ++ [['>']]) (tokens (queueOf partitions model partition)) = true
  rw [fits_rest (by simp [Plain])]
  unfold queueOf
  split
  · exact ⟨_, _, tokens_jobs model⟩
  · exact ⟨_, _, tokens_jobsPartition model partition⟩

theorem partitionFor_lt {promptTokens : List Token} {blockSize : Nat} {partitions : UInt32} (many : 1 < partitions) :
    partitionFor promptTokens blockSize partitions < partitions := by
  unfold partitionFor
  rw [if_neg (UInt32.not_le.mpr many), UInt32.lt_iff_toNat_lt, UInt64.toNat_toUInt32, UInt64.toNat_mod,
    UInt32.toNat_toUInt64]
  have some_ : 0 < partitions.toNat := Nat.zero_lt_of_lt (UInt32.lt_iff_toNat_lt.mp many)
  exact lt_of_le_of_lt (Nat.mod_le _ _) (Nat.mod_lt _ some_)

end Proto.Subjects

end Vapi
