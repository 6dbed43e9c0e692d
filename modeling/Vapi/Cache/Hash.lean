import Vapi.Core.Sampling
import Mathlib.Data.List.Basic

/-!
# Content addresses

`vapi-cache/src/hash.rs`: namespaces, the hash of one block, and the chain of
hashes of a token sequence. BLAKE3 is a parameter; the bytes fed to it are
the source's.
-/

namespace Vapi.Cache

/-- The hash function, and the bytes of a hash it made. -/
structure Blake3 (H : Type) where
  digest : List UInt8 → H
  asBytes : H → List UInt8

inductive DType
  | auto
  | f32
  | f16
  | bf16
  deriving DecidableEq, Repr

def DType.tag : DType → UInt8
  | .auto => 0
  | .f32 => 1
  | .f16 => 2
  | .bf16 => 3

/-- The bytes of an ASCII literal. -/
def ascii (s : String) : List UInt8 := s.toList.map fun c => UInt8.ofNat c.toNat

def utf8 (s : String) : List UInt8 := s.toByteArray.data.toList

def leBytes : Nat → Nat → List UInt8
  | 0, _ => []
  | width + 1, n => UInt8.ofNat n :: leBytes width (n / 256)

/-- A field, preceded by its length. -/
def lengthPrefixed (part : String) : List UInt8 := leBytes 8 (utf8 part).length ++ utf8 part

def namespaceBytes (modelId weightsFingerprint : String) (dtype : DType)
    (loraId : Option String) (tenant : String) : List UInt8 :=
  ascii "vapi-cache-ns-v1" ++ lengthPrefixed modelId ++ lengthPrefixed weightsFingerprint ++
    lengthPrefixed (loraId.getD "") ++ lengthPrefixed tenant ++ [dtype.tag]

variable {H : Type}

/-- Everything besides the tokens that must match for two blocks to be
interchangeable. The root is always the hash of the other fields. -/
structure CacheNamespace (B : Blake3 H) where
  root : H
  label : String
  modelId : String
  weightsFingerprint : String
  loraId : Option String
  dtype : DType
  root_eq : root = B.digest (namespaceBytes modelId weightsFingerprint dtype loraId label)

variable {B : Blake3 H}

namespace CacheNamespace

def new (modelId weightsFingerprint : String) (dtype : DType) (loraId : Option String)
    (tenant : String) : CacheNamespace B where
  root := B.digest (namespaceBytes modelId weightsFingerprint dtype loraId tenant)
  label := tenant
  modelId := modelId
  weightsFingerprint := weightsFingerprint
  loraId := loraId
  dtype := dtype
  root_eq := rfl

/-- The same model, weights and precision, a different tenant. -/
def forTenant (ns : CacheNamespace B) (tenant : String) : CacheNamespace B :=
  new ns.modelId ns.weightsFingerprint ns.dtype ns.loraId tenant

def tenant (ns : CacheNamespace B) : String := ns.label

theorem forTenant_tenant (ns : CacheNamespace B) : ns.forTenant ns.tenant = ns := by
  obtain ⟨root, label, modelId, fingerprint, loraId, dtype, rfl⟩ := ns
  rfl

end CacheNamespace

def blockBytes (parent tokens : List UInt8) (count : Nat) : List UInt8 :=
  ascii "vapi-block-v1" ++ parent ++ leBytes 8 count ++ tokens

/-- Hash one block given its parent's hash and the tokens it holds. -/
def hashBlock (B : Blake3 H) (parent : H) (tokens : List Token) : H :=
  B.digest (blockBytes (B.asBytes parent) (tokens.flatMap fun t => leBytes 4 t.toNat) tokens.length)

/-- The first `count` chunks of a list. -/
def chunksExact {α : Type} (size : Nat) : Nat → List α → List (List α)
  | 0, _ => []
  | count + 1, xs => xs.take size :: chunksExact size count (xs.drop size)

def chainFrom (B : Blake3 H) (parent : H) : List (List Token) → List H
  | [] => []
  | chunk :: chunks =>
    hashBlock B parent chunk :: chainFrom B (hashBlock B parent chunk) chunks

/-- Hash every full block of a token sequence, in order. -/
def hashBlockChain (ns : CacheNamespace B) (tokens : List Token) (blockSize : Nat) : List H :=
  chainFrom B ns.root (chunksExact blockSize (tokens.length / blockSize) tokens)

theorem leBytes_length (width n : Nat) : (leBytes width n).length = width := by
  induction width generalizing n with
  | zero => rfl
  | succ width ih => simp [leBytes, ih]

theorem leBytes_inj {w a b : Nat} (ha : a < 256 ^ w) (hb : b < 256 ^ w)
    (h : leBytes w a = leBytes w b) : a = b := by
  induction w generalizing a b with
  | zero => simp at ha hb; omega
  | succ w ih =>
    simp only [leBytes, List.cons.injEq] at h
    have low : a % 256 = b % 256 := by
      have := congrArg UInt8.toNat h.1
      simpa using this
    rw [Nat.pow_succ] at ha hb
    have high := ih (Nat.div_lt_of_lt_mul (by omega)) (Nat.div_lt_of_lt_mul (by omega)) h.2
    omega

theorem tokenBytes_inj {ts us : List Token} (len : ts.length = us.length)
    (h : (ts.flatMap fun t => leBytes 4 t.toNat) = us.flatMap fun t => leBytes 4 t.toNat) :
    ts = us := by
  induction ts generalizing us with
  | nil => exact (List.length_eq_zero_iff.mp len.symm).symm
  | cons t ts ih =>
    cases us with
    | nil => simp at len
    | cons u us =>
      simp only [List.flatMap_cons] at h
      obtain ⟨first, rest⟩ := List.append_inj h (by simp [leBytes_length])
      have same := leBytes_inj (w := 4) t.toNat_lt u.toNat_lt first
      rw [UInt32.toNat_inj.mp same, ih (by simpa using len) rest]

section Chunks

variable {α : Type} {size : Nat}

theorem chunksExact_length (count : Nat) (xs : List α) :
    (chunksExact size count xs).length = count := by
  induction count generalizing xs with
  | zero => rfl
  | succ count ih => simp [chunksExact, ih]

theorem chunksExact_sizes {count : Nat} {xs : List α} (h : count * size ≤ xs.length) :
    ∀ c ∈ chunksExact size count xs, c.length = size := by
  induction count generalizing xs with
  | zero => simp [chunksExact]
  | succ count ih =>
    have hs : (count + 1) * size = count * size + size := Nat.succ_mul count size
    intro c hc
    rcases List.mem_cons.mp hc with rfl | hc
    · rw [List.length_take]; omega
    · exact ih (by rw [List.length_drop]; omega) c hc

theorem chunksExact_flatten (count : Nat) (xs : List α) :
    (chunksExact size count xs).flatten = xs.take (count * size) := by
  induction count generalizing xs with
  | zero => simp [chunksExact]
  | succ count ih =>
    rw [chunksExact, List.flatten_cons, ih, Nat.succ_mul, Nat.add_comm, List.take_add]

theorem chunksExact_take (count k : Nat) (xs : List α) (h : k ≤ count) :
    (chunksExact size count xs).take k = chunksExact size k xs := by
  induction k generalizing count xs with
  | zero => simp [chunksExact]
  | succ k ih =>
    obtain ⟨c, rfl⟩ : ∃ c, count = c + 1 := ⟨count - 1, by omega⟩
    simp [chunksExact, ih c (xs.drop size) (by omega)]

theorem chunksExact_prefix {count m : Nat} (xs : List α) (h : count * size ≤ m) :
    chunksExact size count (xs.take m) = chunksExact size count xs := by
  induction count generalizing xs m with
  | zero => rfl
  | succ count ih =>
    have hs : (count + 1) * size = count * size + size := Nat.succ_mul count size
    rw [chunksExact, chunksExact, List.take_take, Nat.min_eq_left (by omega), List.drop_take,
      ih (m := m - size) (xs.drop size) (by omega)]

end Chunks

theorem chainFrom_length (parent : H) (chunks : List (List Token)) :
    (chainFrom B parent chunks).length = chunks.length := by
  induction chunks generalizing parent with
  | nil => rfl
  | cons c cs ih => simp [chainFrom, ih]

/-- The entry after some chunks is what hashing them in turn leads to. -/
theorem chainFrom_getElem? (parent : H) (chunks : List (List Token)) {i : Nat}
    (hi : i < chunks.length) :
    (chainFrom B parent chunks)[i]? = some ((chunks.take (i + 1)).foldl (hashBlock B) parent) := by
  induction chunks generalizing parent i with
  | nil => simp at hi
  | cons c cs ih =>
    cases i with
    | zero => simp [chainFrom]
    | succ i => simpa [chainFrom] using ih (hashBlock B parent c) (by simpa using hi)

theorem hashBlockChain_length (ns : CacheNamespace B) (ts : List Token) (bs : Nat) :
    (hashBlockChain ns ts bs).length = ts.length / bs := by
  rw [hashBlockChain, chainFrom_length, chunksExact_length]

/-- The hash of the first `i + 1` blocks. -/
theorem hashBlockChain_getElem? (ns : CacheNamespace B) {ts : List Token} {bs i : Nat}
    (hi : i < ts.length / bs) :
    (hashBlockChain ns ts bs)[i]? =
      some ((chunksExact bs (i + 1) ts).foldl (hashBlock B) ns.root) := by
  rw [hashBlockChain, chainFrom_getElem? _ _ (by rwa [chunksExact_length]),
    chunksExact_take _ _ _ (by omega)]

/-- The chain of a prefix is a prefix of the chain. -/
theorem hashBlockChain_prefix (ns : CacheNamespace B) {ts : List Token} {bs i m : Nat}
    (hbs : 0 < bs) (hi : (i + 1) * bs ≤ m) (hm : m ≤ ts.length) :
    (hashBlockChain ns (ts.take m) bs)[i]? = (hashBlockChain ns ts bs)[i]? := by
  have lt : ∀ k, (i + 1) * bs ≤ k → i < k / bs := fun k h => (Nat.le_div_iff_mul_le hbs).mpr h
  rw [hashBlockChain_getElem? ns (by rw [List.length_take, Nat.min_eq_left hm]; exact lt m hi),
    hashBlockChain_getElem? ns (lt _ (by omega)), chunksExact_prefix ts hi]

/-- Equal entries of two chains are entries of one chain: the same tenant and
the same tokens up to the end of the block. -/
def CollisionFree (base : CacheNamespace B) (bs : Nat) : Prop :=
  ∀ (t t' : String) (ts ts' : List Token) (i j : Nat) (h : H),
    (hashBlockChain (base.forTenant t) ts bs)[i]? = some h →
    (hashBlockChain (base.forTenant t') ts' bs)[j]? = some h →
    t = t' ∧ ts.take ((i + 1) * bs) = ts'.take ((j + 1) * bs)

/-- Then an entry's place in its chain is told by its hash too. -/
theorem CollisionFree.same {base : CacheNamespace B} {bs : Nat} (cf : CollisionFree base bs) (hbs : 0 < bs)
    {t t' : String} {ts ts' : List Token} {i j : Nat} {h : H}
    (hi : (hashBlockChain (base.forTenant t) ts bs)[i]? = some h)
    (hj : (hashBlockChain (base.forTenant t') ts' bs)[j]? = some h) :
    t = t' ∧ i = j ∧ ts.take ((i + 1) * bs) = ts'.take ((j + 1) * bs) := by
  obtain ⟨tenant, text⟩ := cf t t' ts ts' i j h hi hj
  have full : ∀ {t : String} {ts : List Token} {i : Nat},
      (hashBlockChain (base.forTenant t) ts bs)[i]? = some h → (ts.take ((i + 1) * bs)).length = (i + 1) * bs := by
    intro t ts i hi
    obtain ⟨lt, -⟩ := List.getElem?_eq_some_iff.mp hi
    rw [hashBlockChain_length] at lt
    exact List.length_take_of_le ((Nat.le_div_iff_mul_le hbs).mp lt)
  have lengths := congrArg List.length text
  rw [full hi, full hj] at lengths
  have := Nat.eq_of_mul_eq_mul_right hbs lengths
  exact ⟨tenant, by omega, text⟩

theorem namespaceBytes_ne_blockBytes (m f : String) (d : DType) (l : Option String) (t : String)
    (parent tokens : List UInt8) (n : Nat) :
    namespaceBytes m f d l t ≠ blockBytes parent tokens n := by
  intro h
  have := congrArg (·[5]?) h
  simp [namespaceBytes, blockBytes, ascii] at this

theorem utf8_inj {a b : String} (h : utf8 a = utf8 b) : a = b :=
  String.toByteArray_inj.mp (ByteArray.ext (Array.toList_inj.mp h))

theorem namespaceBytes_tenant {m f : String} {d : DType} {l : Option String} {t t' : String}
    (h : namespaceBytes m f d l t = namespaceBytes m f d l t') : t = t' := by
  simp only [namespaceBytes, lengthPrefixed, List.append_assoc, List.append_cancel_left_eq] at h
  have bytes := (List.append_inj h (by simp [leBytes_length])).2
  rw [List.append_cancel_right_eq] at bytes
  exact utf8_inj bytes

/-- The hash function that keeps the bytes it is given. -/
def Blake3.identity : Blake3 (List UInt8) := ⟨id, id⟩

end Vapi.Cache
