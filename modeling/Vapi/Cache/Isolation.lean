import Vapi.Cache.Hash
import Mathlib.Data.List.Induction
import Mathlib.Data.Set.Function

/-!
# What equal hashes tell

Where the hash function has no collision among the bytes fed to it, an entry
of a chain tells the namespace, the place in the chain, and every token up to
there. An absent adapter is hashed as an empty one.
-/

namespace Vapi.Cache

variable {H : Type} {B : Blake3 H}

/-- The length of a string fits in its field. -/
def Fitting (part : String) : Prop := (utf8 part).length < 2 ^ 64

theorem lengthPrefixed_inj {a b : String} {x y : List UInt8} (ha : Fitting a) (hb : Fitting b)
    (h : lengthPrefixed a ++ x = lengthPrefixed b ++ y) : a = b ∧ x = y := by
  unfold lengthPrefixed at h
  rw [List.append_assoc, List.append_assoc] at h
  obtain ⟨length, rest⟩ := List.append_inj h (by rw [leBytes_length, leBytes_length])
  obtain ⟨part, rest⟩ := List.append_inj rest (leBytes_inj (w := 8) ha hb length)
  exact ⟨utf8_inj part, rest⟩

namespace CacheNamespace

/-- The bytes the root is the hash of. -/
def bytes (ns : CacheNamespace B) : List UInt8 :=
  namespaceBytes ns.modelId ns.weightsFingerprint ns.dtype ns.loraId ns.tenant

theorem root_bytes (ns : CacheNamespace B) : ns.root = B.digest ns.bytes := ns.root_eq

/-- Every field fits, as a string in memory does. -/
structure Fits (ns : CacheNamespace B) : Prop where
  modelId : Fitting ns.modelId
  weightsFingerprint : Fitting ns.weightsFingerprint
  loraId : Fitting (ns.loraId.getD "")
  tenant : Fitting ns.tenant

/-- What two namespaces of one root agree in. -/
structure Agree (a b : CacheNamespace B) : Prop where
  modelId : a.modelId = b.modelId
  weightsFingerprint : a.weightsFingerprint = b.weightsFingerprint
  dtype : a.dtype = b.dtype
  loraId : a.loraId.getD "" = b.loraId.getD ""
  tenant : a.tenant = b.tenant

theorem agree_of_bytes {a b : CacheNamespace B} (ha : a.Fits) (hb : b.Fits) (h : a.bytes = b.bytes) : Agree a b := by
  unfold bytes namespaceBytes at h
  simp only [List.append_assoc, List.append_cancel_left_eq] at h
  obtain ⟨modelId, h⟩ := lengthPrefixed_inj ha.modelId hb.modelId h
  obtain ⟨weightsFingerprint, h⟩ := lengthPrefixed_inj ha.weightsFingerprint hb.weightsFingerprint h
  obtain ⟨loraId, h⟩ := lengthPrefixed_inj ha.loraId hb.loraId h
  obtain ⟨tenant, h⟩ := lengthPrefixed_inj ha.tenant hb.tenant h
  refine ⟨modelId, weightsFingerprint, ?_, loraId, tenant⟩
  have tag : a.dtype.tag = b.dtype.tag := (List.cons.inj h).1
  cases ka : a.dtype <;> cases kb : b.dtype <;> simp_all [DType.tag]

/-- Fields that agree are hashed alike, an absent adapter like an empty one. -/
theorem Agree.bytes {a b : CacheNamespace B} (h : Agree a b) : a.bytes = b.bytes := by
  unfold CacheNamespace.bytes namespaceBytes
  rw [h.modelId, h.weightsFingerprint, h.dtype, h.loraId, h.tenant]

end CacheNamespace

/-- The bytes hashed for the blocks after a parent, in order. -/
def chainBytes (B : Blake3 H) (parent : H) : List (List Token) → List (List UInt8)
  | [] => []
  | chunk :: chunks =>
    blockBytes (B.asBytes parent) (chunk.flatMap fun t => leBytes 4 t.toNat) chunk.length ::
      chainBytes B (hashBlock B parent chunk) chunks

/-- All that is hashed for the chain of a token sequence. -/
def hashedBytes (ns : CacheNamespace B) (tokens : List Token) (blockSize : Nat) : List (List UInt8) :=
  ns.bytes :: chainBytes B ns.root (chunksExact blockSize (tokens.length / blockSize) tokens)

/-- The chain is the hashes of these, after the root's. -/
theorem hashedBytes_digest (ns : CacheNamespace B) (tokens : List Token) (blockSize : Nat) :
    (hashedBytes ns tokens blockSize).map B.digest = ns.root :: hashBlockChain ns tokens blockSize := by
  have blocks : ∀ (chunks : List (List Token)) (parent : H),
      (chainBytes B parent chunks).map B.digest = chainFrom B parent chunks := by
    intro chunks
    induction chunks with
    | nil => exact fun parent => rfl
    | cons chunk chunks ih => exact fun parent => congrArg (_ :: ·) (ih _)
  unfold hashedBytes hashBlockChain
  rw [List.map_cons, blocks, ns.root_eq]
  rfl

theorem chainBytes_append (parent : H) (as bs : List (List Token)) :
    chainBytes B parent (as ++ bs) = chainBytes B parent as ++ chainBytes B (as.foldl (hashBlock B) parent) bs := by
  induction as generalizing parent with
  | nil => rfl
  | cons a as ih => simp only [List.cons_append, chainBytes, ih, List.foldl_cons]

/-- Equal blocks of one size have equal parents and equal tokens. -/
theorem blockBytes_inj {a b : List UInt8} {ts us : List Token} (size : ts.length = us.length)
    (h : blockBytes a (ts.flatMap fun t => leBytes 4 t.toNat) ts.length =
      blockBytes b (us.flatMap fun t => leBytes 4 t.toNat) us.length) : a = b ∧ ts = us := by
  have words : ∀ x : List Token, (x.flatMap fun t => leBytes 4 t.toNat).length = 4 * x.length := by
    intro x
    rw [List.length_flatMap]
    simp [leBytes_length, Nat.mul_comm]
  simp only [blockBytes, List.append_assoc, List.append_cancel_left_eq] at h
  obtain ⟨parent, rest⟩ := List.append_inj' h (by simp only [List.length_append, leBytes_length, words, size])
  obtain ⟨-, tokens⟩ := List.append_inj rest (by rw [leBytes_length, leBytes_length])
  exact ⟨parent, tokenBytes_inj size tokens⟩

/-- Chains that meet went through the same blocks from the same root. -/
theorem fold_inj {S : Set (List UInt8)} (free : Set.InjOn B.digest S) (distinct : Function.Injective B.asBytes)
    {ns ns' : CacheNamespace B} {size : Nat} {cs cs' : List (List Token)}
    (sizes : ∀ c ∈ cs, c.length = size) (sizes' : ∀ c ∈ cs', c.length = size)
    (fed : ∀ x ∈ ns.bytes :: chainBytes B ns.root cs, x ∈ S)
    (fed' : ∀ x ∈ ns'.bytes :: chainBytes B ns'.root cs', x ∈ S)
    (h : cs.foldl (hashBlock B) ns.root = cs'.foldl (hashBlock B) ns'.root) : ns.bytes = ns'.bytes ∧ cs = cs' := by
  have last : ∀ (root : H) (ds : List (List Token)) (d : List Token),
      blockBytes (B.asBytes (ds.foldl (hashBlock B) root)) (d.flatMap fun t => leBytes 4 t.toNat) d.length ∈
        chainBytes B root (ds ++ [d]) := by
    intro root ds d
    rw [chainBytes_append]
    simp [chainBytes]
  have shorter : ∀ (ns : CacheNamespace B) (ds : List (List Token)) (d : List Token),
      ∀ x ∈ ns.bytes :: chainBytes B ns.root ds, x ∈ ns.bytes :: chainBytes B ns.root (ds ++ [d]) := by
    intro ns ds d x hx
    rw [chainBytes_append]
    exact List.mem_append_left _ hx
  induction cs using List.reverseRecOn generalizing cs' with
  | nil =>
    rcases List.eq_nil_or_concat cs' with rfl | ⟨ds, d, rfl⟩
    · rw [List.foldl_nil, List.foldl_nil, ns.root_bytes, ns'.root_bytes] at h
      exact ⟨free (fed _ (by simp)) (fed' _ (by simp)) h, rfl⟩
    · rw [List.concat_eq_append] at h fed'
      rw [List.foldl_append, List.foldl_nil, ns.root_bytes] at h
      have same := free (fed _ (by simp)) (fed' _ (List.mem_cons_of_mem _ (last _ ds d))) h
      exact absurd same (namespaceBytes_ne_blockBytes _ _ _ _ _ _ _ _)
  | append_singleton as a ih =>
    rcases List.eq_nil_or_concat cs' with rfl | ⟨ds, d, rfl⟩
    · rw [List.foldl_append, List.foldl_nil, ns'.root_bytes] at h
      have same := free (fed _ (List.mem_cons_of_mem _ (last _ as a))) (fed' _ (by simp)) h
      exact absurd same.symm (namespaceBytes_ne_blockBytes _ _ _ _ _ _ _ _)
    · rw [List.concat_eq_append] at h sizes' fed' ⊢
      rw [List.foldl_append, List.foldl_append] at h
      have same := free (fed _ (List.mem_cons_of_mem _ (last _ as a))) (fed' _ (List.mem_cons_of_mem _ (last _ ds d))) h
      obtain ⟨parent, rfl⟩ := blockBytes_inj ((sizes a (by simp)).trans (sizes' d (by simp)).symm) same
      obtain ⟨root, rfl⟩ := ih (fun c hc => sizes c (by simp [hc])) (fun c hc => sizes' c (by simp [hc]))
        (fun x hx => fed x (shorter ns as a x hx)) (fun x hx => fed' x (shorter ns' ds a x hx)) (distinct parent)
      exact ⟨root, rfl⟩

/-- Equal entries of two chains are at one place, after the same tokens and the
same root. -/
theorem chain_inj {S : Set (List UInt8)} (free : Set.InjOn B.digest S) (distinct : Function.Injective B.asBytes)
    {ns ns' : CacheNamespace B} {ts ts' : List Token} {size i j : Nat} {h : H}
    (fed : ∀ x ∈ hashedBytes ns ts size, x ∈ S) (fed' : ∀ x ∈ hashedBytes ns' ts' size, x ∈ S)
    (hi : (hashBlockChain ns ts size)[i]? = some h) (hj : (hashBlockChain ns' ts' size)[j]? = some h) :
    i = j ∧ ts.take ((i + 1) * size) = ts'.take ((i + 1) * size) ∧ ns.bytes = ns'.bytes := by
  have within : ∀ {ns : CacheNamespace B} {ts : List Token} {i : Nat},
      (hashBlockChain ns ts size)[i]? = some h → i < ts.length / size := by
    intro ns ts i hi
    obtain ⟨lt, -⟩ := List.getElem?_eq_some_iff.mp hi
    rwa [hashBlockChain_length] at lt
  have full : ∀ {ts : List Token} {i : Nat}, i < ts.length / size → (i + 1) * size ≤ ts.length := by
    intro ts i lt
    rcases Nat.eq_zero_or_pos size with rfl | positive
    · simp at lt
    · exact (Nat.le_div_iff_mul_le positive).mp lt
  -- what is hashed up to an entry is some of what is hashed for the chain
  have upTo : ∀ {ns : CacheNamespace B} {ts : List Token} {i : Nat}, i < ts.length / size →
      (∀ x ∈ hashedBytes ns ts size, x ∈ S) →
      ∀ x ∈ ns.bytes :: chainBytes B ns.root (chunksExact size (i + 1) ts), x ∈ S := by
    intro ns ts i lt fed x hx
    refine fed x (List.mem_cons.mpr ((List.mem_cons.mp hx).imp_right fun hx => ?_))
    rw [← List.take_append_drop (i + 1) (chunksExact size (ts.length / size) ts), chainBytes_append,
      chunksExact_take _ _ _ lt]
    exact List.mem_append_left _ hx
  have li := within hi
  have lj := within hj
  rw [hashBlockChain_getElem? _ li] at hi
  rw [hashBlockChain_getElem? _ lj] at hj
  obtain ⟨roots, chunks⟩ := fold_inj free distinct (chunksExact_sizes (full li)) (chunksExact_sizes (full lj))
    (upTo li fed) (upTo lj fed') ((Option.some.inj hi).trans (Option.some.inj hj).symm)
  have place : i = j := by
    have := congrArg List.length chunks
    rw [chunksExact_length, chunksExact_length] at this
    omega
  subst place
  refine ⟨rfl, ?_, roots⟩
  rw [← chunksExact_flatten, ← chunksExact_flatten, chunks]

/-- With namespaces whose fields fit, the fields agree too. -/
theorem chains_isolated {ns ns' : CacheNamespace B} (fits : ns.Fits) (fits' : ns'.Fits) {ts ts' : List Token} {size : Nat}
    (free : Set.InjOn B.digest {x | x ∈ hashedBytes ns ts size ∨ x ∈ hashedBytes ns' ts' size})
    (distinct : Function.Injective B.asBytes) {i j : Nat} {h : H}
    (hi : (hashBlockChain ns ts size)[i]? = some h) (hj : (hashBlockChain ns' ts' size)[j]? = some h) :
    i = j ∧ ts.take ((i + 1) * size) = ts'.take ((i + 1) * size) ∧ ns.Agree ns' := by
  obtain ⟨place, tokens, roots⟩ := chain_inj free distinct (fun x => .inl) (fun x => .inr) hi hj
  exact ⟨place, tokens, CacheNamespace.agree_of_bytes fits fits' roots⟩

/-- Chains under one base do not collide when the hash function does not. -/
theorem collisionFree_of_injective (free : Function.Injective B.digest) (distinct : Function.Injective B.asBytes)
    (base : CacheNamespace B) (size : Nat) : CollisionFree base size := by
  intro t t' ts ts' i j h hi hj
  obtain ⟨rfl, tokens, roots⟩ := chain_inj (S := Set.univ) free.injOn distinct (fun _ _ => trivial) (fun _ _ => trivial) hi hj
  exact ⟨namespaceBytes_tenant roots, tokens⟩

theorem identity_collisionFree (base : CacheNamespace Blake3.identity) (size : Nat) : CollisionFree base size :=
  collisionFree_of_injective Function.injective_id Function.injective_id base size

end Vapi.Cache
