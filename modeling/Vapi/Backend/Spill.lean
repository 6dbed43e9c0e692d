import Vapi.Audio.Chunks
import Vapi.Backend.PagedCache
import Mathlib.Algebra.BigOperators.Group.List.Basic
import Mathlib.Algebra.Ring.Nat
import Mathlib.Data.List.Forall2

/-!
# Blocks out of the cache and back

One block of every layer's buffers as bytes, for the spill tier, and the
bytes put into a block again. Tensors are contiguous, and their elements are
bit patterns.
-/

namespace Vapi.Backend

open Cache (DType leBytes leBytes_length)
open Audio (leValue leValue_leBytes chunksExact chunksExact_flatten)

/-- An element type of the device's. -/
inductive CandleDType
  | f32
  | f16
  | bf16
  | u8
  | u32
  | other (name : String) (size : Nat)

namespace CandleDType

def sizeInBytes : CandleDType → Nat
  | .f32 | .u32 => 4
  | .f16 | .bf16 => 2
  | .u8 => 1
  | .other _ size => size

def name : CandleDType → String
  | .f32 => "F32"
  | .f16 => "F16"
  | .bf16 => "BF16"
  | .u8 => "U8"
  | .u32 => "U32"
  | .other name _ => name

/-- The types whose elements are written out. -/
def exported : CandleDType → Bool
  | .other .. => false
  | _ => true

end CandleDType

def pickDtype (dtype : DType) (isCuda : Bool) : CandleDType :=
  match dtype with
  | .f32 => .f32
  | .f16 => .f16
  | .bf16 => .bf16
  | .auto => if isCuda then .bf16 else .f32

theorem pickDtype_exported (dtype : DType) (isCuda : Bool) : (pickDtype dtype isCuda).exported := by
  cases dtype <;> cases isCuda <;> rfl

/-- An element's bits. -/
abbrev Elem (dtype : CandleDType) := Fin (256 ^ dtype.sizeInBytes)

structure Tensor (dtype : CandleDType) where
  dims : List Nat
  data : List (Elem dtype)
  size : data.length = dims.prod

namespace Tensor

variable {dtype : CandleDType}

def zeros (dims : List Nat) : Tensor dtype :=
  ⟨dims, List.replicate dims.prod ⟨0, Nat.pow_pos (by decide)⟩, List.length_replicate⟩

/-- Elements of one step along the first dimension. -/
def inner (t : Tensor dtype) : Nat := (t.dims.drop 1).prod

/-- `narrow` along the first dimension. -/
def narrow (t : Tensor dtype) (start len : Nat) : Except String (Tensor dtype) :=
  match h : t.dims with
  | [] => .error "dimension out of range"
  | n :: rest =>
    if within : start + len ≤ n then
      .ok ⟨len :: rest, (t.data.drop (start * rest.prod)).take (len * rest.prod), by
        have total := t.size
        have fits := Nat.mul_le_mul_right rest.prod within
        rw [h, List.prod_cons] at total
        rw [Nat.add_mul] at fits
        rw [List.length_take, List.length_drop, List.prod_cons]
        omega⟩
    else .error "narrow out of range"

def flattenAll (t : Tensor dtype) : Tensor dtype := ⟨[t.data.length], t.data, by simp⟩

/-- `cat` of tensors of one dimension. -/
def cat (parts : List (Tensor dtype)) : Except String (Tensor dtype) :=
  if parts = [] then .error "cat requires at least one tensor"
  else if parts.all (·.dims.length = 1) then
    .ok ⟨[(parts.flatMap data).length], parts.flatMap data, by simp⟩
  else .error "shape mismatch in cat"

def reshape (t : Tensor dtype) (dims : List Nat) : Except String (Tensor dtype) :=
  if same : t.data.length = dims.prod then .ok ⟨dims, t.data, same⟩ else .error "shape mismatch in reshape"

/-- `slice_set` along the first dimension, in place. -/
def sliceSet (t src : Tensor dtype) (offset : Nat) : Except String (Tensor dtype) :=
  match h : t.dims, h' : src.dims with
  | n :: rest, m :: rest' =>
    if within : rest' = rest ∧ offset + m ≤ n then
      .ok ⟨t.dims, t.data.take (offset * rest.prod) ++ src.data ++ t.data.drop ((offset + m) * rest.prod), by
        have total := t.size
        have part := src.size
        have fits := Nat.mul_le_mul_right rest.prod within.2
        rw [h, List.prod_cons] at total
        rw [h', List.prod_cons, within.1] at part
        rw [h, List.prod_cons]
        rw [Nat.add_mul] at fits ⊢
        simp only [List.length_append, List.length_take, List.length_drop]
        omega⟩
    else .error "shape mismatch in slice-set"
  | _, _ => .error "shape mismatch in slice-set"

/-- The elements of one block of a buffer. -/
def block (t : Tensor dtype) (id : Nat) : List (Elem dtype) := (t.data.drop (id * t.inner)).take t.inner

end Tensor

/-- What one layer stores per token. -/
inductive LayerLayout
  | kv (numKvHeads headDim : Nat)
  | rows (width : Nat)

structure PagedKvCache (dtype : CandleDType) where
  k : List (Tensor dtype)
  v : List (Tensor dtype)
  numBlocks : Nat
  blockSize : Nat

variable {dtype : CandleDType}

/-- The dimensions of a layer's two buffers. -/
def LayerLayout.dims (numBlocks blockSize : Nat) : LayerLayout → List Nat × List Nat
  | .kv numKvHeads headDim =>
    ([numBlocks, blockSize, numKvHeads, headDim], [numBlocks, blockSize, numKvHeads, headDim])
  | .rows width => ([numBlocks, blockSize, 1, width], [0])

namespace PagedKvCache

def withLayouts (layouts : List LayerLayout) (numBlocks blockSize : Nat) : PagedKvCache dtype where
  k := layouts.map fun l => .zeros (l.dims numBlocks blockSize).1
  v := layouts.map fun l => .zeros (l.dims numBlocks blockSize).2
  numBlocks
  blockSize

def buffers (c : PagedKvCache dtype) : List (Tensor dtype) := c.k ++ c.v

def blockBytes (c : PagedKvCache dtype) : Nat :=
  (c.buffers.map fun t => if t.dims.length < 2 then 0 else (t.dims.drop 1).prod * dtype.sizeInBytes).sum

end PagedKvCache

def appendBytes (t : Tensor dtype) : Except String (List UInt8) :=
  if dtype.exported then .ok (t.data.flatMap fun e => leBytes dtype.sizeInBytes e.val)
  else .error ("cannot export a " ++ dtype.name ++ " cache")

def tensorFromBytes (dtype : CandleDType) (bytes : List UInt8) : Except String (Tensor dtype) :=
  if dtype.exported then
    let data := (chunksExact dtype.sizeInBytes bytes).map fun raw => Fin.ofNat (256 ^ dtype.sizeInBytes) (leValue raw)
    .ok ⟨[data.length], data, by simp⟩
  else .error ("cannot import a " ++ dtype.name ++ " cache")

namespace PagedKvCache

def exportBlock (c : PagedKvCache dtype) (id : Nat) : Except String (List UInt8) := do
  let parts ← (c.buffers.filter fun t => !t.dims.length < 2).mapM fun t => return (← t.narrow id 1).flattenAll
  appendBytes (← Tensor.cat parts)

/-- One of the buffers, those of the keys before those of the values. -/
def target (c : PagedKvCache dtype) (i : Nat) : Option (Tensor dtype) :=
  if i < c.k.length then c.k[i]? else c.v[i - c.k.length]?

def store (c : PagedKvCache dtype) (i : Nat) (t : Tensor dtype) : PagedKvCache dtype :=
  if i < c.k.length then { c with k := c.k.set i t } else { c with v := c.v.set (i - c.k.length) t }

/-- The buffers in turn. What was stored before an error stays. -/
def importFrom (flat : Tensor dtype) (id : Nat) :
    List Nat → Nat → PagedKvCache dtype → PagedKvCache dtype × Except String Unit
  | [], _, c => (c, .ok ())
  | i :: rest, at_, c =>
    match c.target i with
    | none => (c, .error "index out of bounds")
    | some target =>
      if target.dims.length < 2 then importFrom flat id rest at_ c
      else
        let dims := 1 :: target.dims.drop 1
        match flat.narrow at_ dims.prod >>= (·.reshape dims) >>= (target.sliceSet · id) with
        | .error e => (c, .error e)
        | .ok t => importFrom flat id rest (at_ + dims.prod) (c.store i t)

def importBlock (c : PagedKvCache dtype) (id : Nat) (bytes : List UInt8) : PagedKvCache dtype × Except String Unit :=
  if bytes.length ≠ c.blockBytes then
    (c, .error ("spilled block is " ++ toString bytes.length ++ " bytes, this cache wants " ++ toString c.blockBytes))
  else if c.k = [] then (c, .ok ())
  else
    match tensorFromBytes dtype bytes with
    | .error e => (c, .error e)
    | .ok flat => importFrom flat id (List.range (c.k.length * 2)) 0 c

end PagedKvCache

section Blocks

variable {t u : Tensor dtype} {n : Nat} {rest : List Nat} {id : Nat}

namespace Tensor

theorem inner_eq (dims : t.dims = n :: rest) : t.inner = rest.prod := by
  rw [inner, dims, List.drop_succ_cons, List.drop_zero]

theorem narrow_eq {start len : Nat} (dims : t.dims = n :: rest) (within : start + len ≤ n) :
    ∃ u, t.narrow start len = .ok u ∧ u.dims = len :: rest ∧
      u.data = (t.data.drop (start * rest.prod)).take (len * rest.prod) := by
  unfold narrow
  split
  · rename_i none_
    cases none_.symm.trans dims
  · rename_i n' rest' is
    obtain ⟨rfl, rfl⟩ := List.cons.inj (is.symm.trans dims)
    rw [dif_pos within]
    exact ⟨_, rfl, rfl, rfl⟩

theorem flattenAll_eq {data : List (Elem dtype)} (is : t.data = data) :
    t.flattenAll = ⟨[data.length], data, by simp⟩ := by
  subst is
  rfl

theorem narrow_block (dims : t.dims = n :: rest) (inside : id < n) :
    ∃ u, t.narrow id 1 = .ok u ∧ u.data = t.block id := by
  obtain ⟨u, is, -, data⟩ := narrow_eq dims (show id + 1 ≤ n from inside)
  exact ⟨u, is, by rw [data, block, inner_eq dims, Nat.one_mul]⟩

theorem block_length (dims : t.dims = n :: rest) (inside : id < n) : (t.block id).length = rest.prod := by
  have total := t.size
  have fits := Nat.mul_le_mul_right rest.prod (Nat.succ_le_of_lt inside)
  rw [dims, List.prod_cons] at total
  rw [Nat.succ_mul] at fits
  rw [block, inner_eq dims, List.length_take, List.length_drop]
  omega

/-- One of a list's parts of a size, replaced. -/
theorem splice_block {α : Type} {data src : List α} {p n j : Nat} (size : data.length = n * p) (one : src.length = p)
    (inside : id < n) : ((data.take (id * p) ++ src ++ data.drop ((id + 1) * p)).drop (j * p)).take p =
      if j = id then src else (data.drop (j * p)).take p := by
  have fits := Nat.mul_le_mul_right p (Nat.succ_le_of_lt inside)
  have front : (data.take (id * p)).length = id * p := by
    rw [List.length_take, size]
    rw [Nat.succ_mul] at fits
    omega
  have both : (data.take (id * p) ++ src).length = (id + 1) * p := by rw [List.length_append, front, one, Nat.succ_mul]
  rcases Nat.lt_trichotomy j id with less | rfl | more
  · have before := Nat.mul_le_mul_right p (Nat.succ_le_of_lt less)
    rw [Nat.succ_mul] at before
    rw [if_neg (Nat.ne_of_lt less), List.append_assoc, List.drop_append_of_le_length (by omega),
      List.take_append_of_le_length (by rw [List.length_drop]; omega), List.drop_take, List.take_take,
      Nat.min_eq_left (by omega)]
  · rw [if_pos rfl, List.append_assoc, List.drop_left' front, List.take_left' one]
  · have past := Nat.mul_le_mul_right p (Nat.succ_le_of_lt more)
    rw [if_neg (Nat.ne_of_gt more), List.drop_append, List.drop_eq_nil_of_le (by rw [both]; exact past), both,
      List.nil_append, List.drop_drop, Nat.add_sub_cancel' past]

theorem block_eq (dims : t.dims = n :: rest) (j : Nat) : t.block j = (t.data.drop (j * rest.prod)).take rest.prod := by
  rw [block, inner_eq dims]

/-- A block set is the only one that changes. -/
theorem sliceSet_block (t src : Tensor dtype) (dims : t.dims = n :: rest) (one : src.dims = 1 :: rest) (inside : id < n) :
    ∃ u, t.sliceSet src id = .ok u ∧ u.dims = t.dims ∧ u.block id = src.data ∧ ∀ j, j ≠ id → u.block j = t.block j := by
  have total := t.size
  have part := src.size
  rw [dims, List.prod_cons] at total
  rw [one, List.prod_cons, Nat.one_mul] at part
  have set : ∃ u, t.sliceSet src id = .ok u ∧ u.dims = t.dims ∧
      u.data = t.data.take (id * rest.prod) ++ src.data ++ t.data.drop ((id + 1) * rest.prod) := by
    unfold sliceSet
    split
    · rename_i n' rest' m rest'' is is'
      obtain ⟨rfl, rfl⟩ := List.cons.inj (is.symm.trans dims)
      obtain ⟨rfl, rfl⟩ := List.cons.inj (is'.symm.trans one)
      rw [dif_pos ⟨rfl, inside⟩]
      exact ⟨_, rfl, rfl, rfl⟩
    · rename_i other
      exact absurd one (other n rest 1 rest dims)
  obtain ⟨u, is, kept, data⟩ := set
  refine ⟨u, is, kept, ?_, fun j other => ?_⟩
  · rw [block_eq (kept.trans dims), data, splice_block total part inside, if_pos rfl]
  · rw [block_eq (kept.trans dims), data, splice_block total part inside, if_neg other, block_eq dims]

end Tensor

/-- A buffer of blocks, or one with no rows at all. -/
inductive Tensor.IsBuffer (numBlocks : Nat) (t : Tensor dtype) : Prop
  | blocks (rest : List Nat) : rest ≠ [] → t.dims = numBlocks :: rest → IsBuffer numBlocks t
  | empty : t.dims = [0] → IsBuffer numBlocks t

/-- A block that is now `s`, and all else as it was. -/
structure Tensor.Put (id : Nat) (s : List (Elem dtype)) (t u : Tensor dtype) : Prop where
  dims : u.dims = t.dims
  here : u.block id = s
  others : ∀ j, j ≠ id → u.block j = t.block j

theorem Tensor.block_empty (dims : t.dims = [0]) (j : Nat) : t.block j = [] := by
  have none_ : t.data = [] := List.length_eq_zero_iff.mp (by rw [t.size, dims]; rfl)
  rw [block, none_, List.drop_nil, List.take_nil]

namespace PagedKvCache

variable {c d : PagedKvCache dtype} {numBlocks : Nat}

theorem target_eq (c : PagedKvCache dtype) (i : Nat) : c.target i = c.buffers[i]? := by
  rw [target, buffers, List.getElem?_append]

theorem store_buffers (c : PagedKvCache dtype) (i : Nat) (t : Tensor dtype) :
    (c.store i t).buffers = c.buffers.set i t := by
  rw [store, buffers, buffers, List.set_append]
  split <;> rfl

/-- The sources are stored one after the other, each in its buffer. -/
theorem importFrom_eq {flat : Tensor dtype} (flat_ : flat.dims = [flat.data.length]) (inside : id < numBlocks)
    {rest : List (Tensor dtype)} {srcs : List (List (Elem dtype))} (all : ∀ t ∈ rest, t.IsBuffer numBlocks)
    (fits : List.Forall₂ (fun t s => s.length = if t.dims.length < 2 then 0 else (t.dims.drop 1).prod) rest srcs)
    {done : List (Tensor dtype)} {at_ : Nat} (c : PagedKvCache dtype) (now : c.buffers = done ++ rest)
    (within : at_ ≤ flat.data.length) (ahead : flat.data.drop at_ = srcs.flatten) :
    ∃ c' rest', importFrom flat id (List.range' done.length rest.length) at_ c = (c', .ok ()) ∧
      c'.buffers = done ++ rest' ∧ rest'.length = rest.length ∧
      ∀ (i : Nat) t s, rest[i]? = some t → srcs[i]? = some s → ∃ u, rest'[i]? = some u ∧ t.Put id s u := by
  induction fits generalizing done at_ c with
  | nil => exact ⟨c, [], rfl, now, rfl, by simp⟩
  | @cons t s rest srcs length _ ih =>
    have found : c.target done.length = some t := by
      rw [target_eq, now, List.getElem?_append_right (Nat.le_refl _), Nat.sub_self, List.getElem?_cons_zero]
    have later : ∀ t ∈ rest, t.IsBuffer numBlocks := fun t mem => all t (List.mem_cons_of_mem _ mem)
    -- The buffer in hand is settled, the others are left to the induction.
    have settle : ∀ (u : Tensor dtype) (at' : Nat) (next : PagedKvCache dtype), t.Put id s u →
        next.buffers = done ++ u :: rest → at' ≤ flat.data.length → flat.data.drop at' = srcs.flatten →
        ∃ c' rest', importFrom flat id (List.range' (done.length + 1) rest.length) at' next = (c', .ok ()) ∧
          c'.buffers = done ++ rest' ∧ rest'.length = rest.length + 1 ∧
          ∀ (i : Nat) t₁ s₁, (t :: rest)[i]? = some t₁ → (s :: srcs)[i]? = some s₁ →
            ∃ u, rest'[i]? = some u ∧ t₁.Put id s₁ u := by
      intro u at' next put now within ahead
      have more := @ih later (done ++ [u]) _ next (by rw [now, List.append_assoc]; rfl) within ahead
      rw [List.length_append, List.length_singleton] at more
      obtain ⟨c', rest', ran, after, same, puts⟩ := more
      refine ⟨c', u :: rest', ran, by rw [after, List.append_assoc]; rfl, by rw [List.length_cons, same], ?_⟩
      intro i t₁ s₁ at_t at_s
      cases i with
      | zero =>
        obtain rfl := Option.some.inj at_t
        obtain rfl := Option.some.inj at_s
        exact ⟨u, rfl, put⟩
      | succ i => exact puts i t₁ s₁ at_t at_s
    rw [List.length_cons, List.range'_succ, importFrom, found]
    rcases all t List.mem_cons_self with ⟨dims, some_, is⟩ | is
    · have two : ¬t.dims.length < 2 := by
        rw [is, List.length_cons]
        have := List.length_pos_iff.mpr some_
        omega
      rw [if_neg two, is, List.drop_succ_cons, List.drop_zero] at length
      have taken : flat.data.drop at_ = s ++ srcs.flatten := by rw [ahead, List.flatten_cons]
      have whole : (1 :: t.dims.drop 1) = 1 :: dims := by rw [is, List.drop_succ_cons, List.drop_zero]
      have elems : (1 :: dims).prod = s.length := by rw [List.prod_cons, Nat.one_mul, length]
      have left := congrArg List.length taken
      rw [List.length_drop, List.length_append] at left
      have room : at_ + (1 :: dims).prod ≤ flat.data.length := by omega
      obtain ⟨part, narrowed, -, data⟩ := Tensor.narrow_eq flat_ room
      rw [List.prod_nil, Nat.mul_one, Nat.mul_one, taken, List.take_left' elems.symm] at data
      have shaped : part.reshape (1 :: dims) = .ok ⟨1 :: dims, part.data, by rw [data, elems]⟩ :=
        dif_pos (by rw [data, elems])
      obtain ⟨u, set, kept, here, others⟩ :=
        t.sliceSet_block ⟨1 :: dims, part.data, by rw [data, elems]⟩ is rfl inside
      have stored : (flat.narrow at_ (1 :: dims).prod >>= (·.reshape (1 :: dims)) >>= (t.sliceSet · id)) = .ok u := by
        rw [narrowed, ok_bind, shaped, ok_bind, set]
      dsimp only
      rw [if_neg two, whole, stored]
      refine settle u _ _ ⟨kept, here.trans data, others⟩ ?_ room ?_
      · rw [store_buffers, now, List.set_append_right _ _ (Nat.le_refl _), Nat.sub_self, List.set_cons_zero]
      · rw [← List.drop_drop, taken, List.drop_left' elems.symm]
    · have one : t.dims.length < 2 := by rw [is]; decide
      rw [if_pos one] at length
      obtain rfl := List.length_eq_zero_iff.mp length
      dsimp only
      rw [if_pos one]
      exact settle t at_ c ⟨rfl, Tensor.block_empty is id, fun _ _ => rfl⟩ now within (by simpa using ahead)

/-- A block's elements, buffer after buffer. -/
def blockData (c : PagedKvCache dtype) (id : Nat) : List (Elem dtype) := c.buffers.flatMap (·.block id)

theorem block_length_of {t : Tensor dtype} (is : t.IsBuffer numBlocks) (inside : id < numBlocks) :
    (t.block id).length = if t.dims.length < 2 then 0 else (t.dims.drop 1).prod := by
  rcases is with ⟨dims, some_, is⟩ | is
  · have two : ¬t.dims.length < 2 := by
      rw [is, List.length_cons]
      have := List.length_pos_iff.mpr some_
      omega
    rw [if_neg two, Tensor.block_length is inside, is, List.drop_succ_cons, List.drop_zero]
  · rw [Tensor.block_empty is, if_pos (by rw [is]; decide)]
    rfl

theorem blockData_length (all : ∀ t ∈ c.buffers, t.IsBuffer numBlocks) (inside : id < numBlocks) :
    (c.blockData id).length * dtype.sizeInBytes = c.blockBytes := by
  rw [blockData, blockBytes]
  generalize c.buffers = buffers at *
  induction buffers with
  | nil => simp
  | cons t buffers ih =>
    rw [List.flatMap_cons, List.length_append, Nat.add_mul, List.map_cons, List.sum_cons,
      ih fun t mem => all t (List.mem_cons_of_mem _ mem), block_length_of (all t List.mem_cons_self) inside]
    split
    · rw [Nat.zero_mul]
    · rfl

theorem exportBlock_eq (all : ∀ t ∈ c.buffers, t.IsBuffer numBlocks) (inside : id < numBlocks)
    (some_ : ∃ t ∈ c.buffers, ¬t.dims.length < 2) (exported : dtype.exported) :
    c.exportBlock id = .ok ((c.blockData id).flatMap fun e => leBytes dtype.sizeInBytes e.val) := by
  let piece : Tensor dtype → Tensor dtype := fun t => ⟨[(t.block id).length], t.block id, by simp⟩
  have parts : (c.buffers.filter fun t => !t.dims.length < 2).mapM (fun t => return (← t.narrow id 1).flattenAll) =
      Except.ok (ε := String) ((c.buffers.filter fun t => !t.dims.length < 2).map piece) := by
    refine mapM_ok fun t mem => ?_
    obtain ⟨known, two⟩ := List.mem_filter.mp mem
    rcases all t known with ⟨dims, -, is⟩ | is
    · obtain ⟨u, narrowed, data⟩ := Tensor.narrow_block is inside
      rw [narrowed]
      exact congrArg Except.ok (Tensor.flattenAll_eq data)
    · rw [is] at two
      cases two
  have joined : ((c.buffers.filter fun t => !t.dims.length < 2).map piece).flatMap Tensor.data = c.blockData id := by
    rw [blockData, List.flatMap_map]
    generalize c.buffers = buffers at all
    induction buffers with
    | nil => rfl
    | cons t buffers ih =>
      have rest := ih fun t mem => all t (List.mem_cons_of_mem _ mem)
      rw [List.flatMap_cons, ← rest]
      rcases all t List.mem_cons_self with ⟨dims, some_, is⟩ | is
      · have two : (!decide (t.dims.length < 2)) = true := by
          have := List.length_pos_iff.mpr some_
          simp only [is, List.length_cons, Bool.not_eq_true', decide_eq_false_iff_not]
          omega
        rw [List.filter_cons_of_pos (p := fun t : Tensor dtype => !t.dims.length < 2) two, List.flatMap_cons]
      · rw [List.filter_cons_of_neg (p := fun t : Tensor dtype => !t.dims.length < 2) (by rw [is]; decide),
          Tensor.block_empty is, List.nil_append]
  have some' : (c.buffers.filter fun t => !t.dims.length < 2).map piece ≠ [] := by
    obtain ⟨t, mem, two⟩ := some_
    exact List.ne_nil_of_mem (List.mem_map_of_mem (List.mem_filter.mpr ⟨mem, by simpa using two⟩))
  rw [exportBlock, parts, ok_bind, Tensor.cat, if_neg some', if_pos (by simp [piece])]
  show appendBytes _ = _
  rw [appendBytes, if_pos exported, ← joined]

theorem tensorFromBytes_eq (exported : dtype.exported) (data : List (Elem dtype)) :
    ∃ flat, tensorFromBytes dtype (data.flatMap fun e => leBytes dtype.sizeInBytes e.val) = .ok flat ∧
      flat.dims = [flat.data.length] ∧ flat.data = data := by
  have size : 0 < dtype.sizeInBytes := by cases dtype <;> first | decide | cases exported
  have groups : chunksExact dtype.sizeInBytes (data.flatMap fun e => leBytes dtype.sizeInBytes e.val) =
      data.map fun e => leBytes dtype.sizeInBytes e.val := by
    have sized : ∀ raw ∈ data.map fun e => leBytes dtype.sizeInBytes e.val, raw.length = dtype.sizeInBytes := by
      intro raw mem
      obtain ⟨e, -, rfl⟩ := List.mem_map.mp mem
      exact leBytes_length _ _
    have cut := chunksExact_flatten sized (show ([] : List UInt8).length < dtype.sizeInBytes from size)
    rwa [List.append_nil, ← List.flatMap_def] at cut
  have read : ∀ e : Elem dtype,
      Fin.ofNat (256 ^ dtype.sizeInBytes) (leValue (leBytes dtype.sizeInBytes e.val)) = e := by
    intro e
    refine Fin.ext ?_
    simp only [Fin.val_ofNat, leValue_leBytes, Nat.mod_mod]
    exact Nat.mod_eq_of_lt e.isLt
  rw [tensorFromBytes, if_pos exported]
  refine ⟨_, rfl, rfl, ?_⟩
  dsimp only
  rw [groups, List.map_map]
  exact (List.map_congr_left fun e _ => read e).trans (List.map_id data)

/-- A cache whose buffers have the shapes of its layers. -/
structure Laid (layouts : List LayerLayout) (numBlocks blockSize : Nat) (c : PagedKvCache dtype) : Prop where
  k : c.k.map (·.dims) = layouts.map fun l => (l.dims numBlocks blockSize).1
  v : c.v.map (·.dims) = layouts.map fun l => (l.dims numBlocks blockSize).2

variable {layouts : List LayerLayout} {blockSize : Nat}

theorem withLayouts_laid (layouts : List LayerLayout) (numBlocks blockSize : Nat) :
    (withLayouts layouts numBlocks blockSize : PagedKvCache dtype).Laid layouts numBlocks blockSize :=
  ⟨by rw [withLayouts, List.map_map]; rfl, by rw [withLayouts, List.map_map]; rfl⟩

namespace Laid

theorem buffers (laid : c.Laid layouts numBlocks blockSize) : c.buffers.map (·.dims) =
    (layouts.map fun l => (l.dims numBlocks blockSize).1) ++ layouts.map fun l => (l.dims numBlocks blockSize).2 := by
  rw [PagedKvCache.buffers, List.map_append, laid.k, laid.v]

theorem isBuffer (laid : c.Laid layouts numBlocks blockSize) : ∀ t ∈ c.buffers, t.IsBuffer numBlocks := by
  intro t mem
  have shape := List.mem_map_of_mem (f := (·.dims)) mem
  rw [laid.buffers, List.mem_append, List.mem_map, List.mem_map] at shape
  obtain ⟨l, -, is⟩ | ⟨l, -, is⟩ := shape
  · cases l <;> exact .blocks _ (List.cons_ne_nil _ _) is.symm
  · cases l with
    | kv => exact .blocks _ (List.cons_ne_nil _ _) is.symm
    | rows => exact .empty is.symm

/-- The keys are never without a row. -/
theorem some_block (laid : c.Laid layouts numBlocks blockSize) (some_ : layouts ≠ []) :
    ∃ t ∈ c.buffers, ¬t.dims.length < 2 := by
  obtain ⟨l, rest, rfl⟩ := List.exists_cons_of_ne_nil some_
  have first := laid.k
  rw [List.map_cons] at first
  obtain ⟨t, more, is, dims, -⟩ := List.map_eq_cons_iff.mp first
  refine ⟨t, List.mem_append_left _ (by rw [is]; exact List.mem_cons_self), ?_⟩
  rw [dims]
  cases l <;> exact (by decide : ¬4 < 2)

theorem k_length (laid : c.Laid layouts numBlocks blockSize) : c.k.length = layouts.length := by
  simpa using congrArg List.length laid.k

theorem v_length (laid : c.Laid layouts numBlocks blockSize) : c.v.length = layouts.length := by
  simpa using congrArg List.length laid.v

theorem blockBytes_eq (laid : c.Laid layouts numBlocks blockSize) (laid' : d.Laid layouts numBlocks blockSize) :
    c.blockBytes = d.blockBytes := by
  have size : ∀ e : PagedKvCache dtype, e.blockBytes = ((e.buffers.map (·.dims)).map fun dims =>
      if dims.length < 2 then 0 else (dims.drop 1).prod * dtype.sizeInBytes).sum := by
    intro e
    rw [blockBytes, List.map_map]
    rfl
  rw [size, size, laid.buffers, laid'.buffers]

/-- One cache's buffers, and what of them goes into another's. -/
theorem fits (laid : c.Laid layouts numBlocks blockSize) (laid' : d.Laid layouts numBlocks blockSize)
    (inside : id < numBlocks) :
    List.Forall₂ (fun t s => s.length = if t.dims.length < 2 then 0 else (t.dims.drop 1).prod)
      d.buffers (c.buffers.map (·.block id)) := by
  have shapes : d.buffers.map (·.dims) = c.buffers.map (·.dims) := by rw [laid.buffers, laid'.buffers]
  have all := laid.isBuffer
  generalize c.buffers = from_ at shapes all
  generalize d.buffers = into at shapes
  induction from_ generalizing into with
  | nil =>
    obtain rfl := List.map_eq_nil_iff.mp shapes
    exact .nil
  | cons t from_ ih =>
    obtain ⟨u, more, rfl, same, rest⟩ := List.map_eq_cons_iff.mp shapes
    refine .cons ?_ (ih (fun t mem => all t (List.mem_cons_of_mem _ mem)) more rest)
    rw [block_length_of (all t List.mem_cons_self) inside, same]

end Laid

/-- The store order is the order of the buffers, and shapes are as before. -/
theorem laid_of {d' : PagedKvCache dtype} (laid : d.Laid layouts numBlocks blockSize)
    (k : d'.k.length = d.k.length) (dims : d'.buffers.map (·.dims) = d.buffers.map (·.dims)) :
    d'.Laid layouts numBlocks blockSize := by
  rw [buffers, buffers, List.map_append, List.map_append] at dims
  obtain ⟨keys, values⟩ := List.append_inj dims (by rw [List.length_map, List.length_map, k])
  exact ⟨keys.trans laid.k, values.trans laid.v⟩

theorem importFrom_k_length (flat : Tensor dtype) (id : Nat) (is : List Nat) (at_ : Nat) (c : PagedKvCache dtype) :
    (importFrom flat id is at_ c).1.k.length = c.k.length := by
  induction is generalizing at_ c with
  | nil => rfl
  | cons i is ih =>
    rw [importFrom]
    split
    · rfl
    · split
      · exact ih at_ c
      · dsimp only
        split
        · rfl
        · rw [ih, store]
          split
          · exact List.length_set
          · rfl

/-- A block's bytes make every buffer's block what it was, in whichever block
they are put, and in no other. Bytes of another length are refused. -/
theorem restores_block (some_ : layouts ≠ []) (exported : dtype.exported) {a b : Nat} (from_ : a < numBlocks)
    (into : b < numBlocks) (laid : c.Laid layouts numBlocks blockSize) (laid' : d.Laid layouts numBlocks blockSize) :
    (∃ bytes d', c.exportBlock a = .ok bytes ∧ bytes.length = c.blockBytes ∧
      d.importBlock b bytes = (d', .ok ()) ∧ d'.Laid layouts numBlocks blockSize ∧
      ∀ (i : Nat) t u, c.buffers[i]? = some t → d.buffers[i]? = some u →
        ∃ u', d'.buffers[i]? = some u' ∧ u'.block b = t.block a ∧ ∀ j, j ≠ b → u'.block j = u.block j) ∧
    ∀ bytes : List UInt8, bytes.length ≠ d.blockBytes → ∃ e, d.importBlock b bytes = (d, .error e) := by
  have refused : ∀ bytes : List UInt8, bytes.length ≠ d.blockBytes → ∃ e, d.importBlock b bytes = (d, .error e) :=
    fun bytes other => ⟨_, if_pos other⟩
  refine ⟨?_, refused⟩
  have all := laid.isBuffer
  have written := exportBlock_eq all from_ (laid.some_block some_) exported
  have size := blockData_length all from_
  obtain ⟨flat, read, shape, data⟩ := tensorFromBytes_eq exported (c.blockData a)
  generalize bytes_ : ((c.blockData a).flatMap fun e => leBytes dtype.sizeInBytes e.val) = bytes at written read
  have length : bytes.length = c.blockBytes := by
    rw [← size, ← bytes_, List.length_flatMap, List.map_congr_left fun e _ => leBytes_length _ _, List.map_const',
      List.sum_replicate, smul_eq_mul]
  have keys : d.k ≠ [] := by
    rw [← List.length_pos_iff, laid'.k_length]
    exact List.length_pos_iff.mpr some_
  have order : List.range (d.k.length * 2) = List.range' 0 d.buffers.length := by
    rw [List.range_eq_range', buffers, List.length_append, laid'.v_length, laid'.k_length, Nat.mul_two]
  obtain ⟨d', after, ran, now, same, puts⟩ := importFrom_eq shape into laid'.isBuffer (laid.fits laid' from_) d
    (List.nil_append _).symm (Nat.zero_le _) (by rw [List.drop_zero, data, blockData, List.flatMap_def])
  rw [List.nil_append] at now
  have ends : d.importBlock b bytes = (d', .ok ()) := by
    rw [importBlock, if_neg (by rw [length, laid.blockBytes_eq laid']; exact not_not_intro rfl), if_neg keys, read,
      order]
    exact ran
  -- What is put in a buffer keeps its shape.
  have shapes : d'.buffers.map (·.dims) = d.buffers.map (·.dims) := by
    refine List.ext_getElem? fun i => ?_
    rw [List.getElem?_map, List.getElem?_map]
    rcases Nat.lt_or_ge i d.buffers.length with inside | past
    · have counted : (c.buffers.map (·.block a)).length = d.buffers.length :=
        (laid.fits laid' from_).length_eq.symm
      obtain ⟨u', found, put⟩ := puts i _ _ (List.getElem?_eq_getElem inside)
        (List.getElem?_eq_getElem (by rw [counted]; exact inside))
      rw [now, found, List.getElem?_eq_getElem inside, Option.map_some, Option.map_some, put.dims]
    · rw [List.getElem?_eq_none past, List.getElem?_eq_none (by rw [now, same]; exact past)]
  refine ⟨bytes, d', written, length, ends, ?_, fun i t u at_t at_u => ?_⟩
  · have kept := importFrom_k_length flat b (List.range' 0 d.buffers.length) 0 d
    exact laid_of laid' (by rw [← kept]; exact congrArg (fun r => r.1.k.length) ran.symm) shapes
  · obtain ⟨u', found, put⟩ := puts i u (t.block a) at_u (by rw [List.getElem?_map, at_t, Option.map_some])
    exact ⟨u', by rw [now]; exact found, put.here, put.others⟩

/-- A layer of rows before one of keys and values, two blocks of a token. -/
def mixed : PagedKvCache .u8 where
  k := [⟨[2, 1, 1, 1], [⟨1, by decide⟩, ⟨2, by decide⟩], rfl⟩, ⟨[2, 1, 1, 1], [⟨3, by decide⟩, ⟨4, by decide⟩], rfl⟩]
  v := [⟨[0], [], rfl⟩, ⟨[2, 1, 1, 1], [⟨5, by decide⟩, ⟨6, by decide⟩], rfl⟩]
  numBlocks := 2
  blockSize := 1

theorem mixed_laid : mixed.Laid [.rows 1, .kv 1 1] 2 1 := ⟨rfl, rfl⟩

theorem restores_block_mixed :
    (∃ bytes d', mixed.exportBlock 0 = .ok bytes ∧ bytes.length = mixed.blockBytes ∧
      mixed.importBlock 1 bytes = (d', .ok ()) ∧ d'.Laid [.rows 1, .kv 1 1] 2 1 ∧
      ∀ (i : Nat) t u, mixed.buffers[i]? = some t → mixed.buffers[i]? = some u →
        ∃ u', d'.buffers[i]? = some u' ∧ u'.block 1 = t.block 0 ∧ ∀ j, j ≠ 1 → u'.block j = u.block j) ∧
    ∀ bytes : List UInt8, bytes.length ≠ mixed.blockBytes → ∃ e, mixed.importBlock 1 bytes = (mixed, .error e) :=
  restores_block (List.cons_ne_nil _ _) rfl (by decide) (by decide) mixed_laid mixed_laid

example : mixed.exportBlock 0 = .ok [1, 3, 5] := rfl

end PagedKvCache

end Blocks

end Vapi.Backend
