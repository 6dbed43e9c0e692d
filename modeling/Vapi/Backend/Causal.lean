import Vapi.Backend.ShortConv
import Mathlib.Algebra.BigOperators.Ring.List
import Mathlib.Algebra.Order.Ring.Rat

/-!
# The plain causal convolution

Whatever the steps and chunks are in which sequences are run together, each
token's row is that of the causal convolution over its own sequence, with zeros
before the first token.
-/

namespace Vapi.Backend

open Vapi.Engine Vapi.Cache Slots

variable {ι S H : Type} {hidden : Nat}

section Taps

variable [Zero S] [One S] {b : ForwardBatch} {blockSize : Nat} {table : ι → List BlockId} {chunks : List (Chunk ι)}

/-- The position that a tap reads, or the token's own where that is before the start. -/
def tapPosition (back p : Nat) : Nat := if back ≤ p then p - back else p

def tapMask (back p : Nat) : S := if back ≤ p then 1 else 0

variable (lays : Lays b blockSize table chunks)
include lays

theorem convTap_eq (back : Nat) {i j : Nat} {c : Chunk ι} (here : chunks[i]? = some c) (inside : j < c.q)
    {blocks : List BlockId} (first : blocks <+: table c.seq) (covers : c.start + c.q ≤ blocks.length * blockSize) :
    convTap S b blocks back blockSize (offset chunks i + j) =
      .ok (UInt32.ofNat (slotOf blockSize table c.seq (tapPosition back (c.start + j))), tapMask back (c.start + j)) := by
  have token := tokensOf_at here inside
  obtain ⟨p, p_at, is_p⟩ := lays.position_at token
  obtain ⟨slot, slot_at, is_slot⟩ := lays.slot_at token
  have is_p : p.toNat = c.start + j := is_p
  rw [convTap, entry_eq p_at, tapPosition, tapMask]
  by_cases enough : back ≤ c.start + j
  · have block := block_at first (Nat.lt_of_lt_of_le (show c.start + j - back < c.start + c.q by omega) covers)
    show (if back ≤ p.toNat then _ else _) = _
    rw [if_pos (is_p ▸ enough), if_pos enough, if_pos enough, is_p]
    simp only [entry_eq block]
    rfl
  · show (if back ≤ p.toNat then _ else _) = _
    rw [if_neg (is_p ▸ enough), if_neg enough, if_neg enough, entry_eq slot_at, ← is_slot, UInt32.ofNat_toNat]
    rfl

theorem convTaps_eq (back : Nat) :
    convTaps S b back blockSize = .ok
      ((tokensOf chunks).map fun t => UInt32.ofNat (slotOf blockSize table t.1 (tapPosition back t.2)),
        (tokensOf chunks).map fun t => tapMask back t.2) := by
  have each : (List.range b.batchSize).mapM (sequenceTaps S b back blockSize) = .ok (chunks.map fun c =>
      c.positions.map fun p => (UInt32.ofNat (slotOf blockSize table c.seq (tapPosition back p)), tapMask back p)) := by
    refine mapM_forall₂ (List.forall₂_iff_get.mpr ⟨by rw [List.length_range, lays.batchSize], fun i hi hc => ?_⟩)
    have here : chunks[i]? = some (chunks.get ⟨i, hc⟩) := List.getElem?_eq_getElem hc
    generalize chunks.get ⟨i, hc⟩ = c at here
    obtain ⟨from_, until_, at_, at', is_from, is_until⟩ := lays.queries_at here
    obtain ⟨blocks, blocks_at, first, covers⟩ := lays.table_at here
    rw [List.get_eq_getElem, List.getElem_range, sequenceTaps, entry_eq blocks_at, entry_eq at_, entry_eq at']
    refine mapM_forall₂ (List.forall₂_iff_get.mpr ⟨by simp [Chunk.positions, is_until], fun j hj hp => ?_⟩)
    have inside : j < c.q := by simpa [Chunk.positions] using hp
    have tap := convTap_eq (S := S) lays back here inside first covers
    simpa [Chunk.positions, is_from] using tap
  rw [convTaps, each]
  show Except.ok _ = _
  simp only [tokensOf, List.map_flatten, List.map_map, List.flatMap_def, Function.comp_def]

omit [Zero S] [One S] lays in
/-- A token's row is at the position its tap reads. -/
theorem tapPosition_le (back p : Nat) : tapPosition back p ≤ p := by
  unfold tapPosition
  split
  · exact Nat.sub_le _ _
  · exact Nat.le_refl _

end Taps

section Prepared

variable [Zero S] [One S] {b : ForwardBatch} {blockSize : Nat} {table : ι → List BlockId} {chunks : List (Chunk ι)}

/-- What the tap `back` positions before a token is for the tokens of a batch. -/
def tapAt (S : Type) [Zero S] [One S] (blockSize : Nat) (table : ι → List BlockId) (chunks : List (Chunk ι)) (back : Nat) :
    List UInt32 × List S :=
  ((tokensOf chunks).map fun t => UInt32.ofNat (slotOf blockSize table t.1 (tapPosition back t.2)),
    (tokensOf chunks).map fun t => tapMask back t.2)

/-- How far back the taps are, the oldest first. -/
def backs (kernel : Nat) : List Nat := (List.range kernel).map fun k => kernel - 1 - k

theorem kernelTaps_eq (lays : Lays b blockSize table chunks) (kernel : Nat) :
    (List.range kernel).mapM (kernelTap S kernel b blockSize) =
      .ok ((backs kernel).map (tapAt S blockSize table chunks)) := by
  rw [backs, List.map_map]
  refine mapM_ok fun k _ => ?_
  rw [kernelTap, convTaps_eq lays]
  show (if _ then _ else _) = _
  rw [if_pos ⟨by rw [List.length_map, lays.tokens], by rw [List.length_map, lays.tokens]⟩]
  rfl

end Prepared

/-- The causal convolution: the taps, oldest first, along the rows with zeros before the first. -/
def causal [Zero S] [Add S] [Mul S] (taps rows : List (Fin hidden → S)) (p : Nat) : Fin hidden → S := fun c =>
  (List.zipWith (fun w row => w c * row c) taps ((List.replicate (taps.length - 1) 0 ++ rows).drop p)).sum

namespace ShortConv

variable [CommRing S] (conv : ShortConv S H hidden)

/-- A token's row as the plain convolution has it, over the whole sequence. -/
def plain (x : Nat → H) (len p : Nat) : H := conv.outProj fun c => conv.cProj (x p) c *
  (causal conv.taps ((List.range len).map fun q => conv.gated (x q)) p c + conv.bias.elim 0 (· c))

section Sum

variable {row : Nat → Fin hidden → S}

/-- The row some positions back, or zero before the first. -/
def past (row : Nat → Fin hidden → S) (back p : Nat) : Fin hidden → S := if back ≤ p then row (p - back) else 0

theorem causal_eq (taps : List (Fin hidden → S)) {len p : Nat} (inside : p < len) (c : Fin hidden) :
    causal taps ((List.range len).map row) p c =
      (List.zipWith (fun back w => w c * past row back p c) (backs taps.length) taps).sum := by
  rw [causal]
  congr 1
  refine List.ext_getElem (by simp [backs]; omega) fun k hk hk' => ?_
  have within : k < taps.length := by
    rw [List.length_zipWith] at hk
    omega
  rw [List.getElem_zipWith, List.getElem_zipWith, List.getElem_drop]
  congr 1
  simp only [backs, List.getElem_map, List.getElem_range, past]
  rw [List.getElem_append]
  split
  · rename_i padding
    rw [List.length_replicate] at padding
    rw [List.getElem_replicate, if_neg (by omega)]
  · rename_i real
    rw [List.length_replicate] at real
    rw [if_pos (by omega), List.getElem_map, List.getElem_range]
    have same : p + k - (List.replicate (taps.length - 1) (0 : Fin hidden → S)).length = p - (taps.length - 1 - k) := by
      rw [List.length_replicate]
      omega
    rw [same]

/-- What a tap adds for a token. -/
def tapTerm (rows : ι → Nat → Fin hidden → S) (back : Nat) (w : Fin hidden → S) (t : ι × Nat) : Fin hidden → S :=
  fun c => w c * past (rows t.1) back t.2 c

section Loop

variable {flat : List (Fin hidden → S)} {tokens : List (ι × Nat)} {rows : ι → Nat → Fin hidden → S} {idx : Nat → List UInt32}
  (gathers : ∀ back, gather flat ((idx back).map UInt32.toNat) =
    .ok (tokens.map fun t => rows t.1 (tapPosition back t.2)))
include gathers

omit gathers in
theorem term_eq (back : Nat) (w : Fin hidden → S) : List.zipWith (fun (row m : Fin hidden → S) c => row c * w c * m c)
    (tokens.map fun t => rows t.1 (tapPosition back t.2)) (tokens.map fun t _ => tapMask back t.2) =
      tokens.map (tapTerm rows back w) := by
  rw [List.zipWith_map, List.zipWith_self]
  refine List.map_congr_left fun t _ => funext fun c => ?_
  unfold tapTerm past tapPosition tapMask
  split
  · rw [mul_one, mul_comm]
  · rw [mul_zero, Pi.zero_apply, mul_zero]

theorem addTap_none (back : Nat) (w : Fin hidden → S) :
    addTap flat none ((idx back, tokens.map fun t _ => tapMask back t.2), w) =
      .ok (some (tokens.map (tapTerm rows back w))) := by
  rw [addTap, gathers, ← term_eq]
  rfl

theorem addTap_some (sum : ι × Nat → Fin hidden → S) (back : Nat) (w : Fin hidden → S) :
    addTap flat (some (tokens.map sum)) ((idx back, tokens.map fun t _ => tapMask back t.2), w) =
      .ok (some (tokens.map fun t c => sum t c + tapTerm rows back w t c)) := by
  have added : List.zipWith (fun (u v : Fin hidden → S) c => u c + v c) (tokens.map sum)
      (tokens.map (tapTerm rows back w)) = tokens.map fun t c => sum t c + tapTerm rows back w t c := by
    rw [List.zipWith_map, List.zipWith_self]
  rw [addTap, gathers, ← added, ← term_eq]
  rfl

theorem foldlM_taps (bs : List Nat) (ws : List (Fin hidden → S)) (sum : ι × Nat → Fin hidden → S) :
    ((bs.map fun back => (idx back, tokens.map fun t _ => tapMask back t.2)).zip ws).foldlM (addTap flat)
        (some (tokens.map sum)) =
      .ok (some (tokens.map fun t c => sum t c + (List.zipWith (fun back w => tapTerm rows back w t c) bs ws).sum)) := by
  induction bs generalizing ws sum with
  | nil =>
    simp only [List.zipWith_nil_left, List.sum_nil, add_zero]
    rfl
  | cons back bs ih =>
    cases ws with
    | nil =>
      simp only [List.zipWith_nil_right, List.sum_nil, add_zero]
      rfl
    | cons w ws =>
      rw [List.map_cons, List.zip_cons_cons, List.foldlM_cons, addTap_some gathers]
      refine (ih ws _).trans ?_
      simp only [List.zipWith_cons_cons, List.sum_cons, add_assoc]

variable (rows) in
theorem taps_loop (w : Fin hidden → S) (ws : List (Fin hidden → S)) (back : Nat) (bs : List Nat) :
    (((back :: bs).map fun back => (idx back, tokens.map fun t _ => tapMask back t.2)).zip (w :: ws)).foldlM (addTap flat)
        none =
      .ok (some (tokens.map fun t c => (List.zipWith (fun back w => tapTerm rows back w t c) (back :: bs) (w :: ws)).sum)) := by
  rw [List.map_cons, List.zip_cons_cons, List.foldlM_cons, addTap_none gathers]
  exact foldlM_taps gathers bs ws _

end Loop

end Sum

section Step

variable [LinearOrder S] [IsStrictOrderedRing S] [DecidableEq ι] {b : ForwardBatch} {blockSize : Nat}
  {table : ι → List BlockId} {chunks : List (Chunk ι)} {cells : List (Fin hidden → S)} {x : ι → Nat → H}
  {len done : ι → Nat}

/-- What a step writes. -/
def written (blockSize : Nat) (table : ι → List BlockId) (x : ι → Nat → H) (chunks : List (Chunk ι)) :
    List (Nat × (Fin hidden → S)) :=
  writes (slotOf blockSize table) (fun s p => conv.gated (x s p)) chunks

omit [LinearOrder S] [IsStrictOrderedRing S] [DecidableEq ι] in
theorem written_eq : conv.written blockSize table x chunks = (tokensOf chunks).map fun t =>
    (slotOf blockSize table t.1 t.2, conv.gated (x t.1 t.2)) := by
  simp only [written, writes, tokensOf, List.map_flatMap, List.map_map]
  rfl

omit [CommRing S] [LinearOrder S] [IsStrictOrderedRing S] [DecidableEq ι] in
theorem gathers (fits : cells.length < 2 ^ 32) (rows : ι → Nat → Fin hidden → S) {tokens : List (ι × Nat)}
    (holds : ∀ t ∈ tokens, ∀ q, q ≤ t.2 → cells[slotOf blockSize table t.1 q]? = some (rows t.1 q)) (back : Nat) :
    gather cells ((tokens.map fun t => UInt32.ofNat (slotOf blockSize table t.1 (tapPosition back t.2))).map UInt32.toNat) =
      .ok (tokens.map fun t => rows t.1 (tapPosition back t.2)) := by
  rw [gather, List.map_map]
  refine mapM_forall₂ ?_
  rw [List.forall₂_map_left_iff, List.forall₂_same]
  intro t mem
  have held := holds t mem _ (tapPosition_le back t.2)
  have inside := (List.getElem?_eq_some_iff.mp held).1
  rw [Function.comp, UInt32.toNat_ofNat_of_lt' (Nat.lt_trans inside fits), held]
  rfl

omit [IsStrictOrderedRing S] [DecidableEq ι] in
/-- A step writes its tokens' rows and answers with those of the plain convolution. -/
theorem forward_eq (taps : conv.taps ≠ []) (fits : cells.length < 2 ^ 32) (lays : Lays b blockSize table chunks)
    (inside : ∀ t ∈ tokensOf chunks, slotOf blockSize table t.1 t.2 < cells.length ∧ t.2 < len t.1)
    (holds : ∀ t ∈ tokensOf chunks, ∀ q, q ≤ t.2 →
      (setAll cells (conv.written blockSize table x chunks))[slotOf blockSize table t.1 q]? = some (conv.gated (x t.1 q))) :
    conv.step ((tokensOf chunks).map fun t => x t.1 t.2) b blockSize cells =
      .ok ((tokensOf chunks).map fun t => conv.plain (x t.1) (len t.1) t.2,
        setAll cells (conv.written blockSize table x chunks)) := by
  have prepared : prepare S hidden false conv.taps.length b blockSize = .ok ⟨b.slotMapping,
      (backs conv.taps.length).map fun back => (((tokensOf chunks).map fun t =>
        UInt32.ofNat (slotOf blockSize table t.1 (tapPosition back t.2))), (tokensOf chunks).map fun t _ => tapMask back t.2),
      none⟩ := by
    rw [prepare, kernelTaps_eq lays]
    show Except.ok _ = _
    simp only [tapAt, List.map_map, Function.comp_def]
  have row : List.zipWith (fun (b xx : Fin hidden → S) i => b i * xx i)
      (((tokensOf chunks).map fun t => x t.1 t.2).map conv.bProj) (((tokensOf chunks).map fun t => x t.1 t.2).map conv.xProj) =
        (tokensOf chunks).map fun t => conv.gated (x t.1 t.2) := by
    rw [List.map_map, List.map_map, List.zipWith_map, List.zipWith_self]
    rfl
  have same : b.slotMapping.length = (tokensOf chunks).length := by
    rw [← List.length_map (f := UInt32.toNat), lays.slots, List.length_map]
  have pairs : (b.slotMapping.zip ((tokensOf chunks).map fun t => conv.gated (x t.1 t.2))).map
      (fun w => (w.1.toNat, w.2)) = conv.written blockSize table x chunks := by
    rw [written_eq, show (fun w : UInt32 × (Fin hidden → S) => (w.1.toNat, w.2)) = Prod.map UInt32.toNat id from rfl,
      ← List.zip_map_left, lays.slots, List.zip_map']
  have wrote : scatterSet cells (b.slotMapping.zip ((tokensOf chunks).map fun t => conv.gated (x t.1 t.2))) =
      .ok (setAll cells (conv.written blockSize table x chunks)) := by
    rw [scatterSet_eq, pairs]
    intro w mem
    obtain ⟨k, within, is⟩ := List.mem_iff_getElem.mp (List.of_mem_zip mem).1
    obtain ⟨t, here⟩ : ∃ t, (tokensOf chunks)[k]? = some t := ⟨_, List.getElem?_eq_getElem (by omega)⟩
    obtain ⟨slot, at_, number⟩ := lays.slot_at here
    rw [List.getElem?_eq_getElem within, is] at at_
    obtain rfl := Option.some.inj at_
    rw [number]
    exact (inside t (List.mem_of_getElem? here)).1
  rw [step, prepared]
  show conv.forward _ _ _ = _
  -- each token's sum over the taps is that of the padded rows
  obtain ⟨w, ws, some_⟩ := List.exists_cons_of_ne_nil taps
  obtain ⟨back, bs, far⟩ := List.exists_cons_of_length_pos (l := backs conv.taps.length)
    (by simpa [backs] using List.length_pos_iff.mpr taps)
  have reads := gathers ((setAll_length cells _).trans_lt fits) (fun s p => conv.gated (x s p)) holds
  have loop := taps_loop (fun s p => conv.gated (x s p)) reads w ws back bs
  rw [← far, ← some_] at loop
  have sums : ((tokensOf chunks).map fun t c =>
      (List.zipWith (fun back w => tapTerm (fun s p => conv.gated (x s p)) back w t c) (backs conv.taps.length) conv.taps).sum) =
      (tokensOf chunks).map fun t => causal conv.taps ((List.range (len t.1)).map fun q => conv.gated (x t.1 q)) t.2 :=
    List.map_congr_left fun t mem => funext fun c => (causal_eq conv.taps (inside t mem).2 c).symm
  rw [sums] at loop
  have out : ∀ acc : List (Fin hidden → S), acc = ((tokensOf chunks).map fun t =>
      causal conv.taps ((List.range (len t.1)).map fun q => conv.gated (x t.1 q)) t.2) →
      List.zipWith (fun c a => conv.outProj fun i => c i * a i) (((tokensOf chunks).map fun t => x t.1 t.2).map conv.cProj)
        (conv.bias.elim acc fun bias => acc.map fun a i => a i + bias i) =
          (tokensOf chunks).map fun t => conv.plain (x t.1) (len t.1) t.2 := by
    rintro _ rfl
    unfold plain
    cases conv.bias with
    | none =>
      simp only [Option.elim_none, add_zero]
      rw [List.map_map, List.zipWith_map, List.zipWith_self]
      rfl
    | some bias =>
      simp only [Option.elim_some]
      rw [List.map_map, List.map_map, List.zipWith_map, List.zipWith_self]
      rfl
  simp only [forward, row, List.length_map, same, ne_eq, not_true_eq_false, if_false, wrote, bind, Except.bind, loop]
  rw [out _ rfl]
  rfl

omit [IsStrictOrderedRing S] in
/-- The run: what the earlier steps have written is what the later ones read. -/
theorem run_eq (taps : conv.taps ≠ []) {numBlocks : Nat} (fits : numBlocks * blockSize < 2 ^ 32)
    (placed : Placement numBlocks blockSize table len x) {steps : List (List (Chunk ι) × ForwardBatch)}
    (lays : ∀ s ∈ steps, Lays s.2 blockSize table s.1) (size : cells.length = numBlocks * blockSize)
    (le : ∀ s, done s ≤ len s) (holds : Holds (slotOf blockSize table) (fun s p => conv.gated (x s p)) cells done)
    (follow : Follow len done (steps.flatMap Prod.fst)) : ∃ after, conv.run blockSize x steps cells =
      .ok (steps.map fun s => (tokensOf s.1).map fun t => conv.plain (x t.1) (len t.1) t.2, after) := by
  induction steps generalizing cells done with
  | nil => exact ⟨cells, rfl⟩
  | cons s rest ih =>
    rw [List.flatMap_cons, follow_append] at follow
    have inside : ∀ s p, p < len s → slotOf blockSize table s p < cells.length :=
      fun s p within => size ▸ slotOf_lt placed.blocks placed.covers within
    have coherent : Coherent (slotOf blockSize table) (fun s p => conv.gated (x s p)) len :=
      fun s p t q hp hq same => congrArg conv.gated (placed.coherent s p t q hp hq same)
    have next := holds.step coherent inside le follow.1
    have now : ∀ t ∈ tokensOf s.1, t.2 < advance done s.1 t.1 := by
      intro t mem
      obtain ⟨c, chunk, mem⟩ := List.mem_flatMap.mp mem
      obtain ⟨p, at_, rfl⟩ := List.mem_map.mp mem
      exact Nat.lt_of_lt_of_le (List.mem_range'_1.mp at_).2 (follow.1.end_le chunk)
    have within : ∀ t ∈ tokensOf s.1, t.2 < len t.1 :=
      fun t mem => Nat.lt_of_lt_of_le (now t mem) (follow.1.advance_le le t.1)
    have forward : conv.step ((tokensOf s.1).map fun t => x t.1 t.2) s.2 blockSize cells =
        .ok ((tokensOf s.1).map fun t => conv.plain (x t.1) (len t.1) t.2,
          setAll cells (conv.written blockSize table x s.1)) :=
      conv.forward_eq taps (size ▸ fits) (lays s List.mem_cons_self)
        (fun t mem => ⟨inside t.1 t.2 (within t mem), within t mem⟩)
        fun t mem q before => next t.1 q (Nat.lt_of_le_of_lt before (now t mem))
    have kept : (setAll cells (conv.written blockSize table x s.1)).length = numBlocks * blockSize := by
      rw [setAll_length, size]
    obtain ⟨after, more⟩ := ih (fun s' mem => lays s' (List.mem_cons_of_mem s mem)) kept (follow.1.advance_le le) next
      follow.2
    refine ⟨after, ?_⟩
    rw [run, forward]
    show (do
      let later ← conv.run blockSize x rest (setAll cells (conv.written blockSize table x s.1))
      pure (_ :: later.1, later.2)) = _
    rw [more]
    rfl

end Step

section Encodings

variable [LinearOrder S] [IsStrictOrderedRing S] {b : ForwardBatch} {blockSize : Nat} {table : ι → List BlockId}
  {chunks : List (Chunk ι)}

/-- The taps prepared for either device are the same rows and the same padding: padding is the sentinel of the one and
a zero of the other's mask. -/
def SameTaps (S : Type) [CommRing S] [LinearOrder S] (hidden kernel : Nat) (b : ForwardBatch) (blockSize : Nat) : Prop :=
  ∃ (taps : List (List UInt32 × List S)) (flat : List UInt32),
    prepare S hidden false kernel b blockSize =
      .ok ⟨b.slotMapping, taps.map fun tap => (tap.1, tap.2.map fun m _ => m), none⟩ ∧
    prepare S hidden true kernel b blockSize = .ok ⟨b.slotMapping, [], some flat⟩ ∧
    flat.map (fun i => if i = convPad then none else some i) =
      taps.flatMap fun tap => List.zipWith (fun i m => if m = 0 then none else some i) tap.1 tap.2

theorem sameTaps (lays : Lays b blockSize table chunks)
    (addressed : ∀ t ∈ tokensOf chunks, ∀ q, q ≤ t.2 → slotOf blockSize table t.1 q < 2 ^ 32 - 1) (hidden kernel : Nat) :
    SameTaps S hidden kernel b blockSize := by
  refine ⟨(backs kernel).map (tapAt S blockSize table chunks), ((backs kernel).map (tapAt S blockSize table chunks)).flatMap
    fun tap => List.zipWith (fun i m => if 0 < m then i else convPad) tap.1 tap.2, ?_, ?_, ?_⟩
  · rw [prepare, kernelTaps_eq lays]
    rfl
  · rw [prepare, kernelTaps_eq lays]
    rfl
  · rw [List.map_flatMap]
    refine List.flatMap_congr fun tap mem => ?_
    obtain ⟨back, -, rfl⟩ := List.mem_map.mp mem
    simp only [tapAt, List.zipWith_map, List.zipWith_self, List.map_map]
    refine List.map_congr_left fun t mem => ?_
    have named := addressed t mem _ (tapPosition_le back t.2)
    have other : UInt32.ofNat (slotOf blockSize table t.1 (tapPosition back t.2)) ≠ convPad := by
      intro same
      have same := congrArg UInt32.toNat same
      rw [convPad, UInt32.toNat_ofNat_of_lt' (Nat.lt_of_lt_of_le named (Nat.sub_le _ _)),
        UInt32.toNat_ofNat_of_lt' (show 2 ^ 32 - 1 < UInt32.size by decide)] at same
      omega
    by_cases enough : back ≤ t.2
    · simp [tapMask, enough, other]
    · simp [tapMask, enough]

end Encodings

/-- However sequences are divided into steps and chunks, and wherever their blocks are in a cache of fewer slots than
there are numbers for them, their rows are those of the plain convolution, and both forms of the taps agree. -/
theorem short_conv_causal [LinearOrder S] [IsStrictOrderedRing S] [DecidableEq ι] (taps : conv.taps ≠ [])
    {numBlocks blockSize : Nat} (fits : numBlocks * blockSize < 2 ^ 32) {table : ι → List BlockId} {len : ι → Nat}
    {x : ι → Nat → H} (placed : Placement numBlocks blockSize table len x)
    {steps : List (List (Chunk ι) × ForwardBatch)} (lays : ∀ s ∈ steps, Lays s.2 blockSize table s.1)
    (follow : Follow len (fun _ => 0) (steps.flatMap Prod.fst)) {cells : List (Fin hidden → S)}
    (size : cells.length = numBlocks * blockSize) :
    (∃ after, conv.run blockSize x steps cells =
      .ok (steps.map fun s => (tokensOf s.1).map fun t => conv.plain (x t.1) (len t.1) t.2, after)) ∧
      ∀ s ∈ steps, SameTaps S hidden conv.taps.length s.2 blockSize := by
  refine ⟨conv.run_eq taps fits placed lays size (fun _ => Nat.zero_le _) (fun s p none => absurd none (Nat.not_lt_zero p))
    follow, fun s mem => sameTaps (lays s mem) (fun t token q before => ?_) hidden _⟩
  obtain ⟨c, chunk, token⟩ := List.mem_flatMap.mp token
  obtain ⟨p, at_, rfl⟩ := List.mem_map.mp token
  have last := follow.within (List.mem_flatMap.mpr ⟨s, mem, chunk⟩)
  have inside := (List.mem_range'_1.mp at_).2
  have := slotOf_lt placed.blocks placed.covers (show q < len c.seq from by
    have : q ≤ p := before
    omega)
  show slotOf blockSize table c.seq q < 2 ^ 32 - 1
  omega

section Example

/-- Two taps; the gated input of a number is itself. -/
def lastTwo : ShortConv ℚ ℚ 1 where
  bProj x _ := x
  cProj _ _ := 1
  xProj _ _ := 1
  outProj a := a 0
  taps := [fun _ => 3, fun _ => 1]
  bias := none

def twoInputs (s : Fin 2) (p : Nat) : ℚ := if s.val = 0 then p + 1 else p + 5

theorem twoTables_placed : Placement 3 2 twoTables twoLens twoInputs where
  blocks := by decide
  covers := by decide
  coherent := by
    have all : ∀ s t : Fin 2, ∀ p < twoLens s, ∀ q < twoLens t, slotOf 2 twoTables s p = slotOf 2 twoTables t q →
        twoInputs s p = twoInputs t q := by decide +kernel
    exact fun s p t q hp hq => all s t p hp q hq

theorem short_conv_causal_two : ∃ after,
    lastTwo.run 2 twoInputs twoSteps (List.replicate 6 fun _ => 0) = .ok ([[1, 5, 5], [21, 9]], after) := by
  obtain ⟨after, ran⟩ := (short_conv_causal lastTwo (List.cons_ne_nil _ _) (by decide) twoTables_placed twoSteps_lays
    twoSteps_follow (show (List.replicate 6 fun _ => 0).length = 3 * 2 from rfl)).1
  have rows : twoSteps.map (fun s => (tokensOf s.1).map fun t => lastTwo.plain (twoInputs t.1) (twoLens t.1) t.2) =
      [[1, 5, 5], [21, 9]] := by decide +kernel
  exact ⟨after, rows ▸ ran⟩

/-- A token in the last slot there is a number for. -/
def lastSlot : ForwardBatch where
  tokens := [7]
  positions := [0]
  cuSeqlensQ := [0, 1]
  cuSeqlensK := [0, 1]
  slotMapping := [convPad]
  blockTables := [[2 ^ 32 - 1]]

def noTaps : ShortConv ℚ ℚ 1 := { lastTwo with taps := [] }

/-- The sentinel is the number of a slot that a larger cache has, and a kernel of no taps has no rows. -/
theorem sentinel_named : (Placement (2 ^ 32) 1 (fun _ : Unit => [2 ^ 32 - 1]) (fun _ => 1) (fun _ _ => (0 : ℚ)) ∧
    Lays lastSlot 1 (fun _ : Unit => [2 ^ 32 - 1]) [⟨(), 0, 1⟩] ∧ Follow (fun _ => 1) (fun _ => 0) [⟨(), 0, 1⟩] ∧
      ¬SameTaps ℚ 1 1 lastSlot 1) ∧
    noTaps.run 2 twoInputs twoSteps (List.replicate 6 fun _ => 0) = .error "kernel >= 1" := by
  refine ⟨⟨⟨by decide, by decide, fun _ _ _ _ _ _ _ => rfl⟩, ⟨.inl (by decide), .inl (by decide), by decide, by decide,
    by decide, .cons ⟨by decide, by decide⟩ .nil⟩, ⟨rfl, by decide, trivial⟩, ?_⟩, by rfl⟩
  rintro ⟨taps, flat, masked, padded, same⟩
  have cpu : prepare ℚ 1 false 1 lastSlot 1 = .ok ⟨[convPad], [([convPad], [fun _ => 1])], none⟩ := rfl
  have cuda : prepare ℚ 1 true 1 lastSlot 1 = .ok ⟨[convPad], [], some [convPad]⟩ := rfl
  have masks := congrArg Lfm2Inputs.convTaps (Except.ok.inj (masked.symm.trans cpu))
  have slots := congrArg Lfm2Inputs.convIdx (Except.ok.inj (padded.symm.trans cuda))
  obtain ⟨tap, rfl, is⟩ := List.map_eq_singleton_iff.mp masks
  obtain rfl := Option.some.inj slots
  obtain ⟨names, ones⟩ := Prod.ext_iff.mp is
  obtain ⟨m, one, is_one⟩ := List.map_eq_singleton_iff.mp ones
  have is_one : m = 1 := congrFun is_one 0
  simp [show tap.1 = [convPad] from names, one, is_one] at same

end Example

end ShortConv

end Vapi.Backend
