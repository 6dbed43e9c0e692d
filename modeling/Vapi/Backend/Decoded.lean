import Vapi.Backend.Plain

/-!
# Decoding in batches

A step over caches that mirror texts gives each token the row of the plain
decoder for its text, and leaves caches that mirror the texts it was given for
the step's slots as well.
-/

namespace Vapi.Backend

open Vapi.Engine Vapi.Cache Slots

variable {ι S : Type} {hidden kvHeads dim vocab : Nat}

section Window

variable [Field S] [LinearOrder S] (m : Scalars S) (scale : S) {heads : Nat}

/-- A window of no tokens hides no more than one of one. -/
theorem masked_max (window : Option Nat) : masked (window.map (max 1)) = masked window := by
  funext p k
  cases window with
  | none => rfl
  | some w =>
    simp only [masked, Option.map_some, Option.any_some]
    congr 1
    rw [Bool.eq_iff_iff]
    simp only [Bool.and_eq_true, decide_eq_true_eq]
    omega

theorem attend_max (window : Option Nat) :
    (attend m scale (window.map (max 1)) : HeadVectors S heads dim → List (HeadVectors S heads dim) → _) =
      attend m scale window := by
  funext q k v p
  unfold attend
  rw [masked_max]

theorem pagedAttentionCpu_max (window : Option Nat) (numBlocks blockSize : Nat) (q : List (HeadVectors S heads dim))
    (kCache vCache : List (HeadVectors S kvHeads dim)) (b : ForwardBatch) :
    pagedAttentionCpu m scale (window.map (max 1)) numBlocks blockSize q kCache vCache b =
      pagedAttentionCpu m scale window numBlocks blockSize q kCache vCache b := by
  have each : attendSequence m scale (window.map (max 1)) numBlocks blockSize q kCache vCache b =
      attendSequence m scale window numBlocks blockSize q kCache vCache b := by
    funext nRep i
    unfold attendSequence attendQueries
    rw [attend_max]
  rw [pagedAttentionCpu, pagedAttentionCpu, each]

end Window

/-- A batch lays out chunks of texts; the caches are to mirror `texts`, and with what the step
puts in its slots they have every token's text and the beginnings of it. -/
structure Laying (batch : ForwardBatch) (numBlocks blockSize : Nat) (table : ι → List BlockId) (text : ι → List Token)
    (chunks : List (Chunk ι)) (texts : List (Option (List Token))) : Prop where
  lays : Lays batch blockSize table chunks
  blocks : ∀ s, ∀ block ∈ table s, block < numBlocks
  fits : numBlocks * blockSize < 2 ^ 32
  size : texts.length = numBlocks * blockSize
  inside : ∀ c ∈ chunks, c.start + c.q ≤ (text c.seq).length
  reads : ∀ c ∈ chunks, ∀ p, p < c.start + c.q →
    (setAll texts (writes (slotOf blockSize table) (fun s p => some (upTo text (s, p))) chunks))[slotOf blockSize table
      c.seq p]? = some (some (upTo text (c.seq, p)))

namespace Laying

variable {batch : ForwardBatch} {numBlocks blockSize : Nat} {table : ι → List BlockId} {text : ι → List Token}
  {chunks : List (Chunk ι)} {texts : List (Option (List Token))}

/-- What the keys of the slots are after the step. -/
abbrev after (blockSize : Nat) (table : ι → List BlockId) (text : ι → List Token) (chunks : List (Chunk ι))
    (texts : List (Option (List Token))) : List (Option (List Token)) :=
  setAll texts (writes (slotOf blockSize table) (fun s p => some (upTo text (s, p))) chunks)

variable (h : Laying batch numBlocks blockSize table text chunks texts)
include h

theorem token {t : ι × Nat} (mem : t ∈ tokensOf chunks) :
    t.2 < (text t.1).length ∧ ∃ c ∈ chunks, c.seq = t.1 ∧ t.2 < c.start + c.q := by
  obtain ⟨c, chunk, mem⟩ := List.mem_flatMap.mp mem
  obtain ⟨p, at_, rfl⟩ := List.mem_map.mp mem
  have before := (List.mem_range'_1.mp at_).2
  exact ⟨Nat.lt_of_lt_of_le before (h.inside c chunk), c, chunk, rfl, before⟩

theorem read {t : ι × Nat} (mem : t ∈ tokensOf chunks) {q : Nat} (le : q ≤ t.2) :
    (after blockSize table text chunks texts)[slotOf blockSize table t.1 q]? = some (some (upTo text (t.1, q))) := by
  obtain ⟨-, c, chunk, same, before⟩ := h.token mem
  rw [← same]
  exact h.reads c chunk q (Nat.lt_of_le_of_lt le before)

theorem slot_lt {t : ι × Nat} (mem : t ∈ tokensOf chunks) : slotOf blockSize table t.1 t.2 < numBlocks * blockSize := by
  have within := (List.getElem?_eq_some_iff.mp (h.read mem (Nat.le_refl t.2))).1
  rwa [setAll_length, h.size] at within

/-- A batch's tokens have numbers of 32 bits. -/
theorem few : (tokensOf chunks).length < 2 ^ 32 := by
  have count : (tokensOf chunks).length = (chunks.map Chunk.q).sum := by
    rw [tokensOf, List.length_flatMap]
    refine congrArg List.sum (List.map_congr_left fun c _ => ?_)
    rw [List.length_map, Chunk.positions, List.length_range']
  rw [count]
  rcases h.lays.queries with is | ⟨-, rfl⟩
  · have last := congrArg List.getLast? is
    rw [Ragged.offsets_getLast?, Nat.zero_add, List.getLast?_map] at last
    obtain ⟨n, -, is⟩ := Option.map_eq_some_iff.mp last
    exact is ▸ n.toNat_lt
  · exact Nat.two_pow_pos 32

omit h in
/-- The values of the texts are written where the texts are. -/
theorem writes_eq {V : Type} {value : List Token → V} {row : ι → Nat → V}
    (same : ∀ t ∈ tokensOf chunks, row t.1 t.2 = value (upTo text t)) :
    writes (slotOf blockSize table) row chunks =
      (writes (slotOf blockSize table) (fun s p => upTo text (s, p)) chunks).map fun w => (w.1, value w.2) := by
  rw [← writes_value]
  refine List.flatMap_congr fun c mem => List.map_congr_left fun p at_ => ?_
  rw [same (c.seq, p) (List.mem_flatMap.mpr ⟨c, mem, List.mem_map_of_mem at_⟩)]

variable (blockSize table chunks) in
omit h in
theorem mirrors_written {V : Type} {value : List Token → V} {cells : List V} (row : ι → Nat → V)
    (mirrors : Slots.Mirrors value cells texts) (same : ∀ t ∈ tokensOf chunks, row t.1 t.2 = value (upTo text t)) :
    Slots.Mirrors value (setAll cells (writes (slotOf blockSize table) row chunks))
      (after blockSize table text chunks texts) := by
  have put := mirrors.setAll (writes (slotOf blockSize table) (fun s p => upTo text (s, p)) chunks)
  rwa [← writes_eq same, ← writes_value] at put

theorem write_eq {V : Type} {value : List Token → V} {cells : List V} (row : ι → Nat → V)
    (mirrors : Slots.Mirrors value cells texts) (indexed : Bool) :
    (if indexed then writeRowsIndexed else writeRows) cells ((tokensOf chunks).map fun t =>
    row t.1 t.2) batch.slotMapping =
      .ok (setAll cells (writes (slotOf blockSize table) row chunks)) := by
  have size := mirrors.length.trans h.size
  cases indexed with
  | false =>
    exact writeRows_chunks row (size ▸ h.fits) h.lays fun t mem => size ▸ h.slot_lt mem
  | true =>
    have same : batch.slotMapping.length = (tokensOf chunks).length := by
      rw [← List.length_map (f := UInt32.toNat), h.lays.slots, List.length_map]
    have written : (batch.slotMapping.zip ((tokensOf chunks).map fun t => row t.1 t.2)).map (fun w =>
      (w.1.toNat, w.2)) =
        writes (slotOf blockSize table) row chunks := by
      rw [show (fun w : UInt32 × V => (w.1.toNat, w.2)) = Prod.map UInt32.toNat id from rfl, ← List.zip_map_left,
        h.lays.slots, List.zip_map']
      simp only [writes, tokensOf, List.map_flatMap, List.map_map]
      rfl
    rw [if_pos rfl, writeRowsIndexed, if_neg (by rw [List.length_map, same]; exact fun other => other rfl), ← written]
    refine scatterSet_eq fun w mem => ?_
    have mem := List.mem_map_of_mem (f := UInt32.toNat) (List.of_mem_zip mem).1
    rw [h.lays.slots] at mem
    obtain ⟨t, token, is⟩ := List.mem_map.mp mem
    exact is ▸ size ▸ h.slot_lt token

end Laying

section Experts

variable {E : Type} [Field S] [LinearOrder S] (act : Activations S) (run : E → HiddenRow S hidden → HiddenRow S hidden)

/-- A token's row of the routed experts is its own, in any batch of tokens that 32 bits number. -/
theorem MoeBlock.forward_each (b : MoeBlock S E hidden) (enough : b.topK ≤ b.router.length)
    {xs : List (HiddenRow S hidden)} (few : xs.length ≤ 2 ^ 32) :
    b.forward act run xs = .ok (xs.map (b.row act run)) := by
  obtain ⟨ys, ran, length, each⟩ := b.forward_rows act run enough xs
  rw [ran]
  refine congrArg Except.ok (List.ext_getElem (by rw [length, List.length_map]) fun r inside _ => ?_)
  obtain ⟨x, at_⟩ : ∃ x, xs[r]? = some x := ⟨_, List.getElem?_eq_getElem (length ▸ inside)⟩
  have here := each r x at_
  rw [List.getElem?_eq_getElem inside, Option.some.injEq] at here
  have own : ∀ token ∈ xs.zipIdx, ((entries act b token).map (contribution run b xs r)).sum =
      if token.2 = 0 + r then b.routed act run token.1 else 0 := fun token mem =>
    (Nat.zero_add r).symm ▸ entries_sum mem (Nat.lt_of_lt_of_le (List.mem_zipIdx' mem).1 few) r
  have routed : ((xs.zipIdx.flatMap (entries act b)).map (contribution run b xs r)).sum = b.routed act run x := by
    rw [List.map_flatMap, List.flatMap_def, List.sum_flatten, List.map_map, Function.comp_def, List.map_congr_left own,
      sum_zipIdx, at_]
    rfl
  rw [here, routed, List.getElem_map, (List.getElem?_eq_some_iff.mp at_).2]
  rfl

end Experts

section Layers

variable [Field S] [LinearOrder S] (f : Numerics S) {batch : ForwardBatch} {numBlocks blockSize : Nat}
  {table : ι → List BlockId} {text : ι → List Token} {chunks : List (Chunk ι)} {texts : List (Option (List Token))}
  {x : List Token → HiddenRow S hidden} {taps : Lfm2Inputs S hidden}

/-- The context of a step that lays out these chunks. -/
abbrev contextFor (batch : ForwardBatch) (numBlocks blockSize : Nat) (chunks : List (Chunk ι))
    (taps : Lfm2Inputs S hidden) :
    StepContext S hidden :=
  ⟨batch, numBlocks, blockSize, (tokensOf chunks).map Prod.snd, taps⟩

variable (taps) in
theorem Attention.forward_eq (h : Laying batch numBlocks blockSize table text chunks texts)
    (a : Attention S hidden kvHeads dim) {cache : KvLayer S kvHeads dim} (mirrors : a.Mirrors x cache texts) :
    ∃ cache', a.forward f (contextFor batch numBlocks blockSize chunks taps)
        ((tokensOf chunks).map fun t => x (upTo text t)) cache =
      .ok ((tokensOf chunks).map fun t => a.plain f x (upTo text t), cache') ∧
      a.Mirrors x cache' (Laying.after blockSize table text chunks texts) := by
  let row : ι → Nat → Projected S a.heads kvHeads dim := fun s p => a.project p (x (upTo text (s, p)))
  have own : ∀ t ∈ tokensOf chunks, row t.1 t.2 = a.project ((upTo text t).length - 1) (x (upTo text t)) := by
    intro t mem
    rw [upTo_length (h.token mem).1]
  have tokens : List.zipWith a.project ((tokensOf chunks).map Prod.snd) ((tokensOf chunks).map fun t =>
    x (upTo text t)) =
      (tokensOf chunks).map fun t => row t.1 t.2 := by
    rw [List.zipWith_map, List.zipWith_self]
  have keysOwn := fun t mem => congrArg Projected.k (own t mem)
  have valuesOwn := fun t mem => congrArg Projected.v (own t mem)
  have keys := Laying.mirrors_written blockSize table chunks (fun s p => (row s p).k) mirrors.1 keysOwn
  have values := Laying.mirrors_written blockSize table chunks (fun s p => (row s p).v) mirrors.2 valuesOwn
  refine ⟨(_, _), ?_, keys, values⟩
  -- every key and value a token attends to is that of a beginning of its text
  have held : ∀ c ∈ chunks, ∀ p, p < c.start + c.q →
      (setAll cache.1 (writes (slotOf blockSize table) (fun s p => (row s p).k) chunks))[slotOf blockSize table c.seq
        p]? =
          some (row c.seq p).k ∧
        (setAll cache.2 (writes (slotOf blockSize table) (fun s p => (row s p).v) chunks))[slotOf blockSize table c.seq
          p]? =
          some (row c.seq p).v := by
    intro c chunk p before
    have long : (upTo text (c.seq, p)).length - 1 = p := upTo_length (Nat.lt_of_lt_of_le before (h.inside c chunk))
    have key := keys.at_ (h.reads c chunk p before)
    have value := values.at_ (h.reads c chunk p before)
    rw [long] at key value
    exact ⟨key, value⟩
  have positive : ∀ w ∈ a.slidingWindow.map (max 1), 1 ≤ w := by simp
  have attends := pagedAttentionCpu_eq f.toScalars (1 / f.sqrt dim) a.grouped.1 a.grouped.2 positive
    (x := row) h.lays h.blocks (keys.length.trans ((setAll_length ..).trans h.size))
    (values.length.trans ((setAll_length ..).trans h.size)) held
  rw [pagedAttentionCpu_max] at attends
  have rows : List.zipWith a.output ((tokensOf chunks).map fun t => x (upTo text t))
      ((tokensOf chunks).map fun t => dense f.toScalars (1 / f.sqrt dim) (a.slidingWindow.map (max 1)) a.grouped.2
        (row t.1) t.2) = (tokensOf chunks).map fun t => a.plain f x (upTo text t) := by
    rw [List.zipWith_map, List.zipWith_self]
    refine List.map_congr_left fun t mem => ?_
    rw [Attention.plain, upTo_length (h.token mem).1]
    refine congrArg (a.output _) (dense_congr _ _ _ _ fun k le => ?_)
    rw [upTo_take le]
  rw [Attention.forward]
  simp only [tokens, List.map_map, Function.comp_def]
  have keysWritten := h.write_eq (fun s p => (row s p).k) mirrors.1 a.indexed
  have valuesWritten := h.write_eq (fun s p => (row s p).v) mirrors.2 a.indexed
  rw [keysWritten, ok_bind, valuesWritten, ok_bind, attends, ok_bind, rows]
  rfl

theorem Operator.forward_eq (h : Laying batch numBlocks blockSize table text chunks texts)
    (operator : Operator S hidden kvHeads dim) {cache : LayerBuffers S hidden kvHeads dim}
    (mirrors : operator.Mirrors x cache texts) {kernel : Nat}
    (prepared : prepare S hidden false kernel batch blockSize = .ok taps)
    (kernels : ∀ conv, operator = .conv conv → conv.taps.length = kernel ∧ conv.taps ≠ []) :
    ∃ cache', operator.forward f (contextFor batch numBlocks blockSize chunks taps)
        ((tokensOf chunks).map fun t => x (upTo text t)) cache =
      .ok ((tokensOf chunks).map fun t => operator.plain f x (upTo text t), cache') ∧
      operator.Mirrors x cache' (Laying.after blockSize table text chunks texts) := by
  match operator, cache, mirrors with
  | .attention a, .kv layer, mirrors =>
    obtain ⟨layer', answered, mirrors⟩ := a.forward_eq f taps h mirrors
    refine ⟨.kv layer', ?_, mirrors⟩
    rw [Operator.forward, answered]
    rfl
  | .conv c, .rows cells, mirrors =>
    obtain ⟨rfl, some_⟩ := kernels c rfl
    have size : cells.length = numBlocks * blockSize := mirrors.length.trans h.size
    have written := Laying.mirrors_written blockSize table chunks (fun s p => c.gated (x (upTo text (s, p)))) mirrors
      fun t _ => rfl
    let len (s : ι) : Nat := (text s).length
    have inside : ∀ t ∈ tokensOf chunks, slotOf blockSize table t.1 t.2 < cells.length ∧ t.2 < len t.1 :=
      fun t mem => ⟨size ▸ h.slot_lt mem, (h.token mem).1⟩
    have step : c.step ((tokensOf chunks).map fun t => x (upTo text t)) batch blockSize cells =
        .ok ((tokensOf chunks).map fun t => c.plain (fun q => x (upTo text (t.1, q))) (text t.1).length t.2,
          setAll cells (c.written blockSize table (fun s p => x (upTo text (s, p))) chunks)) :=
      c.forward_eq some_ (size ▸ h.fits) h.lays inside fun t mem q le => written.at_ (h.read mem le)
    rw [ShortConv.step, prepared, ok_bind] at step
    refine ⟨.rows _, ?_, written⟩
    rw [Operator.forward, step]
    refine congrArg (fun y => Except.ok (y, _)) (List.map_congr_left fun t mem => ?_)
    rw [Operator.plain, upTo_length (h.token mem).1]
    refine c.plain_congr (h.token mem).1 ?_ fun q le => ?_
    · rw [upTo, List.length_take]
      exact Nat.lt_min.mpr ⟨Nat.lt_succ_self _, (h.token mem).1⟩
    · rw [upTo_take le]

theorem FeedForward.forward_eq (ff : FeedForward S hidden) {rows : List (HiddenRow S hidden)}
    (few : rows.length ≤ 2 ^ 32) :
    ff.forward f rows = .ok (rows.map (ff.plain f)) := by
  cases ff with
  | dense mlp => rfl
  | sparse moe enough => exact moe.forward_each f.act (Expert.forward f.act) enough few

theorem Block.forward_eq (h : Laying batch numBlocks blockSize table text chunks texts) (b : Block S hidden kvHeads dim)
    {cache : LayerBuffers S hidden kvHeads dim}
    (mirrors : b.operator.Mirrors (fun text => b.operatorNorm (x text)) cache texts)
    {kernel : Nat} (prepared : prepare S hidden false kernel batch blockSize = .ok taps)
    (kernels : ∀ conv, b.operator = .conv conv → conv.taps.length = kernel ∧ conv.taps ≠ []) :
    ∃ cache', b.forward f (contextFor batch numBlocks blockSize chunks taps)
        ((tokensOf chunks).map fun t => x (upTo text t)) cache =
      .ok ((tokensOf chunks).map fun t => b.plain f x (upTo text t), cache') ∧
      b.operator.Mirrors (fun text => b.operatorNorm (x text)) cache'
      (Laying.after blockSize table text chunks texts) := by
  obtain ⟨cache', answered, mirrors⟩ := b.operator.forward_eq f h mirrors prepared kernels
  refine ⟨cache', ?_, mirrors⟩
  have few := Nat.le_of_lt h.few
  rw [Block.forward, List.map_map]
  simp only [Function.comp_def]
  rw [answered, ok_bind]
  simp only [List.zipWith_map, List.zipWith_self, List.map_map]
  rw [b.feedForward.forward_eq f (by rwa [List.length_map]), ok_bind, List.map_map, List.zipWith_map, List.zipWith_self]
  rfl

theorem forwardBlocks_eq (h : Laying batch numBlocks blockSize table text chunks texts) {kernel : Nat}
    (prepared : prepare S hidden false kernel batch blockSize = .ok taps) {blocks : List (Block S hidden kvHeads dim)}
    (kernels : ∀ b ∈ blocks, ∀ conv, b.operator = .conv conv → conv.taps.length = kernel ∧ conv.taps ≠ [])
    {caches : List (LayerBuffers S hidden kvHeads dim)} (mirrors : BlocksMirror f blocks x caches texts) :
    ∃ caches', forwardBlocks f (contextFor batch numBlocks blockSize chunks taps) blocks
        ((tokensOf chunks).map fun t => x (upTo text t)) caches =
      .ok ((tokensOf chunks).map fun t => plainBlocks f blocks x (upTo text t), caches') ∧
      BlocksMirror f blocks x caches' (Laying.after blockSize table text chunks texts) := by
  induction blocks generalizing x caches with
  | nil =>
    match caches, mirrors with
    | [], mirrors => exact ⟨[], rfl, mirrors⟩
  | cons b blocks ih =>
    match caches, mirrors with
    | cache :: caches, ⟨first, later⟩ =>
      obtain ⟨cache', answered, first⟩ := b.forward_eq f h first prepared (kernels b List.mem_cons_self)
      obtain ⟨caches', rest, later⟩ := ih (fun b' mem => kernels b' (List.mem_cons_of_mem b mem)) later
      refine ⟨cache' :: caches', ?_, first, later⟩
      rw [forwardBlocks, answered, ok_bind]
      dsimp only
      rw [rest]
      rfl

end Layers

section Decoder

variable [Field S] [LinearOrder S] (f : Numerics S) (d : Decoder S hidden kvHeads dim vocab) {batch : ForwardBatch}
  {numBlocks blockSize : Nat} {table : ι → List BlockId} {text : ι → List Token} {chunks : List (Chunk ι)}
  {asked : List (ι × Nat)} {texts : List (Option (List Token))} {caches : List (LayerBuffers S hidden kvHeads dim)}

/-- The batch's tokens are those of the texts, all of which the model can embed, and it asks for the logits of some. -/
structure Decoder.Feeds (batch : ForwardBatch) (text : ι → List Token) (chunks : List (Chunk ι))
    (asked : List (ι × Nat)) :
    Prop where
  tokens : batch.tokens.map some = (tokensOf chunks).map fun t => (text t.1)[t.2]?
  vocabulary : ∀ t ∈ tokensOf chunks, ∀ token ∈ text t.1, token.toNat < d.embed.length
  short : ∀ t ∈ tokensOf chunks, (text t.1).length ≤ d.maxPositions
  logits : batch.logitsIndices.map (fun i => (tokensOf chunks)[i.toNat]?) = asked.map some

/-- What a step answers with. -/
def Decoder.answers (text : ι → List Token) (asked : List (ι × Nat)) : Option (List (Fin vocab → S)) :=
  if asked = [] then none else some (asked.map fun t => d.plain f (upTo text t))

omit [Field S] [LinearOrder S] in
variable {d} in
theorem Decoder.Feeds.token (feeds : d.Feeds batch text chunks asked)
    (inside : ∀ t ∈ tokensOf chunks, t.2 < (text t.1).length) :
    batch.tokens = (tokensOf chunks).map fun t => (text t.1).getD t.2 0 := by
  refine (List.map_injective_iff.mpr (Option.some_injective _)) ?_
  rw [feeds.tokens, List.map_map]
  refine List.map_congr_left fun t mem => ?_
  rw [Function.comp_apply, List.getD_eq_getElem?_getD, List.getElem?_eq_getElem (inside t mem), Option.getD_some]

/-- The rows asked for. -/
theorem gather_asked {α : Type} {tokens : List (ι × Nat)} {index : List UInt32}
    (known : index.map (fun i => tokens[i.toNat]?) = asked.map some) (row : ι × Nat → α) :
    gather (tokens.map row) (index.map UInt32.toNat) = .ok (asked.map row) := by
  rw [gather, List.mapM_map]
  refine mapM_forall₂ (List.forall₂_iff_get.mpr ⟨?_, fun i inside within => ?_⟩)
  · simpa using congrArg List.length known
  · have here := congrArg (·[i]?) known
    simp only [List.getElem?_map, List.getElem?_eq_getElem inside, List.getElem?_eq_getElem within, Option.map_some,
      Option.some.injEq] at here
    rw [List.get_eq_getElem, List.get_eq_getElem, Function.comp_apply, List.getElem?_map, here]
    rfl

/-- A step over caches that mirror texts is answered as by the plain decoder, and leaves caches that do. -/
theorem Decoder.forward_eq (h : Laying batch numBlocks blockSize table text chunks texts)
    (feeds : d.Feeds batch text chunks asked) (mirrors : d.Mirrors f caches texts) :
    ∃ caches', d.forward f numBlocks blockSize batch caches = .ok (d.answers f text asked, caches') ∧
      d.Mirrors f caches' (Laying.after blockSize table text chunks texts) := by
  have inside : ∀ t ∈ tokensOf chunks, t.2 < (text t.1).length := fun t mem => (h.token mem).1
  obtain ⟨taps, prepared⟩ : ∃ taps, prepare S hidden false d.convKernel batch blockSize = .ok taps := by
    rw [prepare, kernelTaps_eq h.lays]
    exact ⟨_, rfl⟩
  have positions : batch.positions.mapM d.position = .ok ((tokensOf chunks).map Prod.snd) := by
    rw [← h.lays.positions]
    refine mapM_ok fun p mem => if_pos ?_
    have mem := List.mem_map_of_mem (f := UInt32.toNat) mem
    rw [h.lays.positions] at mem
    obtain ⟨t, token, is⟩ := List.mem_map.mp mem
    exact is ▸ Nat.lt_of_lt_of_le (inside t token) (feeds.short t token)
  have embedded : gather d.embed (batch.tokens.map UInt32.toNat) =
      .ok ((tokensOf chunks).map fun t => d.embedding (upTo text t)) := by
    have known : ∀ t ∈ tokensOf chunks, ((text t.1).getD t.2 0).toNat < d.embed.length := by
      intro t mem
      rw [List.getD_eq_getElem?_getD, List.getElem?_eq_getElem (inside t mem), Option.getD_some]
      exact feeds.vocabulary t mem _ (List.getElem_mem _)
    rw [feeds.token inside, List.map_map, MoeBlock.gather_eq, List.map_map]
    · refine congrArg Except.ok (List.map_congr_left fun t mem => ?_)
      have within := inside t mem
      have last : (text t.1).getD t.2 0 = (text t.1)[t.2] := (List.getElem_eq_getD _).symm
      rw [Decoder.embedding, upTo_getLast? (inside t mem), Function.comp_apply, Function.comp_apply, last,
        List.getElem?_eq_getElem (inside t mem)]
      rfl
    · intro i mem
      obtain ⟨t, token, rfl⟩ := List.mem_map.mp mem
      exact known t token
  obtain ⟨caches', answered, mirrors⟩ := forwardBlocks_eq f h prepared d.kernels mirrors
  refine ⟨caches', ?_, mirrors⟩
  rw [Decoder.forward, prepared, ok_bind, positions, ok_bind, embedded, ok_bind, answered, ok_bind, Decoder.answers]
  dsimp only
  have none_ : batch.logitsIndices = [] ↔ asked = [] := by
    have same := congrArg List.length feeds.logits
    rw [List.length_map, List.length_map] at same
    rw [← List.length_eq_zero_iff, ← List.length_eq_zero_iff, same]
  by_cases some_ : asked = []
  · rw [if_pos (none_.mpr some_), if_pos some_]
    rfl
  · rw [if_neg (fun none => some_ (none_.mp none)), if_neg some_, List.map_map, gather_asked feeds.logits]
    show Except.ok _ = _
    rw [List.map_map]
    rfl

end Decoder

end Vapi.Backend
