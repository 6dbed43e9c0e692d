import Vapi.Backend.PagedAttention
import Mathlib.Algebra.BigOperators.Field
import Mathlib.Algebra.Order.Ring.Rat
import Mathlib.Data.Finset.Filter

/-!
# Dense attention

Whatever the steps and chunks are, and wherever the blocks are, each token's
row is that of causal attention over its sequence's own keys and values.
-/

namespace Vapi.Backend

open Vapi.Engine Vapi.Cache Slots

variable {ι S : Type} {heads kvHeads dim : Nat}

/-- The key head of a query head, where the groups are of one size. -/
def keyHead (divides : kvHeads ∣ heads) (head : Fin heads) : Fin kvHeads :=
  ⟨head / (heads / kvHeads), Nat.div_lt_of_lt_mul (by rw [Nat.div_mul_cancel divides]; exact head.isLt)⟩

/-- The keys that a query sees: up to its own, and those nearer than the window. -/
def seen (window : Option Nat) (p : Nat) : Finset Nat := (Finset.range (p + 1)).filter fun k => window.all (p - k < ·)

theorem sum_range [AddCommMonoid S] (f : Nat → S) (n : Nat) : ((List.range n).map f).sum = ∑ k ∈ Finset.range n, f k := by
  rw [Finset.sum, Finset.range_val, Multiset.range, Multiset.map_coe, Multiset.sum_coe]

theorem mapIdx_range {α β : Type} (f : Nat → α) (g : Nat → α → β) (n : Nat) :
    ((List.range n).map f).mapIdx g = (List.range n).map fun k => g k (f k) := by
  refine List.ext_getElem (by simp) fun k _ _ => ?_
  simp

section Dense

variable [Field S] [LinearOrder S] (m : Scalars S) (scale : S) (window : Option Nat)

/-- Causal attention over a sequence laid out densely. -/
def dense (divides : kvHeads ∣ heads) (x : Nat → Projected S heads kvHeads dim) (p : Nat) : HeadVectors S heads dim :=
  fun head c =>
    let weight k := m.exp ((∑ e, (x p).q head e * (x k).k (keyHead divides head) e) * scale)
    (∑ k ∈ seen window p, weight k * (x k).v (keyHead divides head) c) / ∑ k ∈ seen window p, weight k

variable {window}

theorem masked_iff (positive : ∀ w ∈ window, 1 ≤ w) {p k : Nat} :
    masked window p k = false ↔ k ≤ p ∧ window.all (p - k < ·) = true := by
  cases window with
  | none => simp [masked]
  | some w =>
    have := positive w rfl
    simp only [masked, Option.any_some, Option.all_some, Bool.or_eq_false_iff, Bool.and_eq_false_iff,
      decide_eq_false_iff_not, decide_eq_true_eq]
    omega

/-- Keys past the query's own are masked, so how many there are is no matter. -/
theorem seen_eq (positive : ∀ w ∈ window, 1 ≤ w) {p n : Nat} (within : p < n) :
    (Finset.range n).filter (fun k => masked window p k = false) = seen window p := by
  ext k
  rw [seen, Finset.mem_filter, Finset.mem_filter, Finset.mem_range, Finset.mem_range, masked_iff positive, Nat.lt_succ_iff]
  exact ⟨fun ⟨_, le, near⟩ => ⟨le, near⟩, fun ⟨le, near⟩ => ⟨Nat.lt_of_le_of_lt le within, le, near⟩⟩

theorem attend_eq (positive : ∀ w ∈ window, 1 ≤ w) {p n : Nat} (within : p < n) (q : HeadVectors S heads dim)
    (k v : Nat → HeadVectors S heads dim) (head : Fin heads) (c : Fin dim) :
    attend m scale window q ((List.range n).map k) ((List.range n).map v) p head c =
      (∑ j ∈ seen window p, m.exp ((∑ e, q head e * k j head e) * scale) * v j head c) /
        ∑ j ∈ seen window p, m.exp ((∑ e, q head e * k j head e) * scale) := by
  let weight j := if masked window p j then 0 else m.exp ((∑ e, q head e * k j head e) * scale)
  have kept : ∀ f : Nat → S, ∑ j ∈ Finset.range n, weight j * f j =
      ∑ j ∈ seen window p, m.exp ((∑ e, q head e * k j head e) * scale) * f j := by
    intro f
    rw [← seen_eq positive within, Finset.sum_filter]
    refine Finset.sum_congr rfl fun j _ => ?_
    cases hides : masked window p j <;> simp [weight, hides]
  have total := kept fun _ => 1
  simp only [mul_one] at total
  have weights : softmax m (((List.range n).map k).mapIdx fun j kj =>
      if masked window p j then none else some ((∑ e, q head e * kj head e) * scale)) =
        (List.range n).map fun j => weight j / ∑ j ∈ Finset.range n, weight j := by
    have scores : (((List.range n).map k).mapIdx fun j kj =>
        if masked window p j then none else some ((∑ e, q head e * kj head e) * scale)).map
          (fun score => score.elim 0 m.exp) = (List.range n).map weight := by
      rw [mapIdx_range, List.map_map]
      refine List.map_congr_left fun j _ => ?_
      cases hides : masked window p j <;> simp [weight, hides]
    rw [softmax, scores, sum_range, List.map_map]
    rfl
  rw [attend, weights, List.zipWith_map, List.zipWith_self, sum_range, ← kept, ← total, Finset.sum_div]
  exact Finset.sum_congr rfl fun j _ => div_mul_eq_mul_div _ _ _

theorem subUsize_eq {a b : Nat} (le : b ≤ a) (bound : a < 2 ^ 64) : subUsize a b = a - b := by
  rw [subUsize]
  omega

theorem usize_eq {a b j : Nat} (bound : a + b < 2 ^ 64) (le : j < b) : (subUsize (a + b) b + j) % 2 ^ 64 = a + j := by
  rw [subUsize_eq (Nat.le_add_left b a) bound, Nat.add_sub_cancel, Nat.mod_eq_of_lt (by omega)]

theorem narrow_eq {α : Type} {rows part : List α} {start len : Nat} (size : part.length = len)
    (within : start + len ≤ rows.length) (found : ∀ j, j < len → rows[start + j]? = part[j]?) :
    narrow rows start len = .ok part := by
  subst size
  rw [narrow, if_pos within]
  refine congrArg Except.ok (List.ext_getElem? fun j => ?_)
  rcases Nat.lt_or_ge j part.length with inside | past
  · rw [List.getElem?_take_of_lt inside, List.getElem?_drop, found j inside]
  · rw [List.getElem?_eq_none (by rw [List.length_take]; omega), List.getElem?_eq_none past]

variable {chunks : List (Chunk ι)}

theorem positions_getElem {α : Type} {c : Chunk ι} (f : Nat → α) {j : Nat} (inside : j < (c.positions.map f).length) :
    (c.positions.map f)[j] = f (c.start + j) := by
  simp [Chunk.positions]

/-- The rows of a chunk's tokens. -/
theorem narrow_chunk {α : Type} {i : Nat} {c : Chunk ι} (here : chunks[i]? = some c) (some_ : 0 < c.q) (f : ι × Nat → α) :
    narrow ((tokensOf chunks).map f) (offset chunks i) c.q = .ok (c.positions.map fun p => f (c.seq, p)) := by
  have last := (List.getElem?_eq_some_iff.mp (tokensOf_at here (Nat.sub_lt some_ Nat.one_pos))).1
  refine narrow_eq (by simp [Chunk.positions]) (by rw [List.length_map]; omega) fun j inside => ?_
  rw [List.getElem?_map, tokensOf_at here inside, List.getElem?_map, Chunk.positions, List.getElem?_range' inside]
  simp

variable {b : ForwardBatch} {numBlocks blockSize : Nat} {table : ι → List BlockId}
  {len : ι → Nat} {x : ι → Nat → Projected S heads kvHeads dim} {kCache vCache : List (HeadVectors S kvHeads dim)}

theorem attendSequence_eq (divides : kvHeads ∣ heads) (positive : ∀ w ∈ window, 1 ≤ w)
    (lays : Lays b blockSize table chunks) {i : Nat} {c : Chunk ι} (here : chunks[i]? = some c)
    (blocks : ∀ s, ∀ block ∈ table s, block < numBlocks)
    (keys : kCache.length = numBlocks * blockSize) (values : vCache.length = numBlocks * blockSize)
    (holds : ∀ p, p < c.start + c.q → kCache[slotOf blockSize table c.seq p]? = some (x c.seq p).k ∧
      vCache[slotOf blockSize table c.seq p]? = some (x c.seq p).v) :
    attendSequence m scale window numBlocks blockSize ((tokensOf chunks).map fun t => (x t.1 t.2).q) kCache vCache b
        (heads / kvHeads) i =
      .ok (c.positions.map fun p => dense m scale window divides (x c.seq) p) := by
  obtain ⟨q0, q1, q0_at, q1_at, is_q0, is_q1⟩ := lays.queries_at here
  obtain ⟨k0, k1, k0_at, k1_at, is_k1⟩ := lays.keys_at here
  obtain ⟨blocksOf, table_at, first, covers⟩ := lays.table_at here
  have most := k1.toNat_lt
  have most' := q1.toNat_lt
  have lenQ : subUsize q1.toNat q0.toNat = c.q := by
    rw [subUsize_eq (by omega) (by omega), is_q1, Nat.add_sub_cancel_left]
  have lenK : (k1 - k0).toNat = c.start + c.q := by
    rw [UInt32.toNat_sub_of_le _ _ (UInt32.le_iff_toNat_le.mpr (by omega)), is_k1, Nat.add_sub_cancel_left]
  have within : ∀ block ∈ blocksOf, block < numBlocks := fun block mem => blocks c.seq block (first.subset mem)
  have at_ : ∀ p, p < c.start + c.q → blocksOf.getD (p / blockSize) 0 * blockSize + p % blockSize =
      slotOf blockSize table c.seq p := by
    intro p inside
    rw [slotOf, List.getD_eq_getElem?_getD, block_at first (Nat.lt_of_lt_of_le inside covers), Option.getD_some]
  have ks := gatherKv_eq keys within covers fun p inside => (at_ p inside).symm ▸ (holds p inside).1
  have vs := gatherKv_eq values within covers fun p inside => (at_ p inside).symm ▸ (holds p inside).2
  have same : heads = kvHeads * (heads / kvHeads) := (Nat.mul_div_cancel' divides).symm
  rw [attendSequence, entry_eq q0_at, ok_bind, entry_eq q1_at, ok_bind, entry_eq k1_at, ok_bind, entry_eq k0_at, ok_bind,
    lenQ, lenK, attendQueries]
  rcases Nat.eq_zero_or_pos c.q with none | some_
  · rw [if_pos none, Chunk.positions, none]
    rfl
  rw [if_neg (Nat.ne_of_gt some_)]
  simp only [bind, Except.bind, entry_eq table_at, is_q0, narrow_chunk here some_ fun t => (x t.1 t.2).q, ks, vs, dif_pos same,
    List.map_map]
  refine congrArg Except.ok (List.ext_getElem (by simp) fun j hj _ => ?_)
  have inside : j < c.q := by simpa [Chunk.positions] using hj
  have p_eq := usize_eq (a := c.start) (b := c.q) (j := j) (by omega) inside
  rw [List.getElem_mapIdx, positions_getElem, positions_getElem, p_eq]
  funext head d
  rw [attend_eq m scale positive (show c.start + j < c.start + c.q by omega)]
  rfl

theorem pagedAttentionCpu_eq (some_ : 0 < kvHeads) (divides : kvHeads ∣ heads) (positive : ∀ w ∈ window, 1 ≤ w)
    (lays : Lays b blockSize table chunks) (blocks : ∀ s, ∀ block ∈ table s, block < numBlocks)
    (keys : kCache.length = numBlocks * blockSize) (values : vCache.length = numBlocks * blockSize)
    (holds : ∀ c ∈ chunks, ∀ p, p < c.start + c.q → kCache[slotOf blockSize table c.seq p]? = some (x c.seq p).k ∧
      vCache[slotOf blockSize table c.seq p]? = some (x c.seq p).v) :
    pagedAttentionCpu m scale window numBlocks blockSize ((tokensOf chunks).map fun t => (x t.1 t.2).q) kCache vCache b =
      .ok ((tokensOf chunks).map fun t => dense m scale window divides (x t.1) t.2) := by
  have each : (List.range b.batchSize).mapM (attendSequence m scale window numBlocks blockSize
      ((tokensOf chunks).map fun t => (x t.1 t.2).q) kCache vCache b (heads / kvHeads)) =
        .ok (chunks.map fun c => c.positions.map fun p => dense m scale window divides (x c.seq) p) := by
    refine mapM_forall₂ (List.forall₂_iff_get.mpr ⟨by rw [List.length_range, lays.batchSize], fun i hi hc => ?_⟩)
    have here : chunks[i]? = some (chunks.get ⟨i, hc⟩) := List.getElem?_eq_getElem hc
    rw [List.get_eq_getElem, List.getElem_range]
    exact attendSequence_eq m scale divides positive lays here blocks keys values (holds _ (List.get_mem _ _))
  rw [pagedAttentionCpu, if_neg (Nat.ne_of_gt some_)]
  show (List.range b.batchSize).mapM _ >>= _ = _
  rw [each, ok_bind]
  refine congrArg Except.ok ?_
  rw [← List.flatMap_def, tokensOf, List.map_flatMap]
  simp only [List.map_map]
  rfl

section Run

variable [DecidableEq ι] {done : ι → Nat} {cache : KvLayer S kvHeads dim}

omit [Field S] [LinearOrder S] [DecidableEq ι] in
theorem writeRows_chunks {V : Type} {cells : List V} (row : ι → Nat → V) (fits : cells.length < 2 ^ 32)
    (lays : Lays b blockSize table chunks) (inside : ∀ t ∈ tokensOf chunks, slotOf blockSize table t.1 t.2 < cells.length) :
    writeRows cells ((tokensOf chunks).map fun t => row t.1 t.2) b.slotMapping =
      .ok (setAll cells (writes (slotOf blockSize table) row chunks)) := by
  have same : b.slotMapping.length = (tokensOf chunks).length := by
    rw [← List.length_map (f := UInt32.toNat), lays.slots, List.length_map]
  have written : (b.slotMapping.map UInt32.toNat).zip ((tokensOf chunks).map fun t => row t.1 t.2) =
      writes (slotOf blockSize table) row chunks := by
    rw [lays.slots, List.zip_map']
    simp only [writes, tokensOf, List.map_flatMap, List.map_map]
    rfl
  have within : ∀ slot ∈ b.slotMapping, slot.toNat < cells.length := by
    intro slot mem
    have mem := List.mem_map_of_mem (f := UInt32.toNat) mem
    rw [lays.slots] at mem
    obtain ⟨t, token, is⟩ := List.mem_map.mp mem
    exact is ▸ inside t token
  rw [writeRows_eq (fun slot mem => Nat.lt_of_le_of_lt (within slot mem) fits) (by rw [List.length_map, same]) within,
    written]

/-- The keys and the values of the sequences are in their slots, as far as the sequences are. -/
structure KvHolds (numBlocks blockSize : Nat) (table : ι → List BlockId) (x : ι → Nat → Projected S heads kvHeads dim)
    (done : ι → Nat) (cache : KvLayer S kvHeads dim) : Prop where
  sizes : cache.1.length = numBlocks * blockSize ∧ cache.2.length = numBlocks * blockSize
  keys : Holds (slotOf blockSize table) (fun s p => (x s p).k) cache.1 done
  values : Holds (slotOf blockSize table) (fun s p => (x s p).v) cache.2 done

/-- A step writes its tokens' keys and values, and answers with the rows of dense attention. -/
theorem attentionStep_eq (some_ : 0 < kvHeads) (divides : kvHeads ∣ heads) (positive : ∀ w ∈ window, 1 ≤ w)
    (fits : numBlocks * blockSize < 2 ^ 32) (placed : Placement numBlocks blockSize table len fun s p => ((x s p).k, (x s p).v))
    (lays : Lays b blockSize table chunks) (le : ∀ s, done s ≤ len s) (follow : Follow len done chunks)
    (holds : KvHolds numBlocks blockSize table x done cache) : ∃ cache',
      attentionStep m scale window numBlocks blockSize ((tokensOf chunks).map fun t => x t.1 t.2) b cache =
        .ok ((tokensOf chunks).map fun t => dense m scale window divides (x t.1) t.2, cache') ∧
      KvHolds numBlocks blockSize table x (advance done chunks) cache' := by
  obtain ⟨⟨keysSize, valuesSize⟩, keys, values⟩ := holds
  have inside : ∀ s p, p < len s → slotOf blockSize table s p < numBlocks * blockSize :=
    fun s p within => slotOf_lt placed.blocks placed.covers within
  have tokens : ∀ t ∈ tokensOf chunks, slotOf blockSize table t.1 t.2 < numBlocks * blockSize := by
    intro t mem
    obtain ⟨c, chunk, mem⟩ := List.mem_flatMap.mp mem
    obtain ⟨p, at_, rfl⟩ := List.mem_map.mp mem
    exact inside c.seq p (Nat.lt_of_lt_of_le (List.mem_range'_1.mp at_).2 (follow.within chunk))
  have coherent : ∀ {V : Type} (f : HeadVectors S kvHeads dim × HeadVectors S kvHeads dim → V),
      Coherent (slotOf blockSize table) (fun s p => f ((x s p).k, (x s p).v)) len :=
    fun f s p t q hp hq same => congrArg f (placed.coherent s p t q hp hq same)
  have keysNext := keys.step (coherent Prod.fst) (fun s p within => keysSize ▸ inside s p within) le follow
  have valuesNext := values.step (coherent Prod.snd) (fun s p within => valuesSize ▸ inside s p within) le follow
  have keysWritten := writeRows_chunks (fun s p => (x s p).k) (keysSize ▸ fits) lays (keysSize ▸ tokens)
  have valuesWritten := writeRows_chunks (fun s p => (x s p).v) (valuesSize ▸ fits) lays (valuesSize ▸ tokens)
  have sizes := setAll_length cache.1 (writes (slotOf blockSize table) (fun s p => (x s p).k) chunks)
  have sizes' := setAll_length cache.2 (writes (slotOf blockSize table) (fun s p => (x s p).v) chunks)
  refine ⟨(_, _), ?_, ⟨sizes.trans keysSize, sizes'.trans valuesSize⟩, keysNext, valuesNext⟩
  have attends := pagedAttentionCpu_eq m scale some_ divides positive lays placed.blocks (sizes.trans keysSize)
    (sizes'.trans valuesSize) fun c mem p before =>
      ⟨keysNext c.seq p (Nat.lt_of_lt_of_le before (follow.end_le mem)),
        valuesNext c.seq p (Nat.lt_of_lt_of_le before (follow.end_le mem))⟩
  rw [attentionStep, List.map_map, List.map_map, List.map_map]
  show writeRows _ ((tokensOf chunks).map fun t => (x t.1 t.2).k) _ >>= _ = _
  rw [keysWritten, ok_bind]
  show writeRows _ ((tokensOf chunks).map fun t => (x t.1 t.2).v) _ >>= _ = _
  rw [valuesWritten, ok_bind]
  show pagedAttentionCpu _ _ _ _ _ ((tokensOf chunks).map fun t => (x t.1 t.2).q) _ _ _ >>= _ = _
  rw [attends, ok_bind]
  rfl

theorem attentionRun_eq (some_ : 0 < kvHeads) (divides : kvHeads ∣ heads) (positive : ∀ w ∈ window, 1 ≤ w)
    (fits : numBlocks * blockSize < 2 ^ 32) (placed : Placement numBlocks blockSize table len fun s p => ((x s p).k, (x s p).v))
    {steps : List (List (Chunk ι) × ForwardBatch)} (lays : ∀ s ∈ steps, Lays s.2 blockSize table s.1)
    (le : ∀ s, done s ≤ len s) (follow : Follow len done (steps.flatMap Prod.fst))
    (holds : KvHolds numBlocks blockSize table x done cache) : ∃ cache',
      attentionRun m scale window numBlocks blockSize x steps cache =
        .ok (steps.map fun s => (tokensOf s.1).map fun t => dense m scale window divides (x t.1) t.2, cache') := by
  induction steps generalizing cache done with
  | nil => exact ⟨cache, rfl⟩
  | cons s rest ih =>
    rw [List.flatMap_cons, follow_append] at follow
    obtain ⟨next, now, holds⟩ := attentionStep_eq m scale some_ divides positive fits placed (lays s List.mem_cons_self) le
      follow.1 holds
    obtain ⟨cache', later⟩ := ih (fun s' mem => lays s' (List.mem_cons_of_mem s mem)) (follow.1.advance_le le) follow.2 holds
    refine ⟨cache', ?_⟩
    rw [attentionRun, now, ok_bind, later, ok_bind]
    rfl

/-- However sequences are divided into steps and chunks, and wherever their blocks are in a cache of fewer slots than
there are numbers for them, their rows are those of dense attention. -/
theorem paged_attention_dense (some_ : 0 < kvHeads) (divides : kvHeads ∣ heads) (positive : ∀ w ∈ window, 1 ≤ w)
    (fits : numBlocks * blockSize < 2 ^ 32) (placed : Placement numBlocks blockSize table len fun s p => ((x s p).k, (x s p).v))
    {steps : List (List (Chunk ι) × ForwardBatch)} (lays : ∀ s ∈ steps, Lays s.2 blockSize table s.1)
    (follow : Follow len (fun _ => 0) (steps.flatMap Prod.fst)) (cache : KvLayer S kvHeads dim)
    (sizes : cache.1.length = numBlocks * blockSize ∧ cache.2.length = numBlocks * blockSize) : ∃ cache',
      attentionRun m scale window numBlocks blockSize x steps cache =
        .ok (steps.map fun s => (tokensOf s.1).map fun t => dense m scale window divides (x t.1) t.2, cache') :=
  attentionRun_eq m scale some_ divides positive fits placed lays (fun _ => Nat.zero_le _) follow
    ⟨sizes, fun _ p none => absurd none (Nat.not_lt_zero p), fun _ p none => absurd none (Nat.not_lt_zero p)⟩

end Run

section Example

def squareExp : Scalars ℚ := ⟨fun x => 1 + x * x, id, fun x => add_pos_of_pos_of_nonneg one_pos (mul_self_nonneg x)⟩

def both (first second : ℚ) : HeadVectors ℚ 2 1 := fun head _ => if head.val = 0 then first else second

/-- Two query heads that share a key head. -/
def twoProjected (s : Fin 2) (p : Nat) : Projected ℚ 2 1 1 where
  q := both 1 0
  k _ _ := p
  v _ _ := if s.val = 0 then p + 1 else p + 5

theorem twoProjected_placed :
    Placement 3 2 twoTables twoLens fun s p => ((twoProjected s p).k, (twoProjected s p).v) where
  blocks := by decide
  covers := by decide
  coherent := by
    have all : ∀ s t : Fin 2, ∀ p < twoLens s, ∀ q < twoLens t, slotOf 2 twoTables s p = slotOf 2 twoTables t q →
        s = t ∧ p = q := by decide +kernel
    intro s p t q hp hq same
    obtain ⟨rfl, rfl⟩ := all s t p hp q hq same
    rfl

theorem paged_attention_dense_two : ∃ cache', attentionRun squareExp 1 (some 2) 3 2 twoProjected twoSteps
    (List.replicate 6 fun _ _ => 0, List.replicate 6 fun _ _ => 0) =
      .ok ([[both 1 1, both (5 / 3) (3 / 2), both 5 5], [both (17 / 3) (11 / 2), both (19 / 7) (5 / 2)]], cache') := by
  obtain ⟨cache', ran⟩ := paged_attention_dense squareExp 1 Nat.one_pos (one_dvd 2) (show ∀ w ∈ some 2, 1 ≤ w by decide)
    (by decide) twoProjected_placed twoSteps_lays twoSteps_follow
    (List.replicate 6 fun _ _ => 0, List.replicate 6 fun _ _ => 0) ⟨rfl, rfl⟩
  have rows : (twoSteps.map fun s => (tokensOf s.1).map fun t =>
      dense squareExp 1 (some 2) (one_dvd 2) (twoProjected t.1) t.2) =
        [[both 1 1, both (5 / 3) (3 / 2), both 5 5], [both (17 / 3) (11 / 2), both (19 / 7) (5 / 2)]] := by decide +kernel
  exact ⟨cache', rows ▸ ran⟩

/-- Two tokens in the last slot there is a number for and in the first. -/
def aroundBatch : ForwardBatch where
  tokens := [7, 7]
  positions := [0, 1]
  cuSeqlensQ := [0, 2]
  cuSeqlensK := [0, 2]
  slotMapping := [UInt32.ofNat (2 ^ 32 - 1), 0]
  blockTables := [[2 ^ 32 - 1, 0]]

theorem around_placed : Placement (2 ^ 32) 1 (fun _ : Unit => [2 ^ 32 - 1, 0]) (fun _ => 2)
    (fun _ _ => ((fun _ _ => 0, fun _ _ => 0) : HeadVectors ℚ 1 1 × HeadVectors ℚ 1 1)) :=
  ⟨by decide, by decide, fun _ _ _ _ _ _ _ => rfl⟩

theorem around_lays : Lays aroundBatch 1 (fun _ : Unit => [2 ^ 32 - 1, 0]) [⟨(), 0, 2⟩] :=
  ⟨.inl (by decide), .inl (by decide), by decide, by decide, by decide, .cons ⟨by decide, by decide⟩ .nil⟩

/-- In a larger cache the slots are taken for a run, and without key heads there is no group. -/
theorem run_around : (Placement (2 ^ 32) 1 (fun _ : Unit => [2 ^ 32 - 1, 0]) (fun _ => 2)
      (fun _ _ => ((fun _ _ => 0, fun _ _ => 0) : HeadVectors ℚ 1 1 × HeadVectors ℚ 1 1)) ∧
    Lays aroundBatch 1 (fun _ : Unit => [2 ^ 32 - 1, 0]) [⟨(), 0, 2⟩] ∧ Follow (fun _ => 2) (fun _ => 0) [⟨(), 0, 2⟩] ∧
    ∀ cache : KvLayer ℚ 1 1, cache.1.length = 2 ^ 32 → cache.2.length = 2 ^ 32 →
      attentionRun squareExp 1 none (2 ^ 32) 1 (fun _ _ => (⟨fun _ _ => 0, fun _ _ => 0, fun _ _ => 0⟩ : Projected ℚ 1 1 1))
        [([⟨(), 0, 2⟩], aroundBatch)] cache = .error "slice-set out of range") ∧
    attentionRun squareExp 1 none 3 2 (fun _ _ => (⟨fun _ _ => 0, fun _ _ => 0, fun _ _ => 0⟩ : Projected ℚ 0 0 1)) twoSteps
      (List.replicate 6 fun _ _ => 0, List.replicate 6 fun _ _ => 0) = .error "attempt to divide by zero" := by
  refine ⟨⟨around_placed, around_lays, ⟨rfl, by decide, trivial⟩, fun cache keys _ => ?_⟩, by rfl⟩
  have most : (aroundBatch.slotMapping.map UInt32.toNat).max? = some (2 ^ 32 - 1) := by decide
  have one : runs 2 0 aroundBatch.slotMapping = [(0, 2)] := by decide
  have refused : writeRows cache.1 [fun _ _ => 0, fun _ _ => 0] aroundBatch.slotMapping =
      .error "slice-set out of range" := by
    have out : sliceSet cache.1 [fun _ _ => (0 : ℚ), fun _ _ => 0] (2 ^ 32 - 1) = .error "slice-set out of range" :=
      if_neg (by rw [keys]; decide)
    rw [writeRows, if_neg (fun other => other rfl), most]
    dsimp only
    rw [if_neg (by rw [keys]; decide), List.length_cons, List.length_singleton, one, if_pos (by decide), List.foldlM_cons]
    exact congrArg (· >>= _) out
  rw [attentionRun, attentionStep]
  show (do
    let now ← writeRows cache.1 [fun _ _ => 0, fun _ _ => 0] aroundBatch.slotMapping >>= _
    _) = _
  rw [refused]
  rfl

end Example

end Dense

end Vapi.Backend
