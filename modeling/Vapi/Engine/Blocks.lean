import Vapi.Cache.PoolSpec
import Vapi.Engine.Scheduler

/-!
# How the scheduler takes blocks

The scheduler takes blocks in three ways: fresh ones in a loop, cached ones by
their hashes, and shared ones by reference. Each has one specification.
-/

namespace Vapi.Engine

open Vapi.Cache

variable {H : Type} [DecidableEq H] {B : Blake3 H}

/-- The blocks `bs` were taken from the free list, one after another. -/
structure Takes (p q : BlockPool H) (bs : List BlockId) : Prop where
  shape : SameShape p q
  wf : Wf q
  isBlock : ∀ b ∈ bs, b < p.numBlocks
  unused : ∀ b ∈ bs, p.refcount b = 0
  nodup : bs.Nodup
  refcount : ∀ b, q.refcount b = p.refcount b + bs.count b
  byHash : ∀ h x, q.byHash h = some x ↔ p.byHash h = some x ∧ x ∉ bs
  numFree : q.numFree + bs.length = p.numFree

omit [DecidableEq H] in
theorem Takes.refl {p : BlockPool H} (w : Wf p) : Takes p p [] :=
  ⟨.refl p, w, by simp, by simp, List.nodup_nil, by simp, by simp, by simp⟩

omit [DecidableEq H] in
theorem Takes.cons {p q r : BlockPool H} {b : BlockId} {bs : List BlockId} (h : Allocates p q b)
    (t : Takes q r bs) : Takes p r (b :: bs) := by
  have hb : b ∉ bs := by
    intro hb
    have := t.unused b hb
    rw [h.refcount, Function.update_self] at this
    omega
  have other : ∀ x ∈ bs, p.refcount x = 0 := by
    intro x hx
    have := t.unused x hx
    rwa [h.refcount, Function.update_of_ne (ne_of_mem_of_not_mem hx hb)] at this
  refine ⟨h.shape.trans t.shape, t.wf, ?_, ?_, List.nodup_cons.mpr ⟨hb, t.nodup⟩, ?_, ?_, ?_⟩
  · intro x hx
    rcases List.mem_cons.mp hx with rfl | hx
    · exact h.isBlock
    · exact h.shape.numBlocks ▸ t.isBlock x hx
  · intro x hx
    rcases List.mem_cons.mp hx with rfl | hx
    · exact h.unused
    · exact other x hx
  · intro x
    rw [t.refcount, h.refcount, Function.update_apply, List.count_cons]
    by_cases e : x = b
    · subst e; simp [h.unused, List.count_eq_zero_of_not_mem hb]
    · simp [e, Ne.symm e]
  · intro k x
    rw [t.byHash, h.byHash, List.mem_cons, not_or, and_assoc]
  · have := h.numFree
    have := t.numFree
    simp only [List.length_cons]
    omega

section TakeBlocks

variable {take : BlockPool H → Except AllocError (BlockPool H × BlockId)} {n : Nat}
  {p q : BlockPool H} {bs : List BlockId} {failed : Option AllocError}

omit [DecidableEq H] in
theorem takeBlocks_spec (allocates : ∀ p q b, Wf p → take p = .ok (q, b) → Allocates p q b)
    (w : Wf p) (e : takeBlocks take n p = (q, bs, failed)) :
    Takes p q bs ∧ (failed = none → bs.length = n) ∧
    (∀ err, failed = some err → take q = .error err ∧ bs.length < n) := by
  induction n generalizing p bs with
  | zero =>
    simp only [takeBlocks, Prod.mk.injEq] at e
    obtain ⟨rfl, rfl, rfl⟩ := e
    exact ⟨.refl w, fun _ => rfl, by simp⟩
  | succ n ih =>
    unfold takeBlocks at e
    cases ht : take p with
    | error err =>
      simp only [ht, Prod.mk.injEq] at e
      obtain ⟨rfl, rfl, rfl⟩ := e
      exact ⟨.refl w, by simp, by simp [ht]⟩
    | ok r =>
      obtain ⟨r, b⟩ := r
      simp only [ht, Prod.mk.injEq] at e
      obtain ⟨rfl, rfl, rfl⟩ := e
      have first := allocates p r b w ht
      obtain ⟨rest, full, short⟩ := ih first.wf rfl
      refine ⟨rest.cons first, fun h => by simp [full h], fun err h => ?_⟩
      obtain ⟨failed, lt⟩ := short err h
      exact ⟨failed, by simpa using lt⟩

theorem allocate_allocates (p q : BlockPool H) (b : BlockId) (w : Wf p) (e : p.allocate = .ok (q, b)) :
    Allocates p q b := by
  rcases allocate_spec w with ⟨-, err⟩ | ⟨q', b', ok, spec⟩
  · simp [err] at e
  · obtain ⟨rfl, rfl⟩ : q' = q ∧ b' = b := by simpa [ok] using e
    exact spec

theorem allocateGuarded_allocates (p q : BlockPool H) (b : BlockId) (w : Wf p)
    (e : p.allocateGuarded = .ok (q, b)) : Allocates p q b := by
  rcases allocateGuarded_spec w with ⟨-, err⟩ | ⟨q', b', ok, -, spec⟩
  · simp [err] at e
  · obtain ⟨rfl, rfl⟩ : q' = q ∧ b' = b := by simpa [ok] using e
    exact spec

theorem takeBlocks_takes (w : Wf p) (e : takeBlocks BlockPool.allocate n p = (q, bs, failed)) :
    Takes p q bs := (takeBlocks_spec allocate_allocates w e).1

theorem takeBlocks_length (w : Wf p) (e : takeBlocks BlockPool.allocate n p = (q, bs, none)) :
    bs.length = n := (takeBlocks_spec allocate_allocates w e).2.1 rfl

/-- Allocation fails only once the pool is empty. -/
theorem takeBlocks_short {err : AllocError} (w : Wf p)
    (e : takeBlocks BlockPool.allocate n p = (q, bs, some err)) : p.numFree < n := by
  obtain ⟨takes, -, short⟩ := takeBlocks_spec allocate_allocates w e
  obtain ⟨refused, lt⟩ := short err rfl
  have free := takes.numFree
  rcases allocate_spec takes.wf with ⟨none, -⟩ | ⟨q', b, ok, -⟩
  · omega
  · simp [ok] at refused

/-- Enough free blocks are enough. -/
theorem takeBlocks_enough (w : Wf p) (enough : n ≤ p.numFree) :
    ∃ q bs, takeBlocks BlockPool.allocate n p = (q, bs, none) := by
  cases e : takeBlocks BlockPool.allocate n p with
  | mk q r =>
    obtain ⟨bs, failed⟩ := r
    cases failed with
    | none => exact ⟨q, bs, rfl⟩
    | some err => have := takeBlocks_short w e; omega

end TakeBlocks

/-- What a cached prefix is: blocks the index names for the sequence's own
hashes, each with a reference taken. -/
structure CachedPrefix (p q : BlockPool H) (hashes : List H) (matched : List BlockId) : Prop where
  counts : Recounts p q (fun b => p.refcount b + matched.count b)
  named : ∀ (i : Nat) (b : BlockId), matched[i]? = some b →
    ∃ h : H, hashes[i]? = some h ∧ p.byHash h = some b

omit [DecidableEq H] in
/-- Giving blocks back keeps a prefix of them and releases the rest. -/
theorem giveBack_spec (target bs : Nat) {l : List BlockId} {c : Nat} {p : BlockPool H} (w : Wf p)
    (held : ∀ b, l.count b ≤ p.refcount b) :
    ∃ q kept dropped left, Scheduler.giveBack target bs l c p = (q, kept, left) ∧
      l.reverse = kept ++ dropped ∧ Recounts p q (fun b => p.refcount b - dropped.count b) ∧
      (c = l.length * bs → left = kept.length * bs ∧ (kept = [] ∨ left < target)) := by
  induction l generalizing p c with
  | nil =>
    exact ⟨p, [], [], c, rfl, rfl, ⟨.refl p, w, by simp, rfl⟩, fun e => ⟨by simpa using e, .inl rfl⟩⟩
  | cons last rest ih =>
    unfold Scheduler.giveBack
    by_cases covered : target ≤ c
    · rw [if_pos covered]
      have hl := held last
      rw [List.count_cons_self] at hl
      have first := free_spec w (b := last) (by omega)
      have held' : ∀ b, rest.count b ≤ (p.free last).refcount b := by
        intro b
        have hb := held b
        rw [List.count_cons] at hb
        rw [first.refcount, Function.update_apply]
        by_cases e : b = last
        · subst e; simp at hb ⊢; omega
        · simp only [e, if_false]; omega
      obtain ⟨q, kept, dropped, left, eq, split, counts, exact_⟩ :=
        ih (c := c - bs) first.wf held'
      refine ⟨q, kept, dropped ++ [last], left, eq, by simp [split],
        ⟨first.shape.trans counts.shape, counts.wf, ?_, counts.byHash.trans first.byHash⟩, ?_⟩
      · refine counts.refcount.trans (funext fun b => ?_)
        rw [first.refcount, Function.update_apply, List.count_append, List.count_singleton]
        by_cases e : b = last
        · subst e; simp; omega
        · simp [e, Ne.symm e]
      · intro e
        exact exact_ (by rw [e, List.length_cons, Nat.succ_mul, Nat.add_sub_cancel])
    · rw [if_neg covered]
      refine ⟨p, (last :: rest).reverse, [], c, rfl, by simp, ⟨.refl p, w, by simp, rfl⟩, ?_⟩
      exact fun e => ⟨by simpa using e, .inr (by omega)⟩

omit [DecidableEq H] in
theorem matchCached_spec {s : Scheduler B} {ns : CacheNamespace B} {seq : Sequence}
    {q : BlockPool H} {matched : List BlockId} {cached : Nat} (w : Wf s.pool)
    (e : s.matchCached ns seq = (q, matched, cached)) :
    CachedPrefix s.pool q (hashBlockChain ns (seq.tokens.take seq.prefillTarget) s.cfg.blockSize)
      matched ∧
    (s.pool.blockSize = s.cfg.blockSize →
      cached = matched.length * s.cfg.blockSize ∧ (matched = [] ∨ cached < seq.prefillTarget)) := by
  unfold Scheduler.matchCached at e
  by_cases on : s.cfg.prefixCache
  · rw [if_pos on] at e
    obtain ⟨found, tokens⟩ := matchPrefix_spec w
      (hashBlockChain ns (seq.tokens.take seq.prefillTarget) s.cfg.blockSize)
    rcases hr : s.pool.matchPrefix
      (hashBlockChain ns (seq.tokens.take seq.prefillTarget) s.cfg.blockSize) with ⟨pool, blocks, total⟩
    simp only [hr] at e found tokens
    have held : ∀ b, blocks.reverse.count b ≤ pool.refcount b := by
      intro b
      simp only [found.counts.refcount, List.count_reverse]
      omega
    obtain ⟨q', kept, dropped, left, eq, split, counts, exact_⟩ :=
      giveBack_spec seq.prefillTarget s.cfg.blockSize (c := total) found.counts.wf held
    obtain ⟨rfl, rfl, rfl⟩ : q' = q ∧ kept = matched ∧ left = cached := by simpa [eq] using e
    rw [List.reverse_reverse] at split
    refine ⟨⟨⟨found.counts.shape.trans counts.shape, counts.wf, ?_,
      counts.byHash.trans found.counts.byHash⟩, ?_⟩, ?_⟩
    · refine counts.refcount.trans (funext fun b => ?_)
      simp only [found.counts.refcount, split, List.count_append]
      omega
    · intro i b hb
      refine found.named i b ?_
      rw [split, List.getElem?_append_left (List.getElem?_eq_some_iff.mp hb).1]
      exact hb
    · intro size
      exact exact_ (by rw [tokens, size, List.length_reverse])
  · rw [if_neg on] at e
    obtain ⟨rfl, rfl, rfl⟩ : s.pool = q ∧ [] = matched ∧ 0 = cached := by simpa using e
    exact ⟨⟨⟨.refl _, w, by simp, rfl⟩, by simp⟩, fun _ => ⟨by simp, .inl rfl⟩⟩

omit [DecidableEq H] in
/-- A cached prefix is no longer than the hashes. -/
theorem CachedPrefix.length_le {p q : BlockPool H} {hashes : List H} {matched : List BlockId}
    (c : CachedPrefix p q hashes matched) : matched.length ≤ hashes.length := by
  by_contra h
  obtain ⟨b, hb⟩ : ∃ b, matched[hashes.length]? = some b :=
    ⟨_, List.getElem?_eq_getElem (by omega)⟩
  obtain ⟨k, hk, -⟩ := c.named _ b hb
  simp at hk

section Sharing

variable {p q : BlockPool H} {src : Scheduler.ForkSource} {bs : Nat}

/-- The pool once a fork's full blocks are referenced for one more child. -/
def sharedPool (src : Scheduler.ForkSource) (bs : Nat) (p : BlockPool H) : BlockPool H :=
  (src.blocks.take (src.computed / bs)).foldl BlockPool.incref p

omit [DecidableEq H] in
theorem sharedPool_spec (src : Scheduler.ForkSource) (bs : Nat) (w : Wf p) (held : ∀ b ∈ src.blocks, 0 < p.refcount b) :
    Recounts p (sharedPool src bs p)
      (fun b => p.refcount b + (src.blocks.take (src.computed / bs)).count b) :=
  increfAll_spec w fun b hb => held b (List.mem_of_mem_take hb)

/-- A child's blocks are the shared ones and, where the source has an open
block, a fresh one, to be copied into when the open block has content. -/
theorem childBlocks_ok {blocks : List BlockId} {copy : Option (BlockId × BlockId)} (w : Wf p)
    (held : ∀ b ∈ src.blocks, 0 < p.refcount b)
    (e : Scheduler.childBlocks src bs p = (q, .ok (blocks, copy))) :
    ∃ own, blocks = src.blocks.take (src.computed / bs) ++ own ∧ Takes (sharedPool src bs p) q own ∧
      (own = [] ∧ src.blocks[src.computed / bs]? = none ∧ copy = none ∨
       ∃ openBlock x, own = [x] ∧ src.blocks[src.computed / bs]? = some openBlock ∧
        1 + p.watermark ≤ (sharedPool src bs p).numFree ∧
        copy = if src.computed % bs ≠ 0 then some (openBlock, x) else none) := by
  have shared := sharedPool_spec src bs w held
  unfold Scheduler.childBlocks at e
  cases ho : src.blocks[src.computed / bs]? with
  | none =>
    simp only [ho, Prod.mk.injEq, Except.ok.injEq] at e
    obtain ⟨rfl, rfl, rfl⟩ := e
    exact ⟨[], by simp, .refl shared.wf, .inl ⟨rfl, rfl, rfl⟩⟩
  | some openBlock =>
    simp only [ho] at e
    rcases allocateGuarded_spec shared.wf with ⟨-, err⟩ | ⟨q', x, ok, room, spec⟩
    · unfold sharedPool at err
      simp [err] at e
    · unfold sharedPool at ok
      simp only [ok, Prod.mk.injEq, Except.ok.injEq] at e
      obtain ⟨rfl, rfl, rfl⟩ := e
      rw [shared.shape.watermark] at room
      exact ⟨[x], rfl, .cons spec (.refl spec.wf), .inr ⟨openBlock, x, rfl, rfl, room, rfl⟩⟩

/-- A child is refused its open block only below the reserve, and keeps the
references it has taken. -/
theorem childBlocks_error {err : AllocError} (w : Wf p) (held : ∀ b ∈ src.blocks, 0 < p.refcount b)
    (e : Scheduler.childBlocks src bs p = (q, .error err)) :
    q = sharedPool src bs p ∧ (src.blocks[src.computed / bs]?).isSome ∧
      q.numFree < 1 + q.watermark := by
  have shared := sharedPool_spec src bs w held
  unfold Scheduler.childBlocks at e
  cases ho : src.blocks[src.computed / bs]? with
  | none => simp [ho] at e
  | some openBlock =>
    simp only [ho] at e
    rcases allocateGuarded_spec shared.wf with ⟨tight, err'⟩ | ⟨q', x, ok, -, -⟩
    · unfold sharedPool at err' tight
      simp only [err', Prod.mk.injEq] at e
      obtain ⟨rfl, -⟩ := e
      exact ⟨rfl, rfl, tight⟩
    · unfold sharedPool at ok
      simp [ok] at e

end Sharing

section Publishing

variable {p q : BlockPool H} {blocks : List BlockId}

/-- What publishing some of a sequence's blocks does to the counts: each swap
it asks for has taken a reference to the canonical block. -/
structure PublishedAll (blocks : List BlockId) (p q : BlockPool H) (items : List (Nat × H))
    (swaps : List (Nat × BlockId × BlockId)) : Prop where
  shape : SameShape p q
  wf : Wf q
  refcount : ∀ b, q.refcount b = p.refcount b + (swaps.map fun x => x.2.2).count b
  here : ∀ x ∈ swaps, blocks[x.1]? = some x.2.1 ∧ x.2.1 ≠ x.2.2
  indices : (swaps.map Prod.fst).Sublist (items.map Prod.fst)
  byHash : ∀ k b, q.byHash k = some b → p.byHash k = some b ∨ ∃ i, (i, k) ∈ items ∧ blocks[i]? = some b
  canonical : ∀ x ∈ swaps, ∃ k, (x.1, k) ∈ items ∧
    (p.byHash k = some x.2.2 ∨ ∃ i, (i, k) ∈ items ∧ blocks[i]? = some x.2.2)

theorem publishBlocks_spec {items : List (Nat × H)} {swaps : List (Nat × BlockId × BlockId)}
    (w : Wf p) (valid : ∀ b ∈ blocks, b < p.numBlocks)
    (e : Scheduler.publishBlocks blocks items p = (q, swaps)) :
    PublishedAll blocks p q items swaps := by
  induction items generalizing p swaps with
  | nil =>
    obtain ⟨rfl, rfl⟩ := Prod.mk.inj e
    exact ⟨.refl p, w, by simp, by simp, by simp, fun k b h => .inl h, by simp⟩
  | cons item items ih =>
    obtain ⟨i, hash⟩ := item
    unfold Scheduler.publishBlocks at e
    cases hb : blocks[i]? with
    | none =>
      simp only [hb] at e
      have rest := ih w valid e
      have later : ∀ {k : H} {b : BlockId}, (p.byHash k = some b ∨ ∃ j, (j, k) ∈ items ∧ blocks[j]? = some b) →
          p.byHash k = some b ∨ ∃ j, (j, k) ∈ (i, hash) :: items ∧ blocks[j]? = some b :=
        Or.imp_right fun ⟨j, hj, here⟩ => ⟨j, List.mem_cons_of_mem _ hj, here⟩
      exact ⟨rest.shape, rest.wf, rest.refcount, rest.here, rest.indices.trans (by simp),
        fun k b h => later (rest.byHash k b h), fun x hx =>
          let ⟨k, hk, named⟩ := rest.canonical x hx
          ⟨k, List.mem_cons_of_mem _ hk, later named⟩⟩
    | some block =>
      simp only [hb] at e
      have spec := publish_spec w hash (valid block (List.mem_of_getElem? hb))
      rcases hr : Scheduler.publishBlocks blocks items (p.publish block hash).1 with ⟨r, more⟩
      simp only [hr, Prod.mk.injEq] at e
      obtain ⟨rfl, rfl⟩ := e
      have rest := ih spec.wf (fun b h => spec.shape.numBlocks ▸ valid b h) hr
      -- what the index names after this publish it named before, or it is this block
      have first : ∀ k b, (p.publish block hash).1.byHash k = some b →
          p.byHash k = some b ∨ ∃ j, (j, k) ∈ (i, hash) :: items ∧ blocks[j]? = some b := by
        intro k b h
        by_cases ek : k = hash
        · subst ek
          obtain rfl := Option.some.inj (spec.named.symm.trans h)
          by_cases same : (p.publish block k).2 = block
          · exact .inr ⟨i, by simp, same.symm ▸ hb⟩
          · exact .inl (spec.adopted same)
        · exact .inl ((spec.other k b ek).mp h).1
      have later : ∀ k b, ((p.publish block hash).1.byHash k = some b ∨
          ∃ j, (j, k) ∈ items ∧ blocks[j]? = some b) →
          p.byHash k = some b ∨ ∃ j, (j, k) ∈ (i, hash) :: items ∧ blocks[j]? = some b := by
        rintro k b (h | ⟨j, hj, here⟩)
        · exact first k b h
        · exact .inr ⟨j, List.mem_cons_of_mem _ hj, here⟩
      have canonical : ∀ x ∈ more, ∃ k, (x.1, k) ∈ (i, hash) :: items ∧ (p.byHash k = some x.2.2 ∨
          ∃ j, (j, k) ∈ (i, hash) :: items ∧ blocks[j]? = some x.2.2) := by
        intro x hx
        obtain ⟨k, hk, named⟩ := rest.canonical x hx
        exact ⟨k, List.mem_cons_of_mem _ hk, later k _ named⟩
      by_cases same : (p.publish block hash).2 = block
      · simp only [same, ne_eq, not_true_eq_false, if_false]
        refine ⟨spec.shape.trans rest.shape, rest.wf, fun b => ?_, rest.here,
          rest.indices.trans (by simp), fun k b h => later k b (rest.byHash k b h), canonical⟩
        rw [rest.refcount, spec.refcount, if_pos same]
      · simp only [ne_eq, same, not_false_eq_true, if_true]
        refine ⟨spec.shape.trans rest.shape, rest.wf, fun b => ?_, ?_, rest.indices.cons_cons i,
          fun k b h => later k b (rest.byHash k b h), ?_⟩
        · rw [rest.refcount, spec.refcount, if_neg same, List.map_cons, List.count_cons,
            Function.update_apply]
          by_cases eb : b = (p.publish block hash).2
          · simp [eb]; omega
          · simp [eb, Ne.symm eb]
        · intro x hx
          rcases List.mem_cons.mp hx with rfl | hx
          · exact ⟨hb, Ne.symm same⟩
          · exact rest.here x hx
        · intro x hx
          rcases List.mem_cons.mp hx with rfl | hx
          · exact ⟨hash, by simp, .inl (spec.adopted same)⟩
          · exact canonical x hx

omit [DecidableEq H] in
/-- Swapping in the canonical blocks trades one reference for another. -/
theorem swapBlocks_spec {swaps : List (Nat × BlockId × BlockId)} {blocks' : List BlockId} (w : Wf p)
    (nodup : (swaps.map Prod.fst).Nodup) (here : ∀ x ∈ swaps, blocks[x.1]? = some x.2.1)
    (held : ∀ b, blocks.count b + (swaps.map fun x => x.2.2).count b ≤ p.refcount b)
    (e : Scheduler.swapBlocks swaps (blocks, p) = (blocks', q)) :
    SameShape p q ∧ Wf q ∧ q.byHash = p.byHash ∧
    ∀ b, q.refcount b + blocks.count b + (swaps.map fun x => x.2.2).count b =
      p.refcount b + blocks'.count b := by
  induction swaps generalizing blocks p with
  | nil =>
    obtain ⟨rfl, rfl⟩ := Prod.mk.inj e
    exact ⟨.refl p, w, rfl, by simp⟩
  | cons swap swaps ih =>
    obtain ⟨i, old, canonical⟩ := swap
    obtain ⟨fresh, nodup⟩ := List.nodup_cons.mp nodup
    have hi := here (i, old, canonical) (by simp)
    obtain ⟨lt, get⟩ := List.getElem?_eq_some_iff.mp hi
    have mem : 0 < blocks.count old := List.count_pos_iff.mpr (List.mem_of_getElem? hi)
    have free := free_spec w (b := old) (by have := held old; omega)
    have set_count : ∀ b, (blocks.set i canonical).count b + (if old = b then 1 else 0) =
        blocks.count b + (if canonical = b then 1 else 0) := by
      intro b
      rw [List.count_set lt]
      simp only [beq_iff_eq]
      change blocks[i] = old at get
      rw [get]
      by_cases eo : old = b
      · subst eo; simp; omega
      · simp [eo]
    have here' : ∀ x ∈ swaps, (blocks.set i canonical)[x.1]? = some x.2.1 := by
      intro x hx
      have ne : i ≠ x.1 := fun eq => fresh (List.mem_map.mpr ⟨x, hx, eq.symm⟩)
      rw [List.getElem?_set_ne ne]
      exact here x (by simp [hx])
    have refcount : ∀ b, (p.free old).refcount b + (if old = b then 1 else 0) = p.refcount b := by
      intro b
      rw [free.refcount, Function.update_apply]
      by_cases eo : b = old
      · subst eo
        have := held b
        simp; omega
      · simp [eo, Ne.symm eo]
    have held' : ∀ b, (blocks.set i canonical).count b + (swaps.map fun x => x.2.2).count b ≤
        (p.free old).refcount b := by
      intro b
      have h₁ := held b
      have h₂ := set_count b
      have h₃ := refcount b
      rw [List.map_cons, List.count_cons] at h₁
      simp only [beq_iff_eq] at h₁
      omega
    obtain ⟨shape, wf, byHash, counts⟩ := ih free.wf nodup here' held' e
    refine ⟨free.shape.trans shape, wf, byHash.trans free.byHash, fun b => ?_⟩
    have h₁ := counts b
    have h₂ := set_count b
    have h₃ := refcount b
    rw [List.map_cons, List.count_cons]
    simp only [beq_iff_eq]
    omega

omit [DecidableEq H] in
/-- Swapping touches no block but those swapped out, and no place but theirs. -/
theorem swapBlocks_other {swaps : List (Nat × BlockId × BlockId)} {blocks' : List BlockId}
    (e : Scheduler.swapBlocks swaps (blocks, p) = (blocks', q)) :
    (∀ b, (∀ x ∈ swaps, x.2.1 ≠ b) → q.refcount b = p.refcount b) ∧
    (∀ i, i ∉ swaps.map Prod.fst → blocks'[i]? = blocks[i]?) ∧
    (∀ (i : Nat) (b : BlockId), blocks'[i]? = some b → blocks[i]? = some b ∨ ∃ x ∈ swaps, x.1 = i ∧ x.2.2 = b) := by
  induction swaps generalizing blocks p with
  | nil =>
    obtain ⟨rfl, rfl⟩ := Prod.mk.inj e
    exact ⟨fun _ _ => rfl, fun _ _ => rfl, fun _ _ h => .inl h⟩
  | cons swap swaps ih =>
    obtain ⟨i, old, canonical⟩ := swap
    obtain ⟨counts, same, place⟩ := ih e
    refine ⟨fun b out => ?_, fun j out => ?_, fun j b h => ?_⟩
    · rw [counts b fun x hx => out x (by simp [hx])]
      exact free_refcount_of_ne p (out (i, old, canonical) (by simp)).symm
    · rw [List.map_cons, List.mem_cons, not_or] at out
      rw [same j out.2, List.getElem?_set_ne (Ne.symm out.1)]
    · rcases place j b h with here | ⟨x, hx, rest⟩
      · by_cases e : i = j
        · subst e
          rw [List.getElem?_set_self'] at here
          obtain ⟨_, -, rfl⟩ := Option.map_eq_some_iff.mp here
          exact .inr ⟨(i, old, canonical), by simp, rfl, rfl⟩
        · exact .inl (by rwa [List.getElem?_set_ne e] at here)
      · exact .inr ⟨x, by simp [hx], rest⟩

end Publishing

end Vapi.Engine
