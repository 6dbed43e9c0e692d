import Vapi.Cache.Isolation
import Vapi.Cache.SpillRun
import Vapi.Engine.Spilled
import Mathlib.Data.List.TakeWhile

/-!
# What a promotion takes from the prefix it extends

A block put back takes the first free one, which may carry a hash of the same
prompt. The resident prefix is as long as before exactly when none of these
blocks carries one of its hashes.
-/

namespace Vapi.Engine

open Vapi.Cache
open Transition (Run)

/-- A prefix that satisfies one condition is as long under another when each of
its members satisfies that too. -/
theorem takeWhile_length_le_iff {A : Type} {l : List A} {p q : A → Bool} :
    (l.takeWhile p).length ≤ (l.takeWhile q).length ↔ ∀ x ∈ l.takeWhile p, q x := by
  induction l with
  | nil => simp
  | cons x l ih =>
    cases hp : p x with
    | false => simp [hp]
    | true =>
      cases hq : q x with
      | false => simp [hp, hq]
      | true => simpa [hp, hq] using ih

variable {H : Type} [DecidableEq H] {B : Blake3 H} {KV : Type}

namespace Tiered

/-- The hashes of a prompt that are resident, up to the first that is not. -/
def resident (w : Tiered B KV) (hashes : List H) : List H := hashes.takeWhile fun hash => w.pool.contains hash

/-- The next block to be put back takes one that carries one of these hashes. -/
def Takes (w : Tiered B KV) (leading : List H) : Prop :=
  1 < w.pool.numFree ∧ ∃ b, w.pool.freeList.head? = some b ∧ ∃ hash ∈ leading, w.pool.byHash hash = some b

/-- No block that is put back takes one that carries one of these hashes. -/
def Harmless (leading : List H) : List H → Tiered B KV → Prop
  | [], _ => True
  | hash :: hashes, w =>
    if w.pool.contains hash then Harmless leading hashes w
    else match w.fetch hash with
      | (_, none) => True
      | (w, some bytes) =>
        ¬w.Takes leading ∧
          match w.restore hash bytes with
          | (w, true) => Harmless leading hashes w
          | (_, false) => True

end Tiered

section Restoring

variable {w : Tiered B KV} {hash k : H} {bytes : Page KV} {x : BlockId}

/-- A block put back leaves every other name, but for that of the first free
block. -/
theorem restore_named (on : w.spill.isSome) (wf : Wf w.pool) (absent : w.pool.byHash hash = none) (other : k ≠ hash) :
    (w.restore hash bytes).1.pool.byHash k = some x ↔
      w.pool.byHash k = some x ∧ ¬(1 < w.pool.numFree ∧ w.pool.freeList.head? = some x) := by
  unfold Tiered.restore
  split
  · rename_i few
    have kept : ¬(1 < w.pool.numFree ∧ w.pool.freeList.head? = some x) := fun h => absurd h.1 (Nat.not_lt.mpr few)
    exact (and_iff_left kept).symm
  · rename_i many
    have many : 1 < w.pool.numFree := Nat.lt_of_not_le many
    rcases allocate_spec wf with ⟨none_, -⟩ | ⟨pool, id, took, spec⟩
    · rw [none_] at many
      cases many
    · have head : w.pool.freeList.head? = some id := by rw [(allocate_first wf took).2]; rfl
      have evicted : pool.byHash k = some x ↔
          w.pool.byHash k = some x ∧ ¬(1 < w.pool.numFree ∧ w.pool.freeList.head? = some x) := by
        rw [spec.byHash, head]
        simp only [many, true_and, Option.some.injEq, ne_eq, eq_comm]
      have all : Kept (fun _ : H × Page KV => True) (w.setPool pool) :=
        ⟨on, spec.wf, fun _ _ _ _ _ => trivial, fun _ _ => trivial, fun _ _ _ => trivial⟩
      obtain ⟨-, -, same, -⟩ := all.spillEvicted
      rw [took]
      simp only
      have pool_ : ((w.setPool pool).spillEvicted.importBlock id bytes).1.pool = pool.takeEvicted.1 := same
      generalize (w.setPool pool).spillEvicted.importBlock id bytes = r at pool_ ⊢
      obtain ⟨v, works⟩ := r
      have wf' : Wf v.pool := by
        rw [show v.pool = _ from pool_]
        exact takeEvicted_wf spec.wf
      have names : v.pool.byHash = pool.byHash := by
        rw [show v.pool = _ from pool_]
        rfl
      have counted : v.pool.refcount id = 1 := by
        rw [show v.pool = _ from pool_]
        change pool.refcount id = 1
        rw [spec.refcount, Function.update_self]
      have referenced : 0 < v.pool.refcount id := by
        rw [counted]
        exact Nat.one_pos
      cases works with
      | false =>
        change (v.pool.free id).byHash k = some x ↔ _
        rw [(free_spec wf' referenced).byHash, names]
        exact evicted
      | true =>
        have published := publish_spec wf' hash (wf'.lt_of_pos referenced)
        have own : (v.pool.publish id hash).2 = id := by
          by_contra foreign
          have named := published.adopted foreign
          rw [names] at named
          exact absurd (((spec.byHash hash _).mp named).1.symm.trans absent) (by simp)
        simp only [own, ne_eq, not_true_eq_false, if_false]
        have counts : 0 < (v.pool.publish id hash).1.refcount id := by
          rw [published.refcount, if_pos own]
          exact referenced
        change ((v.pool.publish id hash).1.free id).byHash k = some x ↔ _
        rw [(free_spec published.wf counts).byHash, published.other k x other, names, ← evicted]
        refine and_iff_left_of_imp fun named _ => ?_
        exact ((spec.byHash k x).mp named).2

/-- A resident hash stays so unless its block is the one taken. -/
theorem restore_contains (on : w.spill.isSome) (wf : Wf w.pool) (absent : w.pool.byHash hash = none)
    (other : k ≠ hash) :
    (w.restore hash bytes).1.pool.contains k = true ↔ w.pool.contains k = true ∧ ¬w.Takes [k] := by
  simp only [BlockPool.contains, Option.isSome_iff_exists, restore_named on wf absent other]
  constructor
  · rintro ⟨x, named, kept⟩
    refine ⟨⟨x, named⟩, ?_⟩
    rintro ⟨many, b, head, l, mem, taken⟩
    obtain rfl := List.mem_singleton.mp mem
    obtain rfl := Option.some.inj (named.symm.trans taken)
    exact kept ⟨many, head⟩
  · rintro ⟨⟨x, named⟩, kept⟩
    refine ⟨x, named, ?_⟩
    rintro ⟨many, head⟩
    exact kept ⟨many, x, head, k, List.mem_singleton_self k, named⟩

end Restoring

section Loop

variable {w : Tiered B KV} {hash k : H} {leading hashes : List H}

/-- Whatever the store holds and the names name. -/
abbrev Sane (w : Tiered B KV) : Prop := Kept (fun _ : H × Page KV => True) w

omit [DecidableEq H] in
theorem Sane.of_wf (on : w.spill.isSome) (wf : Wf w.pool) : Sane w :=
  ⟨on, wf, fun _ _ _ _ _ => trivial, fun _ _ => trivial, fun _ _ _ => trivial⟩

/-- Asking the store changes nothing else. -/
theorem fetch_sane (sane : Sane w) (hash : H) : Sane (w.fetch hash).1 ∧ (w.fetch hash).1.pool = w.pool := by
  obtain ⟨store, spill⟩ := Option.isSome_iff_exists.mp sane.on
  have fetched : (w.fetch hash).1 = { w with spill := some (store.get hash).1 } := by
    unfold Tiered.fetch
    rw [spill]
  rw [fetched]
  exact ⟨sane.fetched spill SpillStore.get_holds.1, rfl⟩

omit [DecidableEq H] in
theorem Tiered.takes_congr {v : Tiered B KV} (pool : v.pool = w.pool) : v.Takes leading ↔ w.Takes leading := by
  unfold Tiered.Takes
  rw [pool]

omit [DecidableEq H] in
theorem Tiered.takes_iff : w.Takes leading ↔ ∃ k ∈ leading, w.Takes [k] := by
  constructor
  · rintro ⟨many, b, head, k, mem, named⟩
    exact ⟨k, mem, many, b, head, k, List.mem_singleton_self k, named⟩
  · rintro ⟨k, mem, many, b, head, l, single, named⟩
    obtain rfl := List.mem_singleton.mp single
    exact ⟨many, b, head, l, mem, named⟩

omit [DecidableEq H] in
theorem absent_of_not_contains {p : BlockPool H} (absent : ¬p.contains hash = true) : p.byHash hash = none := by
  simpa [BlockPool.contains] using absent

/-- Only the hashes that are asked for come to be resident. -/
theorem promote_absent (sane : Sane w) (unasked : k ∉ hashes) (absent : ¬w.pool.contains k = true) :
    ¬(Tiered.promote hashes w).pool.contains k = true := by
  induction hashes generalizing w with
  | nil => exact absent
  | cons hash hashes ih =>
    obtain ⟨other, unasked⟩ := List.ne_and_not_mem_of_not_mem_cons unasked
    unfold Tiered.promote
    split
    · exact ih sane unasked absent
    · rename_i missing
      obtain ⟨sane', pool⟩ := fetch_sane sane hash
      generalize w.fetch hash = r at sane' pool
      obtain ⟨v, _ | bytes⟩ := r
      · rwa [show v.pool = w.pool from pool]
      · have missing' : v.pool.byHash hash = none := by
          rw [show v.pool = w.pool from pool]
          exact absent_of_not_contains missing
        have still : ¬(v.restore hash bytes).1.pool.contains k = true := fun now => by
          have before : v.pool.contains k = true := ((restore_contains sane'.on sane'.wf missing' other).mp now).1
          rw [show v.pool = w.pool from pool] at before
          exact absent before
        have kept : Sane (v.restore hash bytes).1 := (sane'.restore trivial missing').1
        simp only
        generalize v.restore hash bytes = r at still kept ⊢
        obtain ⟨u, _ | _⟩ := r
        · exact still
        · exact ih kept unasked still

/-- Resident hashes that are not asked for stay when their blocks are spared. -/
theorem promote_keeps_iff (sane : Sane w) (unasked : ∀ k ∈ leading, k ∉ hashes)
    (there : ∀ k ∈ leading, w.pool.contains k = true) :
    (∀ k ∈ leading, (Tiered.promote hashes w).pool.contains k = true) ↔ Tiered.Harmless leading hashes w := by
  induction hashes generalizing w with
  | nil => exact iff_of_true there trivial
  | cons hash hashes ih =>
    have unasked' : ∀ k ∈ leading, k ∉ hashes := fun k mem asked => unasked k mem (List.mem_cons_of_mem _ asked)
    have other : ∀ k ∈ leading, k ≠ hash := fun k mem same => unasked k mem (same ▸ List.mem_cons_self)
    unfold Tiered.promote Tiered.Harmless
    split
    · exact ih sane unasked' there
    · rename_i missing
      obtain ⟨sane', pool⟩ := fetch_sane sane hash
      generalize w.fetch hash = r at sane' pool
      obtain ⟨v, _ | bytes⟩ := r
      · refine iff_of_true (fun k mem => ?_) trivial
        rw [show v.pool = w.pool from pool]
        exact there k mem
      · have missing' : v.pool.byHash hash = none := by
          rw [show v.pool = w.pool from pool]
          exact absent_of_not_contains missing
        have there' : ∀ k ∈ leading, v.pool.contains k = true := by
          rw [show v.pool = w.pool from pool]
          exact there
        have stays : ∀ k ∈ leading, ((v.restore hash bytes).1.pool.contains k = true ↔ ¬v.Takes [k]) := by
          intro k mem
          rw [restore_contains sane'.on sane'.wf missing' (other k mem)]
          exact and_iff_right (there' k mem)
        have restored : Sane (v.restore hash bytes).1 := (sane'.restore trivial missing').1
        simp only
        generalize v.restore hash bytes = r at stays restored ⊢
        by_cases taken : v.Takes leading
        · -- the hash that loses its block is not asked for again
          obtain ⟨k, mem, takes⟩ := Tiered.takes_iff.mp taken
          have lost : ¬r.1.pool.contains k = true := fun now => (stays k mem).mp now takes
          refine iff_of_false (fun all => ?_) (fun harmless => harmless.1 taken)
          obtain ⟨u, _ | _⟩ := r
          · exact lost (all k mem)
          · exact promote_absent restored (unasked' k mem) lost (all k mem)
        · have kept : ∀ k ∈ leading, r.1.pool.contains k = true := fun k mem =>
            (stays k mem).mpr fun takes => taken (Tiered.takes_iff.mpr ⟨k, mem, takes⟩)
          rw [and_iff_right taken]
          obtain ⟨u, _ | _⟩ := r
          · exact iff_of_true kept trivial
          · exact ih restored unasked' kept

/-- Nothing is taken where the tier is off. -/
theorem harmless_off (off : w.spill = none) : Tiered.Harmless leading hashes w := by
  induction hashes with
  | nil => trivial
  | cons hash hashes ih =>
    unfold Tiered.Harmless
    split
    · exact ih
    · have fetched : w.fetch hash = (w, none) := by
        unfold Tiered.fetch
        rw [off]
      rw [fetched]
      trivial

end Loop

section Prompt

variable {w : Tiered B KV}

/-- Hashes at the front that are all resident are passed over. -/
theorem promote_resident {leading : List H} (there : ∀ k ∈ leading, w.pool.contains k = true) (rest : List H) :
    Tiered.promote (leading ++ rest) w = Tiered.promote rest w := by
  induction leading with
  | nil => rfl
  | cons k leading ih =>
    rw [List.cons_append, Tiered.promote, if_pos (there k List.mem_cons_self)]
    exact ih fun k mem => there k (List.mem_cons_of_mem _ mem)

theorem harmless_resident {leading all : List H} (there : ∀ k ∈ leading, w.pool.contains k = true) (rest : List H) :
    Tiered.Harmless all (leading ++ rest) w ↔ Tiered.Harmless all rest w := by
  induction leading with
  | nil => rfl
  | cons k leading ih =>
    rw [List.cons_append, Tiered.Harmless, if_pos (there k List.mem_cons_self)]
    exact ih fun k mem => there k (List.mem_cons_of_mem _ mem)

omit [DecidableEq H] in
/-- The hashes of a chain are distinct. -/
theorem chain_nodup {ns : CacheNamespace B} {tokens : List Token} {size : Nat}
    (free : Set.InjOn B.digest {x | x ∈ hashedBytes ns tokens size}) (distinct : Function.Injective B.asBytes) :
    (hashBlockChain ns tokens size).Nodup := by
  rw [List.nodup_iff_injective_getElem]
  intro i j same
  have hi := List.getElem?_eq_getElem i.isLt
  have hj := (List.getElem?_eq_getElem j.isLt).trans (congrArg some same.symm)
  exact Fin.ext (chain_inj free distinct (fun _ => id) (fun _ => id) hi hj).1

/-- A promotion leaves as many leading hashes of the prompt resident as there
were exactly when no block it puts back takes one of theirs. -/
theorem promotion_keeps_iff (wf : Wf w.pool) {tokens : List Token}
    (free : Set.InjOn B.digest {x | x ∈ hashedBytes w.cacheNamespace
      (tokens.take (tokens.length / blockSize * blockSize)) blockSize})
    (distinct : Function.Injective B.asBytes) :
    (w.resident (w.promptHashes tokens)).length ≤
        ((w.promoteFromSpill tokens).resident (w.promptHashes tokens)).length ↔
      Tiered.Harmless (w.resident (w.promptHashes tokens)) (w.promptHashes tokens) w := by
  have nodup : (w.promptHashes tokens).Nodup := chain_nodup free distinct
  have there : ∀ k ∈ w.resident (w.promptHashes tokens), w.pool.contains k = true := fun k mem =>
    List.mem_takeWhile_imp mem
  refine takeWhile_length_le_iff.trans ?_
  change (∀ k ∈ w.resident (w.promptHashes tokens), (w.promoteFromSpill tokens).pool.contains k = true) ↔ _
  unfold Tiered.promoteFromSpill
  split
  · rename_i off
    exact iff_of_true there (harmless_off (Option.isNone_iff_eq_none.mp off))
  · rename_i on
    split
    · rename_i short
      have none_ : w.promptHashes tokens = [] := by
        unfold Tiered.promptHashes
        rw [short, Nat.zero_mul, List.take_zero]
        rfl
      refine iff_of_true there ?_
      rw [none_]
      trivial
    · have on : w.spill.isSome := by simpa [Option.isSome_iff_ne_none] using on
      obtain ⟨rest, split⟩ : ∃ rest, w.promptHashes tokens = w.resident (w.promptHashes tokens) ++ rest :=
        ⟨_, (List.takeWhile_append_dropWhile ..).symm⟩
      have apart : ∀ k ∈ w.resident (w.promptHashes tokens), k ∉ rest := by
        intro k mem later
        rw [split] at nodup
        exact (List.nodup_append.mp nodup).2.2 k mem k later rfl
      generalize w.resident (w.promptHashes tokens) = leading at there split apart ⊢
      rw [split, promote_resident there, harmless_resident there]
      exact promote_keeps_iff (.of_wf on wf) apart there

end Prompt

section Example

/-- The hashes of a prompt of three blocks. -/
def threeBlocks : List (List UInt8) :=
  hashBlockChain (B := Blake3.identity) (.new "model" "weights" .f32 none "global") (List.replicate 96 1) blockSize

/-- A pool of four blocks, over the files that an earlier run wrote for the last
two blocks of that prompt. -/
def reopened : Tiered Blake3.identity Token :=
  .new {} 4 0 (.new "model" "weights" .f32 none "global") []
    (some (SpillStore.opened ((threeBlocks.drop 1).map fun hash => (hash, fun _ => some 1)) true 4 4 (fun _ => 1)
      ⟨fun _ => true, 0⟩))
    ⟨fun _ => true, 0⟩ ⟨fun _ => none, 0⟩

/-- The first block of the prompt is computed and let go, and then two blocks of
another. -/
def turns : List Event :=
  [.admitRequest ⟨"a"⟩ (List.replicate 32 1) {} "global", .schedule, .commit [3], .cancel ⟨"a"⟩,
    .admitRequest ⟨"b"⟩ (List.replicate 64 2) {} "global", .schedule, .commit [4], .cancel ⟨"b"⟩]

theorem promotion_keeps_iff_reopened :
    (reopened.resident (reopened.promptHashes (List.replicate 96 1))).length ≤
        ((reopened.promoteFromSpill (List.replicate 96 1)).resident
          (reopened.promptHashes (List.replicate 96 1))).length ↔
      Tiered.Harmless (reopened.resident (reopened.promptHashes (List.replicate 96 1)))
        (reopened.promptHashes (List.replicate 96 1)) reopened :=
  promotion_keeps_iff (Tiered.new_balanced ..).wf Function.injective_id.injOn Function.injective_id

/-- The third block is put back where the first one was. -/
theorem promotion_shortens :
    ∃ w, Run (Tiered.Step spoken) reopened turns w ∧
      (w.resident (w.promptHashes (List.replicate 96 1))).length = 1 ∧
      ((w.promoteFromSpill (List.replicate 96 1)).resident (w.promptHashes (List.replicate 96 1))).length = 0 := by
  have counts : ((Transition.follow (Tiered.exec spoken) turns reopened).any fun w =>
      (w.resident (w.promptHashes (List.replicate 96 1))).length = 1 ∧
      ((w.promoteFromSpill (List.replicate 96 1)).resident (w.promptHashes (List.replicate 96 1))).length = 0) =
        true := by
    decide +kernel
  obtain ⟨w, followed, counts⟩ := (Option.any_eq_true ..).mp counts
  exact ⟨w, Transition.follow_iff.mp followed, of_decide_eq_true counts⟩

end Example

end Vapi.Engine
