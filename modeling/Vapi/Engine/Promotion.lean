import Vapi.Engine.Fading
import Vapi.Engine.Tiered

/-!
# What the spill tier moves

An export keeps what a block held under its name, and a promotion gives a block
a name and what was kept of it. Nothing else of the engine changes: no count,
no queue, no sequence.
-/

namespace Vapi.Engine

open Vapi.Cache
open Paged (Memory)

variable {H : Type} {B : Blake3 H} {KV : Type}

/-- What a promotion leaves alone. -/
structure Rearranged (w w' : Tiered B KV) : Prop where
  world : w'.world = { w.world with scheduler := w.world.scheduler.setPool w'.pool, device := w'.device }
  cacheNamespace : w'.cacheNamespace = w.cacheNamespace
  shape : SameShape w.pool w'.pool
  refcount : w'.pool.refcount = w.pool.refcount

namespace Rearranged

variable {u v w : Tiered B KV}

theorem refl (w : Tiered B KV) : Rearranged w w := ⟨rfl, rfl, .refl _, rfl⟩

theorem trans (h : Rearranged u v) (k : Rearranged v w) : Rearranged u w where
  world := by rw [k.world, h.world]; rfl
  cacheNamespace := k.cacheNamespace.trans h.cacheNamespace
  shape := h.shape.trans k.shape
  refcount := k.refcount.trans h.refcount

end Rearranged

variable [DecidableEq H]

/-- `P` is known of every entry of the store, of what every name names, and of
what was evicted and is still to be exported. -/
structure Kept (P : H × Page KV → Prop) (w : Tiered B KV) : Prop where
  on : w.spill.isSome
  wf : Wf w.pool
  stored : ∀ store, w.spill = some store → ∀ h bytes, store.Holds h bytes → P (h, bytes)
  owed : ∀ x ∈ w.pool.evictedContent, P (x.1, w.device x.2)
  named : ∀ h b, w.pool.byHash h = some b → P (h, w.device b)

variable {P Q : H × Page KV → Prop} {w w' : Tiered B KV}

omit [DecidableEq H] in
theorem Kept.mono (h : Kept P w) (le : ∀ x, P x → Q x) : Kept Q w where
  on := h.on
  wf := h.wf
  stored store known k bytes held := le _ (h.stored store known k bytes held)
  owed x hx := le _ (h.owed x hx)
  named k b named := le _ (h.named k b named)

theorem exportBlock_spec (w : Tiered B KV) (x : H × BlockId) :
    ((w.exportBlock x).world = w.world ∧ (w.exportBlock x).cacheNamespace = w.cacheNamespace ∧
      (w.exportBlock x).spill.isSome = w.spill.isSome) ∧
    ∀ store', (w.exportBlock x).spill = some store' → ∀ h bytes, store'.Holds h bytes →
      (∃ store, w.spill = some store ∧ store.Holds h bytes) ∨ (h, bytes) = (x.1, w.device x.2) := by
  unfold Tiered.exportBlock
  cases spill : w.spill with
  | none => exact ⟨⟨rfl, rfl, by rw [spill]⟩, fun store' same => by rw [spill] at same; cases same⟩
  | some store =>
    simp only
    split
    · exact ⟨⟨rfl, rfl, by rw [spill]⟩, fun store' same h bytes held => .inl ⟨store', by rw [← spill, same], held⟩⟩
    · refine ⟨⟨rfl, rfl, rfl⟩, fun store' same h bytes held => ?_⟩
      obtain rfl := Option.some.inj same
      split at held
      · rcases SpillStore.put_holds held with before | ⟨rfl, rfl⟩
        · exact .inl ⟨store, rfl, before⟩
        · exact .inr rfl
      · exact .inl ⟨store, rfl, held⟩

theorem exportAll_spec (l : List (H × BlockId)) (w : Tiered B KV) :
    ((l.foldl Tiered.exportBlock w).world = w.world ∧
      (l.foldl Tiered.exportBlock w).cacheNamespace = w.cacheNamespace ∧
      (l.foldl Tiered.exportBlock w).spill.isSome = w.spill.isSome) ∧
    ∀ store', (l.foldl Tiered.exportBlock w).spill = some store' → ∀ h bytes, store'.Holds h bytes →
      (∃ store, w.spill = some store ∧ store.Holds h bytes) ∨ ∃ x ∈ l, (h, bytes) = (x.1, w.device x.2) := by
  induction l generalizing w with
  | nil => exact ⟨⟨rfl, rfl, rfl⟩, fun store' same h bytes held => .inl ⟨store', same, held⟩⟩
  | cons x l ih =>
    obtain ⟨⟨world, ns, on⟩, first⟩ := exportBlock_spec w x
    obtain ⟨⟨world', ns', on'⟩, rest⟩ := ih (w.exportBlock x)
    refine ⟨⟨world'.trans world, ns'.trans ns, on'.trans on⟩, fun store' same h bytes held => ?_⟩
    rcases rest store' same h bytes held with ⟨store, known, held⟩ | ⟨y, hy, eq⟩
    · exact (first store known h bytes held).imp_right fun eq => ⟨x, by simp, eq⟩
    · unfold Tiered.device at eq ⊢
      rw [world] at eq
      exact .inr ⟨y, by simp [hy], eq⟩

omit [DecidableEq H] in
theorem takeEvicted_wf {p : BlockPool H} (w : Wf p) : Wf p.takeEvicted.1 :=
  w.elim fun L r => ⟨L, r.congr rfl rfl rfl rfl rfl rfl rfl rfl⟩

/-- The blocks put down as evicted are exported in turn, and struck off. -/
theorem spillEvicted_spec (on : w.spill.isSome) :
    (w.spillEvicted.world = (w.setPool w.pool.takeEvicted.1).world ∧
      w.spillEvicted.cacheNamespace = w.cacheNamespace ∧ w.spillEvicted.spill.isSome) ∧
    ∀ store', w.spillEvicted.spill = some store' → ∀ h bytes, store'.Holds h bytes →
      (∃ store, w.spill = some store ∧ store.Holds h bytes) ∨
        ∃ x ∈ w.pool.evictedContent, (h, bytes) = (x.1, w.device x.2) := by
  have loops : w.spillEvicted = w.pool.evictedContent.foldl Tiered.exportBlock (w.setPool w.pool.takeEvicted.1) := by
    unfold Tiered.spillEvicted
    rw [if_neg (by simp [Option.isSome_iff_ne_none.mp on])]
    rfl
  rw [loops]
  obtain ⟨⟨world, ns, kept⟩, held⟩ := exportAll_spec w.pool.evictedContent (w.setPool w.pool.takeEvicted.1)
  exact ⟨⟨world, ns, kept.trans on⟩, held⟩

/-- All that was owed is exported. -/
theorem Kept.spillEvicted (h : Kept P w) :
    Kept P w.spillEvicted ∧ Rearranged w w.spillEvicted ∧ w.spillEvicted.pool = w.pool.takeEvicted.1 ∧
      w.spillEvicted.device = w.device := by
  obtain ⟨⟨world, ns, on⟩, held⟩ := spillEvicted_spec h.on
  have pool : w.spillEvicted.pool = w.pool.takeEvicted.1 := congrArg (fun world => world.scheduler.pool) world
  have device : w.spillEvicted.device = w.device := (congrArg World.device world).trans rfl
  refine ⟨⟨on, ?_, fun store' same k bytes entry => ?_, ?_, ?_⟩, ⟨?_, ns, ?_, ?_⟩, pool, device⟩
  · rw [pool]
    exact takeEvicted_wf h.wf
  · rcases held store' same k bytes entry with ⟨old, known, entry⟩ | ⟨x, hx, eq⟩
    · exact h.stored old known k bytes entry
    · rw [eq]
      exact h.owed x hx
  · rw [pool]
    simp [BlockPool.takeEvicted]
  · rw [pool, device]
    exact h.named
  · rw [pool, device, world]
    rfl
  · rw [pool]
    exact ⟨rfl, rfl, rfl⟩
  · rw [pool]
    rfl

omit [DecidableEq H] in
theorem Kept.fades (h : Kept P w) {pool : BlockPool H} (wf : Wf pool) (fades : Fades w.pool pool) :
    Kept P (w.setPool pool) where
  on := h.on
  wf := wf
  stored := h.stored
  owed x hx := (fades.evicted x hx).elim (h.owed x) (h.named x.1 x.2)
  named k b named := h.named k b (fades.named k b named)

omit [DecidableEq H] in
/-- Writing to a block that has no name, nor had one that is owed. -/
theorem Kept.write (h : Kept P w) {id : BlockId} (page : Page KV) (unnamed : ∀ k, w.pool.byHash k ≠ some id)
    (settled : ∀ x ∈ w.pool.evictedContent, x.2 ≠ id) : Kept P (w.setDevice (Function.update w.device id page)) where
  on := h.on
  wf := h.wf
  stored := h.stored
  owed x hx := by
    change P (x.1, Function.update w.device id page x.2)
    rw [Function.update_of_ne (settled x hx)]
    exact h.owed x hx
  named k b named := by
    change P (k, Function.update w.device id page b)
    rw [Function.update_of_ne]
    · exact h.named k b named
    · rintro rfl
      exact unnamed k named

theorem publish_evicted (p : BlockPool H) (id : BlockId) (h : H) :
    (p.publish id h).1.evictedContent = p.evictedContent := by
  unfold BlockPool.publish
  split
  · split
    · unfold BlockPool.reference
      split <;> rfl
    · rfl
  · rfl

omit [DecidableEq H] in
theorem Kept.importBlock (h : Kept P w) {id : BlockId} (bytes : Page KV) (unnamed : ∀ k, w.pool.byHash k ≠ some id)
    (settled : ∀ x ∈ w.pool.evictedContent, x.2 ≠ id) :
    Kept P (w.importBlock id bytes).1 ∧ (w.importBlock id bytes).1.pool = w.pool ∧
    Rearranged w (w.importBlock id bytes).1 ∧
      ((w.importBlock id bytes).2 = true → (w.importBlock id bytes).1.device id = bytes) := by
  have asked : Kept P { w with imports := w.imports.ask.2 } := ⟨h.on, h.wf, h.stored, h.owed, h.named⟩
  refine ⟨asked.write _ unnamed settled, rfl, ⟨rfl, rfl, .refl _, rfl⟩, fun works => ?_⟩
  change w.imports.ask.1.isNone = true at works
  change Function.update w.device id (w.imports.ask.1.getD bytes) id = bytes
  rw [Function.update_self, Option.isNone_iff_eq_none.mp works]
  rfl

/-- A block is put back under a hash that names none, and left unreferenced. -/
theorem Kept.restore (h : Kept P w) {hash : H} {bytes : Page KV} (known : P (hash, bytes))
    (absent : w.pool.byHash hash = none) : Kept P (w.restore hash bytes).1 ∧ Rearranged w (w.restore hash bytes).1 := by
  unfold Tiered.restore
  split
  · exact ⟨h, .refl w⟩
  · cases took : w.pool.allocate with
    | error e => exact ⟨h, .refl w⟩
    | ok r =>
      obtain ⟨pool, id⟩ := r
      have spec := allocate_allocates _ _ _ h.wf took
      obtain ⟨exported, moved, same, -⟩ := (h.fades spec.wf (allocate_first h.wf took).1).spillEvicted
      have unnamed : ∀ k, (w.setPool pool).spillEvicted.pool.byHash k ≠ some id := fun k named => by
        rw [same] at named
        exact ((spec.byHash k id).mp named).2 rfl
      obtain ⟨imported, same', moved', put⟩ := exported.importBlock bytes unnamed
        (by
          rw [same]
          simp [BlockPool.takeEvicted])
      simp only
      generalize (w.setPool pool).spillEvicted.importBlock id bytes = r at imported same' moved' put ⊢
      obtain ⟨v, works⟩ := r
      have counts : v.pool.refcount = Function.update w.pool.refcount id 1 :=
        (moved'.refcount.trans moved.refcount).trans spec.refcount
      have shape : SameShape w.pool v.pool := (spec.shape.trans moved.shape).trans moved'.shape
      have released : ∀ q, Wf q → SameShape v.pool q → q.refcount = v.pool.refcount →
          Rearranged w (v.setPool (q.free id)) := by
        intro q wf same counts'
        have free := free_spec wf (b := id) (by rw [counts', counts, Function.update_self]; exact Nat.one_pos)
        refine ⟨?_, ?_, (shape.trans same).trans free.shape, ?_⟩
        · change { v.world with scheduler := v.world.scheduler.setPool (q.free id) } = _
          rw [moved'.world, moved.world]
          rfl
        · exact moved'.cacheNamespace.trans moved.cacheNamespace
        · change (q.free id).refcount = _
          rw [free.refcount, counts', counts, Function.update_self, Function.update_idem, Nat.sub_self, ← spec.unused,
            Function.update_eq_self]
      have referenced : 0 < v.pool.refcount id := by
        rw [counts, Function.update_self]
        exact Nat.one_pos
      cases works with
      | false =>
        exact ⟨imported.fades (free_spec imported.wf referenced).wf (free_fades _ _),
          released v.pool imported.wf (.refl _) rfl⟩
      | true =>
        have published := publish_spec imported.wf hash (imported.wf.lt_of_pos referenced)
        -- the hash names nothing yet, so the block published is the one imported
        have own : (v.pool.publish id hash).2 = id := by
          by_contra other
          have named := published.adopted other
          rw [show v.pool = _ from same', same] at named
          exact absurd (((spec.byHash hash _).mp named).1.symm.trans absent) (by simp)
        simp only [own, ne_eq, not_true_eq_false, if_false]
        have counts' : (v.pool.publish id hash).1.refcount = v.pool.refcount := by
          rw [published.refcount, if_pos own]
        refine ⟨?_, released _ published.wf published.shape counts'⟩
        have named : Kept P (v.setPool (v.pool.publish id hash).1) := by
          refine ⟨imported.on, published.wf, imported.stored, fun x hx => ?_, fun k b hb => ?_⟩
          · change x ∈ (v.pool.publish id hash).1.evictedContent at hx
            rw [publish_evicted] at hx
            exact imported.owed x hx
          · change (v.pool.publish id hash).1.byHash k = some b at hb
            by_cases here : k = hash
            · subst here
              obtain rfl : id = b := own.symm.trans (Option.some.inj (published.named.symm.trans hb))
              change P (k, v.device id)
              rw [put rfl]
              exact known
            · exact imported.named k b ((published.other k b here).mp hb).1
        have free := free_spec published.wf (b := id) (by rw [counts']; exact referenced)
        exact named.fades free.wf (free_fades _ _)

omit [DecidableEq H] in
/-- What the store hands back is an entry of it. -/
theorem Kept.fetched (h : Kept P w) {store store' : SpillStore H (Page KV)} (spill : w.spill = some store)
    (fewer : ∀ k bytes, store'.Holds k bytes → store.Holds k bytes) :
    Kept P { w with spill := some store' } :=
  ⟨rfl, h.wf, fun other same k bytes held => by
    obtain rfl := Option.some.inj same
    exact h.stored store spill k bytes (fewer k bytes held), h.owed, h.named⟩

theorem Kept.promote (hashes : List H) (h : Kept P w) :
    Kept P (Tiered.promote hashes w) ∧ Rearranged w (Tiered.promote hashes w) := by
  induction hashes generalizing w with
  | nil => exact ⟨h, .refl w⟩
  | cons hash hashes ih =>
    unfold Tiered.promote
    split
    · exact ih h
    · rename_i absent
      have absent : w.pool.byHash hash = none := by simpa [BlockPool.contains] using absent
      obtain ⟨store, spill⟩ := Option.isSome_iff_exists.mp h.on
      obtain ⟨fewer, entry⟩ := SpillStore.get_holds (s := store) (h := hash)
      have fetched : w.fetch hash = ({ w with spill := some (store.get hash).1 }, (store.get hash).2) := by
        unfold Tiered.fetch
        rw [spill]
      have kept := h.fetched spill fewer
      have moved : Rearranged w { w with spill := some (store.get hash).1 } := ⟨rfl, rfl, .refl _, rfl⟩
      rw [fetched]
      cases got : (store.get hash).2 with
      | none => exact ⟨kept, moved⟩
      | some bytes =>
        simp only
        obtain ⟨restored, moved'⟩ := kept.restore (h.stored store spill hash bytes (entry bytes got)) absent
        rcases e : Tiered.restore { w with spill := some (store.get hash).1 } hash bytes with ⟨v, _ | _⟩ <;>
          rw [e] at restored moved'
        · exact ⟨restored, moved.trans moved'⟩
        · obtain ⟨rest, moved''⟩ := ih restored
          exact ⟨rest, (moved.trans moved').trans moved''⟩

theorem Kept.promoteFromSpill (h : Kept P w) (tokens : List Token) :
    Kept P (w.promoteFromSpill tokens) ∧ Rearranged w (w.promoteFromSpill tokens) := by
  unfold Tiered.promoteFromSpill
  split
  · exact ⟨h, .refl w⟩
  · split
    · exact ⟨h, .refl w⟩
    · exact h.promote _

end Vapi.Engine
