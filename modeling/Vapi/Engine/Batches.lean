import Vapi.Engine.Standing

/-!
# Every batch is well formed

What a scheduled row writes lies in an open block of its own sequence, at its
own position. So no two rows write the same slot, and none writes to a block
that another sequence holds.
-/

namespace Vapi.Engine

open Vapi.Cache
open Transition (Run Guarded)

variable {H : Type} {B : Blake3 H} {KV : Type}

section Written

variable {base s t : Scheduler B} {plan : StepPlan} {es : List Entry}

/-- What an entry writes to is an open block of its sequence. -/
theorem Scheduled.written (h : Scheduled base s t plan es) (size : 0 < t.cfg.blockSize) {e : Entry}
    (he : e ∈ es) {i : Nat} (hi : i ∈ e.positions) :
    ∃ b, e.seq.blocks[i / t.cfg.blockSize]? = some b ∧ e.seq.Open t.cfg.blockSize b ∧
      e.slot t.cfg.blockSize i = b * t.cfg.blockSize + i % t.cfg.blockSize := by
  obtain ⟨ge, lt⟩ := Entry.mem_positions.mp hi
  have inTable : i / t.cfg.blockSize < e.seq.blocks.length :=
    (Nat.div_lt_iff_lt_mul size).mpr (Nat.lt_of_lt_of_le lt (h.covered e he).blocks)
  have get := List.getElem?_eq_getElem inTable
  refine ⟨_, get, ⟨_, Nat.div_le_div_right ge, get⟩, ?_⟩
  rw [Entry.slot, List.getD_eq_getElem?_getD, get]
  rfl

theorem Scheduled.apart (h : Scheduled base s t plan es) (size : 0 < t.cfg.blockSize) :
    (slotsOf t.cfg.blockSize es).Nodup := by
  obtain ⟨core, planFor, -⟩ := h.planFor
  obtain ⟨extra, balanced⟩ := h.sound.balanced
  refine List.nodup_flatMap.mpr ⟨fun e he => ?_, ?_⟩
  · refine List.Nodup.map_on (fun i hi j hj same => ?_) List.nodup_range'
    obtain ⟨b, get, isOpen, slot⟩ := h.written size he hi
    obtain ⟨c, get', -, slot'⟩ := h.written size he hj
    rw [slot, slot'] at same
    obtain ⟨rfl, offset⟩ := Paged.cell_inj (Nat.mod_lt i size) (Nat.mod_lt j size) same
    have once : e.seq.blocks.count b ≤ 1 :=
      (h.sound.exclusive e.id e.seq b (h.current e he) isOpen).refcount ▸ balanced.le_refcount b (h.current e he)
    have block := index_unique once get get'
    rw [← Nat.div_add_mod i t.cfg.blockSize, ← Nat.div_add_mod j t.cfg.blockSize, block, offset]
  · have ids : es.Pairwise fun e e' => e.id ≠ e'.id := List.pairwise_map.mp planFor.nodup
    refine ids.imp_of_mem fun he he' ne x hx hx' => ?_
    obtain ⟨i, hi, rfl⟩ := List.mem_map.mp hx
    obtain ⟨j, hj, same⟩ := List.mem_map.mp hx'
    obtain ⟨b, get, isOpen, slot⟩ := h.written size he hi
    obtain ⟨c, get', -, slot'⟩ := h.written size he' hj
    rw [slot, slot'] at same
    obtain ⟨rfl, -⟩ := Paged.cell_inj (Nat.mod_lt j size) (Nat.mod_lt i size) same
    exact h.sound.exclusive.apart balanced ne (h.current _ he) isOpen (h.current _ he') (List.mem_of_getElem? get')

end Written

variable [DecidableEq H]

end Vapi.Engine
