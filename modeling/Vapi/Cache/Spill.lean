import Mathlib.Logic.Function.Basic

/-!
# The spill tier

`SpillStore` of `vapi-cache/src/spill.rs`: the bytes of evicted blocks, in host
memory up to a cap and in files of a directory past it, both least recently
used first. The hash maps are functions, and whether a file operation works is
told by an oracle that is asked once for each.
-/

namespace Vapi.Cache

/-- The answers that are to come, and how many were given. -/
structure Oracle (A : Type) where
  answers : Nat → A
  asked : Nat := 0

def Oracle.ask {A : Type} (o : Oracle A) : A × Oracle A :=
  (o.answers o.asked, { o with asked := o.asked + 1 })

structure SpillStats where
  hits : Nat := 0
  misses : Nat := 0
  writes : Nat := 0
  drops : Nat := 0
  errors : Nat := 0
  deriving DecidableEq, Repr

/-- Host-memory tier with an optional disk tier behind it. -/
structure SpillStore (H V : Type) where
  ram : H → Option V
  /-- Least recently used first. -/
  ramLru : List H
  ramMax : Nat
  ramBytes : Nat
  /-- The files of the directory, named by their hashes. -/
  dir : Option (H → Option V)
  disk : H → Option Nat
  diskLru : List H
  diskMax : Nat
  diskBytes : Nat
  stats : SpillStats
  /-- How many bytes a block takes. -/
  size : V → Nat
  files : Oracle Bool

namespace SpillStore

variable {H V : Type} [DecidableEq H]

/-- A store over an empty directory, or over none. -/
def empty (dir : Bool) (ramMax diskMax : Nat) (size : V → Nat) (files : Oracle Bool) : SpillStore H V where
  ram := fun _ => none
  ramLru := []
  ramMax := ramMax
  ramBytes := 0
  dir := if dir ∧ 0 < diskMax then some fun _ => none else none
  disk := fun _ => none
  diskLru := []
  diskMax := diskMax
  diskBytes := 0
  stats := {}
  size := size
  files := files

def contains (s : SpillStore H V) (h : H) : Bool := (s.ram h).isSome || (s.disk h).isSome

/-- Whether the next file operation works. -/
def attempt (s : SpillStore H V) : Bool × SpillStore H V :=
  (s.files.ask.1, { s with files := s.files.ask.2 })

/-- Drop a disk entry; a file that cannot be removed stays, and is not indexed. -/
def dropDisk (s : SpillStore H V) (h : H) : SpillStore H V :=
  let (removed, s) := s.attempt
  { s with
    dir := if removed then s.dir.map fun files => Function.update files h none else s.dir
    disk := Function.update s.disk h none
    diskBytes := s.diskBytes - (s.disk h).getD 0 }

def evictDiskLoop : List H → SpillStore H V → SpillStore H V
  | [], s => { s with diskLru := [] }
  | h :: rest, s =>
    if s.diskMax < s.diskBytes then evictDiskLoop rest (s.dropDisk h) else { s with diskLru := h :: rest }

def evictDisk (s : SpillStore H V) : SpillStore H V := evictDiskLoop s.diskLru s

/-- Move one host-memory entry out: to disk, or away. -/
def moveOut (s : SpillStore H V) (h : H) : SpillStore H V :=
  match s.ram h with
  | none => s
  | some bytes =>
    let s := { s with ram := Function.update s.ram h none, ramBytes := s.ramBytes - s.size bytes }
    match s.dir with
    | none => { s with stats := { s.stats with drops := s.stats.drops + 1 } }
    | some files =>
      if s.diskMax < s.size bytes then { s with stats := { s.stats with drops := s.stats.drops + 1 } }
      else
        let (written, s) := s.attempt
        if written then
          evictDisk { s with
            dir := some (Function.update files h (some bytes))
            diskBytes := s.diskBytes + s.size bytes
            disk := Function.update s.disk h (some (s.size bytes))
            diskLru := s.diskLru ++ [h] }
        else { s with stats := { s.stats with errors := s.stats.errors + 1 } }

def evictRamLoop : List H → SpillStore H V → SpillStore H V
  | [], s => { s with ramLru := [] }
  | h :: rest, s =>
    if s.ramMax < s.ramBytes then evictRamLoop rest (s.moveOut h) else { s with ramLru := h :: rest }

/-- Push host-memory entries out to disk until the cap is met. -/
def evictRam (s : SpillStore H V) : SpillStore H V := evictRamLoop s.ramLru s

/-- Store one block's bytes, unless there are some, or they fit nowhere. -/
def put (s : SpillStore H V) (h : H) (bytes : V) : SpillStore H V :=
  if s.contains h then s
  else if s.ramMax < s.size bytes ∧ s.diskMax < s.size bytes then
    { s with stats := { s.stats with drops := s.stats.drops + 1 } }
  else
    evictRam { s with
      stats := { s.stats with writes := s.stats.writes + 1 }
      ramBytes := s.ramBytes + s.size bytes
      ram := Function.update s.ram h (some bytes)
      ramLru := s.ramLru ++ [h] }

def touchRam (s : SpillStore H V) (h : H) : SpillStore H V :=
  { s with ramLru := s.ramLru.filter (· ≠ h) ++ [h] }

def touchDisk (s : SpillStore H V) (h : H) : SpillStore H V :=
  { s with diskLru := s.diskLru.filter (· ≠ h) ++ [h] }

def forgetDisk (s : SpillStore H V) (h : H) : SpillStore H V :=
  { s with
    diskBytes := s.diskBytes - (s.disk h).getD 0
    disk := Function.update s.disk h none
    diskLru := s.diskLru.filter (· ≠ h) }

def hit (s : SpillStore H V) : SpillStore H V := { s with stats := { s.stats with hits := s.stats.hits + 1 } }

def miss (s : SpillStore H V) : SpillStore H V := { s with stats := { s.stats with misses := s.stats.misses + 1 } }

/-- Read a file. -/
def readFile (s : SpillStore H V) (h : H) : SpillStore H V × Option V :=
  let (readable, s) := s.attempt
  (s, if readable then s.dir.bind (· h) else none)

/-- A block's bytes, if held. An indexed file that cannot be read is forgotten. -/
def get (s : SpillStore H V) (h : H) : SpillStore H V × Option V :=
  match s.ram h with
  | some bytes => ((s.touchRam h).hit, some bytes)
  | none =>
    if (s.disk h).isSome then
      match s.readFile h with
      | (s, some bytes) => ((s.touchDisk h).hit, some bytes)
      | (s, none) =>
        let s := s.forgetDisk h
        (({ s with stats := { s.stats with errors := s.stats.errors + 1 } } : SpillStore H V).miss, none)
    else (s.miss, none)

/-- An entry: bytes in host memory, or in a file the disk tier indexes. -/
def Holds (s : SpillStore H V) (h : H) (bytes : V) : Prop :=
  s.ram h = some bytes ∨ (s.disk h).isSome ∧ s.dir.bind (· h) = some bytes

omit [DecidableEq H] in
theorem empty_holds (dir : Bool) (ramMax diskMax : Nat) (size : V → Nat) (files : Oracle Bool) (h : H) (bytes : V) :
    ¬(empty dir ramMax diskMax size files).Holds h bytes := by
  simp [Holds, empty]

section Entries

variable {s : SpillStore H V} {h k : H} {bytes u : V}

theorem dropDisk_holds (held : (s.dropDisk h).Holds k u) : s.Holds k u := by
  rcases held with ram | ⟨indexed, file⟩
  · exact .inl ram
  · have other : k ≠ h := by
      rintro rfl
      change (Function.update s.disk k none k).isSome at indexed
      rw [Function.update_self] at indexed
      cases indexed
    change (Function.update s.disk h none k).isSome at indexed
    rw [Function.update_of_ne other] at indexed
    refine .inr ⟨indexed, ?_⟩
    change ((if s.files.ask.1 then s.dir.map fun files => Function.update files h none else s.dir).bind (· k)) = some u at file
    split at file
    · cases d : s.dir with
      | none => rw [d] at file; cases file
      | some files =>
        rw [d] at file
        change Function.update files h none k = some u at file
        rwa [Function.update_of_ne other] at file
    · exact file

theorem evictDiskLoop_holds (l : List H) (held : (evictDiskLoop l s).Holds k u) : s.Holds k u := by
  induction l generalizing s with
  | nil => exact held
  | cons h l ih =>
    unfold evictDiskLoop at held
    split at held
    · exact dropDisk_holds (ih held)
    · exact held

/-- An entry that is moved stays what it was. -/
theorem moveOut_holds (held : (s.moveOut h).Holds k u) : s.Holds k u := by
  unfold moveOut at held
  split at held
  · exact held
  · rename_i bytes known
    have emptied : ∀ {t : SpillStore H V}, t.Holds k u → t.ram = Function.update s.ram h none → t.disk = s.disk →
        t.dir = s.dir → s.Holds k u := by
      intro t held ram disk dir
      rcases held with inRam | onDisk
      · rw [ram, Function.update_apply] at inRam
        split at inRam
        · cases inRam
        · exact .inl inRam
      · rw [disk, dir] at onDisk
        exact .inr onDisk
    simp only at held
    split at held
    · exact emptied held rfl rfl rfl
    · rename_i files directory
      split at held
      · exact emptied held rfl rfl rfl
      · split at held
        · rcases evictDiskLoop_holds _ held with inRam | ⟨indexed, file⟩
          · refine .inl ?_
            change Function.update s.ram h none k = some u at inRam
            rw [Function.update_apply] at inRam
            split at inRam
            · cases inRam
            · exact inRam
          · change Function.update files h (some bytes) k = some u at file
            rw [Function.update_apply] at file
            split at file
            · rename_i same
              exact .inl (same ▸ known.trans file)
            · rename_i other
              change (Function.update s.disk h (some (s.size bytes)) k).isSome at indexed
              rw [Function.update_of_ne other] at indexed
              exact .inr ⟨indexed, by rw [directory]; exact file⟩
        · exact emptied held rfl rfl rfl

theorem evictRamLoop_holds (l : List H) (held : (evictRamLoop l s).Holds k u) : s.Holds k u := by
  induction l generalizing s with
  | nil => exact held
  | cons h l ih =>
    unfold evictRamLoop at held
    split at held
    · exact moveOut_holds (ih held)
    · exact held

/-- Nothing is held that was not, but for what is put. -/
theorem put_holds (held : (s.put h bytes).Holds k u) : s.Holds k u ∨ k = h ∧ u = bytes := by
  unfold put at held
  split at held
  · exact .inl held
  · split at held
    · exact .inl held
    · rcases evictRamLoop_holds _ held with inRam | onDisk
      · change Function.update s.ram h (some bytes) k = some u at inRam
        rw [Function.update_apply] at inRam
        split at inRam
        · rename_i same
          exact .inr ⟨same, (Option.some.inj inRam).symm⟩
        · exact .inl (.inl inRam)
      · exact .inl (.inr onDisk)

theorem forgetDisk_holds (held : (s.forgetDisk h).Holds k u) : s.Holds k u := by
  refine held.imp_right fun ⟨indexed, file⟩ => ⟨?_, file⟩
  change (Function.update s.disk h none k).isSome at indexed
  rw [Function.update_apply] at indexed
  split at indexed
  · cases indexed
  · exact indexed

/-- What is handed back is held, and nothing else comes to be. -/
theorem get_holds :
    (∀ k u, (s.get h).1.Holds k u → s.Holds k u) ∧ ∀ bytes, (s.get h).2 = some bytes → s.Holds h bytes := by
  unfold get
  split
  · rename_i bytes known
    exact ⟨fun _ _ held => held, fun _ same => .inl (known.trans same)⟩
  · split
    · rename_i indexed
      have read : (s.readFile h).2 = if s.files.ask.1 then s.dir.bind (· h) else none := rfl
      split
      · rename_i t bytes e
        rw [e] at read
        change some bytes = _ at read
        have t_eq : t = (s.attempt).2 := (congrArg Prod.fst e).symm
        refine ⟨fun k u held => by rw [t_eq] at held; exact held, fun v same => .inr ⟨indexed, ?_⟩⟩
        rw [← Option.some.inj same]
        split at read
        · exact read.symm
        · cases read
      · rename_i t e
        have t_eq : t = (s.attempt).2 := (congrArg Prod.fst e).symm
        refine ⟨fun k u held => ?_, by simp⟩
        rw [t_eq] at held
        exact forgetDisk_holds (s := s) (h := h) held
    · exact ⟨fun _ _ held => held, by simp⟩

/-- What is held is handed back, if its file can be read. -/
theorem get_some (held : s.Holds h bytes) (readable : s.files.ask.1 = true) : ∃ v, (s.get h).2 = some v := by
  unfold get
  cases known : s.ram h with
  | some v => exact ⟨v, rfl⟩
  | none =>
    rcases held with inRam | ⟨indexed, file⟩
    · exact absurd (known.symm.trans inRam) (by simp)
    · have read : s.readFile h = ((s.attempt).2, some bytes) := by
        unfold readFile attempt
        simp only [readable, if_true]
        exact congrArg _ file
      simp only [indexed, if_true, read]
      exact ⟨bytes, rfl⟩

end Entries

end SpillStore

end Vapi.Cache
