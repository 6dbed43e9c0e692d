import Vapi.Cache.Spill
import Vapi.Lib.Run
import Mathlib.Algebra.BigOperators.Group.List.Basic
import Mathlib.Algebra.Ring.Nat
import Mathlib.Data.List.Induction
import Mathlib.Data.List.Perm.Basic

/-!
# Runs of the spill tier

Whatever files fail, the counters and recency lists of both tiers agree with
their entries after every call, neither tier is over its limit, and what is
handed back is what was put down last while it was not held.
-/

namespace Vapi.Cache

open Transition (Run)

namespace SpillStore

variable {H V : Type} [DecidableEq H]

/-- Index one file of the directory. -/
def index (s : SpillStore H V) (x : H × V) : SpillStore H V :=
  { s with
    disk := Function.update s.disk x.1 (some (s.size x.2))
    diskLru := s.diskLru ++ [x.1]
    diskBytes := s.diskBytes + s.size x.2 }

/-- The bytes of a file among those listed. -/
def listed (listing : List (H × V)) (h : H) : Option V := (listing.find? fun x => x.1 = h).map Prod.snd

/-- The bytes there are when a store is opened. -/
def found (listing : List (H × V)) (dir : Bool) (diskMax : Nat) : H → Option V :=
  if dir ∧ 0 < diskMax then listed listing else fun _ => none

/-- A store over a directory with these files, in the order they are listed. -/
def opened (listing : List (H × V)) (dir : Bool) (ramMax diskMax : Nat) (size : V → Nat) (files : Oracle Bool) :
    SpillStore H V :=
  let s : SpillStore H V := .empty dir ramMax diskMax size files
  if dir ∧ 0 < diskMax then evictDisk { listing.foldl index s with dir := some (listed listing) } else s

/-- The entries of both tiers, with recency lists that may be detached. -/
structure Accounts (s : SpillStore H V) (ramLru diskLru : List H) : Prop where
  ramNodup : ramLru.Nodup
  ramKeys : ∀ h, h ∈ ramLru ↔ (s.ram h).isSome
  diskNodup : diskLru.Nodup
  diskKeys : ∀ h, h ∈ diskLru ↔ (s.disk h).isSome
  apart : ∀ h, (s.ram h).isSome → s.disk h = none
  ramBytes : s.ramBytes = (ramLru.map fun h => ((s.ram h).map s.size).getD 0).sum
  diskBytes : s.diskBytes = (diskLru.map fun h => (s.disk h).getD 0).sum
  written : ∀ h n, s.disk h = some n → ∃ bytes, s.dir.bind (· h) = some bytes ∧ s.size bytes = n

/-- Counters, lists, tiers and limits agree. -/
structure Tidy (s : SpillStore H V) : Prop where
  accounts : s.Accounts s.ramLru s.diskLru
  ramLimit : s.ramBytes ≤ s.ramMax
  diskLimit : s.diskBytes ≤ s.diskMax

namespace Accounts

variable {s t : SpillStore H V} {ramLru ramLru' diskLru diskLru' : List H} {h : H}

omit [DecidableEq H] in
theorem congr (a : s.Accounts ramLru diskLru) (ram : t.ram = s.ram) (disk : t.disk = s.disk)
    (ramBytes : t.ramBytes = s.ramBytes) (diskBytes : t.diskBytes = s.diskBytes) (size : t.size = s.size)
    (dir : ∀ h, (s.disk h).isSome → t.dir.bind (· h) = s.dir.bind (· h)) : t.Accounts ramLru diskLru where
  ramNodup := a.ramNodup
  ramKeys := ram ▸ a.ramKeys
  diskNodup := a.diskNodup
  diskKeys := disk ▸ a.diskKeys
  apart := by rw [ram, disk]; exact a.apart
  ramBytes := by rw [ramBytes, ram, size]; exact a.ramBytes
  diskBytes := by rw [diskBytes, disk]; exact a.diskBytes
  written h n known := by
    rw [disk] at known
    rw [dir h (by rw [known]; rfl), size]
    exact a.written h n known

omit [DecidableEq H] in
/-- The order of the lists does not matter. -/
theorem perm (a : s.Accounts ramLru diskLru) (ram : ramLru.Perm ramLru') (disk : diskLru.Perm diskLru') :
    s.Accounts ramLru' diskLru' where
  ramNodup := ram.nodup_iff.mp a.ramNodup
  ramKeys h := ram.mem_iff.symm.trans (a.ramKeys h)
  diskNodup := disk.nodup_iff.mp a.diskNodup
  diskKeys h := disk.mem_iff.symm.trans (a.diskKeys h)
  apart := a.apart
  ramBytes := a.ramBytes.trans (ram.map _).sum_eq
  diskBytes := a.diskBytes.trans (disk.map _).sum_eq
  written := a.written

/-- The first disk entry is no longer indexed. -/
theorem unlist (a : s.Accounts ramLru (h :: diskLru)) :
    ({ s with
        disk := Function.update s.disk h none
        diskBytes := s.diskBytes - (s.disk h).getD 0 } : SpillStore H V).Accounts ramLru diskLru where
  ramNodup := a.ramNodup
  ramKeys := a.ramKeys
  diskNodup := (List.nodup_cons.mp a.diskNodup).2
  diskKeys x := by
    have out := (List.nodup_cons.mp a.diskNodup).1
    have keys := a.diskKeys x
    dsimp only
    rw [Function.update_apply]
    split
    · rename_i same
      simpa [same] using out
    · rename_i other
      rw [← keys, List.mem_cons]
      exact (or_iff_right other).symm
  apart x inRam := by
    dsimp only
    rw [Function.update_apply]
    split
    · rfl
    · exact a.apart x inRam
  ramBytes := a.ramBytes
  diskBytes := by
    have out := (List.nodup_cons.mp a.diskNodup).1
    have sum := a.diskBytes
    dsimp only
    rw [sum, List.map_cons, List.sum_cons, Nat.add_sub_cancel_left]
    refine congrArg List.sum (List.map_congr_left fun x hx => ?_)
    rw [Function.update_of_ne (ne_of_mem_of_not_mem hx out)]
  written x n known := by
    dsimp only at known
    rw [Function.update_apply] at known
    split at known
    · cases known
    · exact a.written x n known

/-- The first disk entry is dropped, whether its file goes or not. -/
theorem dropDisk (a : s.Accounts ramLru (h :: diskLru)) : (s.dropDisk h).Accounts ramLru diskLru := by
  refine a.unlist.congr rfl rfl rfl rfl rfl fun x indexed => ?_
  have other : x ≠ h := by
    rintro rfl
    dsimp only at indexed
    rw [Function.update_self] at indexed
    cases indexed
  change (if s.files.ask.1 then s.dir.map fun files => Function.update files h none else s.dir).bind (· x) =
    s.dir.bind (· x)
  split
  · cases s.dir with
    | none => rfl
    | some files => exact Function.update_of_ne other ..
  · rfl

/-- The first entry of host memory is taken out. -/
theorem dropRam {bytes : V} (a : s.Accounts (h :: ramLru) diskLru) (known : s.ram h = some bytes) :
    ({ s with ram := Function.update s.ram h none, ramBytes := s.ramBytes - s.size bytes } : SpillStore H V).Accounts
      ramLru diskLru where
  ramNodup := (List.nodup_cons.mp a.ramNodup).2
  ramKeys x := by
    have out := (List.nodup_cons.mp a.ramNodup).1
    have keys := a.ramKeys x
    dsimp only
    rw [Function.update_apply]
    split
    · rename_i same
      simpa [same] using out
    · rename_i other
      rw [← keys, List.mem_cons]
      exact (or_iff_right other).symm
  diskNodup := a.diskNodup
  diskKeys := a.diskKeys
  apart x inRam := by
    dsimp only at inRam
    rw [Function.update_apply] at inRam
    split at inRam
    · cases inRam
    · exact a.apart x inRam
  ramBytes := by
    have out := (List.nodup_cons.mp a.ramNodup).1
    have sum := a.ramBytes
    rw [List.map_cons, List.sum_cons, known, Option.map_some, Option.getD_some] at sum
    change s.ramBytes - s.size bytes = _
    rw [sum, Nat.add_sub_cancel_left]
    refine congrArg List.sum (List.map_congr_left fun x hx => ?_)
    dsimp only
    rw [Function.update_of_ne (ne_of_mem_of_not_mem hx out)]
  diskBytes := a.diskBytes
  written := a.written

/-- A new entry of host memory. -/
theorem addRam (a : s.Accounts ramLru diskLru) (ram : s.ram h = none) (disk : s.disk h = none) (bytes : V) :
    ({ s with
        ramBytes := s.ramBytes + s.size bytes
        ram := Function.update s.ram h (some bytes) } : SpillStore H V).Accounts (ramLru ++ [h]) diskLru := by
  have out : h ∉ ramLru := by rw [a.ramKeys, ram]; simp
  exact {
    ramNodup := List.nodup_append.mpr ⟨a.ramNodup, List.pairwise_singleton _ h, by
      rintro x hx y hy rfl
      exact out (List.mem_singleton.mp hy ▸ hx)⟩
    ramKeys := fun x => by
      have keys := a.ramKeys x
      dsimp only
      rw [Function.update_apply, List.mem_append, List.mem_singleton]
      split
      · rename_i same
        simp [same]
      · rename_i other
        rw [← keys]
        exact or_iff_left other
    diskNodup := a.diskNodup
    diskKeys := a.diskKeys
    apart := fun x inRam => by
      dsimp only at inRam
      rw [Function.update_apply] at inRam
      split at inRam
      · rename_i same
        exact same ▸ disk
      · exact a.apart x inRam
    ramBytes := by
      have sum := a.ramBytes
      dsimp only
      rw [List.map_append, List.sum_append, List.map_singleton, List.sum_singleton, Function.update_self]
      rw [Option.map_some, Option.getD_some, sum]
      refine congrArg (· + s.size bytes) (congrArg List.sum (List.map_congr_left fun x hx => ?_))
      rw [Function.update_of_ne (ne_of_mem_of_not_mem hx out)]
    diskBytes := a.diskBytes
    written := a.written }

/-- A new entry of the disk tier, whose file was just written. -/
theorem addDisk {files : H → Option V} (a : s.Accounts ramLru diskLru) (ram : s.ram h = none) (disk : s.disk h = none)
    (dir : s.dir = some files) (bytes : V) :
    ({ s with
        dir := some (Function.update files h (some bytes))
        diskBytes := s.diskBytes + s.size bytes
        disk := Function.update s.disk h (some (s.size bytes)) } : SpillStore H V).Accounts ramLru
      (diskLru ++ [h]) := by
  have out : h ∉ diskLru := by rw [a.diskKeys, disk]; simp
  exact {
    ramNodup := a.ramNodup
    ramKeys := a.ramKeys
    diskNodup := List.nodup_append.mpr ⟨a.diskNodup, List.pairwise_singleton _ h, by
      rintro x hx y hy rfl
      exact out (List.mem_singleton.mp hy ▸ hx)⟩
    diskKeys := fun x => by
      have keys := a.diskKeys x
      dsimp only
      rw [Function.update_apply, List.mem_append, List.mem_singleton]
      split
      · rename_i same
        simp [same]
      · rename_i other
        rw [← keys]
        exact or_iff_left other
    apart := fun x inRam => by
      have other : x ≠ h := by
        rintro rfl
        rw [ram] at inRam
        cases inRam
      exact (Function.update_of_ne other ..).trans (a.apart x inRam)
    ramBytes := a.ramBytes
    diskBytes := by
      have sum := a.diskBytes
      dsimp only
      rw [List.map_append, List.sum_append, List.map_singleton, List.sum_singleton, Function.update_self]
      rw [Option.getD_some, sum]
      refine congrArg (· + s.size bytes) (congrArg List.sum (List.map_congr_left fun x hx => ?_))
      rw [Function.update_of_ne (ne_of_mem_of_not_mem hx out)]
    written := fun x n known => by
      dsimp only at known
      rw [Function.update_apply] at known
      split at known
      · rename_i same
        refine ⟨bytes, ?_, Option.some.inj known⟩
        rw [same]
        exact Function.update_self ..
      · rename_i other
        obtain ⟨u, file, size⟩ := a.written x n known
        refine ⟨u, ?_, size⟩
        rw [dir] at file
        exact (Function.update_of_ne other ..).trans file }

end Accounts

section Loops

variable {s : SpillStore H V}

/-- What the disk loop leaves alone. -/
theorem evictDiskLoop_frame (l : List H) (s : SpillStore H V) :
    (evictDiskLoop l s).ram = s.ram ∧ (evictDiskLoop l s).ramLru = s.ramLru ∧
      (evictDiskLoop l s).ramMax = s.ramMax ∧ (evictDiskLoop l s).ramBytes = s.ramBytes ∧ (evictDiskLoop l s).diskMax = s.diskMax ∧
      (evictDiskLoop l s).size = s.size := by
  induction l generalizing s with
  | nil => exact ⟨rfl, rfl, rfl, rfl, rfl, rfl⟩
  | cons h l ih =>
    unfold evictDiskLoop
    split
    · exact ih _
    · exact ⟨rfl, rfl, rfl, rfl, rfl, rfl⟩

/-- Entries go from the disk tier until it is within its limit. -/
theorem evictDiskLoop_accounts {ramLru l : List H} (a : s.Accounts ramLru l) :
    (evictDiskLoop l s).Accounts ramLru (evictDiskLoop l s).diskLru ∧
      (evictDiskLoop l s).diskBytes ≤ (evictDiskLoop l s).diskMax := by
  induction l generalizing s with
  | nil =>
    refine ⟨a.congr rfl rfl rfl rfl rfl fun _ _ => rfl, ?_⟩
    change s.diskBytes ≤ s.diskMax
    rw [a.diskBytes]
    exact Nat.zero_le _
  | cons h l ih =>
    unfold evictDiskLoop
    split
    · exact ih a.dropDisk
    · rename_i within
      exact ⟨a.congr rfl rfl rfl rfl rfl fun _ _ => rfl, Nat.le_of_not_lt within⟩

/-- What a move leaves alone. -/
theorem moveOut_frame (s : SpillStore H V) (h : H) :
    (s.moveOut h).ramMax = s.ramMax ∧ (s.moveOut h).diskMax = s.diskMax ∧ (s.moveOut h).size = s.size := by
  unfold moveOut
  split
  · exact ⟨rfl, rfl, rfl⟩
  · simp only
    split
    · exact ⟨rfl, rfl, rfl⟩
    · split
      · exact ⟨rfl, rfl, rfl⟩
      · split
        · obtain ⟨-, -, ramMax, -, diskMax, size⟩ := evictDiskLoop_frame (H := H) (V := V) _ _
          exact ⟨ramMax, diskMax, size⟩
        · exact ⟨rfl, rfl, rfl⟩

/-- One entry leaves host memory; the disk tier stays within its limit. -/
theorem moveOut_accounts {h : H} {l : List H} (a : s.Accounts (h :: l) s.diskLru) (limit : s.diskBytes ≤ s.diskMax) :
    (s.moveOut h).Accounts l (s.moveOut h).diskLru ∧ (s.moveOut h).diskBytes ≤ (s.moveOut h).diskMax := by
  obtain ⟨bytes, known⟩ := Option.isSome_iff_exists.mp ((a.ramKeys h).mp List.mem_cons_self)
  have dropped := a.dropRam known
  have disk : s.disk h = none := a.apart h (by rw [known]; rfl)
  unfold moveOut
  rw [known]
  simp only
  split
  · exact ⟨dropped.congr rfl rfl rfl rfl rfl fun _ _ => rfl, limit⟩
  · rename_i files directory
    split
    · exact ⟨dropped.congr rfl rfl rfl rfl rfl fun _ _ => rfl, limit⟩
    · split
      · have added := dropped.addDisk (Function.update_self ..) disk directory bytes
        exact evictDiskLoop_accounts (added.congr rfl rfl rfl rfl rfl fun _ _ => rfl)
      · exact ⟨dropped.congr rfl rfl rfl rfl rfl fun _ _ => rfl, limit⟩

/-- Entries leave host memory until it is within its limit. -/
theorem evictRamLoop_tidy {l : List H} (a : s.Accounts l s.diskLru) (limit : s.diskBytes ≤ s.diskMax) :
    (evictRamLoop l s).Tidy := by
  induction l generalizing s with
  | nil =>
    refine ⟨a.congr rfl rfl rfl rfl rfl fun _ _ => rfl, ?_, limit⟩
    change s.ramBytes ≤ s.ramMax
    rw [a.ramBytes]
    exact Nat.zero_le _
  | cons h l ih =>
    unfold evictRamLoop
    split
    · obtain ⟨rest, within⟩ := moveOut_accounts a limit
      exact ih rest within
    · rename_i within
      exact ⟨a.congr rfl rfl rfl rfl rfl fun _ _ => rfl, Nat.le_of_not_lt within, limit⟩

end Loops

section Calls

variable {s : SpillStore H V} {h : H} {bytes : V}

theorem put_tidy (tidy : s.Tidy) : (s.put h bytes).Tidy := by
  unfold put
  split
  · exact tidy
  · rename_i absent
    split
    · exact ⟨tidy.accounts.congr rfl rfl rfl rfl rfl fun _ _ => rfl, tidy.ramLimit, tidy.diskLimit⟩
    · simp only [contains, Bool.or_eq_true, not_or, Bool.not_eq_true, Option.isSome_eq_false_iff,
        Option.isNone_iff_eq_none] at absent
      have added := tidy.accounts.addRam absent.1 absent.2 bytes
      exact evictRamLoop_tidy (added.congr rfl rfl rfl rfl rfl fun _ _ => rfl) tidy.diskLimit

/-- A key that is used goes to the end. -/
theorem touched_perm {l : List H} (nodup : l.Nodup) (mem : h ∈ l) : l.Perm (l.filter (· ≠ h) ++ [h]) := by
  have erased : l.filter (· ≠ h) = l.erase h := by
    rw [nodup.erase_eq_filter]
    exact List.filter_congr fun x _ => by simp [bne, beq_eq_decide]
  rw [erased]
  exact (List.perm_cons_erase mem).trans (List.perm_append_singleton h _).symm

theorem get_tidy (tidy : s.Tidy) : (s.get h).1.Tidy := by
  have a := tidy.accounts
  unfold get
  cases known : s.ram h with
  | some bytes =>
    have mem : h ∈ s.ramLru := (a.ramKeys h).mpr (by rw [known]; rfl)
    have moved := a.perm (touched_perm a.ramNodup mem) (.refl _)
    exact ⟨moved.congr rfl rfl rfl rfl rfl fun _ _ => rfl, tidy.ramLimit, tidy.diskLimit⟩
  | none =>
    dsimp only
    split
    · rename_i indexed
      have moved := a.perm (.refl _) (touched_perm a.diskNodup ((a.diskKeys h).mpr indexed))
      split
      · rename_i t bytes e
        obtain rfl : s.attempt.2 = t := congrArg Prod.fst e
        exact ⟨moved.congr rfl rfl rfl rfl rfl fun _ _ => rfl, tidy.ramLimit, tidy.diskLimit⟩
      · rename_i t e
        obtain rfl : s.attempt.2 = t := congrArg Prod.fst e
        have unlisted := (a.perm (.refl _) ((touched_perm a.diskNodup ((a.diskKeys h).mpr indexed)).trans
          (List.perm_append_singleton h _))).unlist
        refine ⟨unlisted.congr rfl rfl rfl rfl rfl fun _ _ => rfl, tidy.ramLimit, ?_⟩
        exact Nat.le_trans (Nat.sub_le _ _) tidy.diskLimit
    · exact ⟨a.congr rfl rfl rfl rfl rfl fun _ _ => rfl, tidy.ramLimit, tidy.diskLimit⟩

end Calls

section Opening

variable {listing : List (H × V)} {dir : Bool} {ramMax diskMax : Nat} {size : V → Nat} {files : Oracle Bool}

theorem listed_snoc {x : H × V} (new : x.1 ∉ listing.map Prod.fst) :
    listed (listing ++ [x]) = Function.update (listed listing) x.1 (some x.2) := by
  funext h
  unfold listed
  rw [List.find?_append, Function.update_apply]
  split
  · rename_i same
    have none_ : (listing.find? fun y => y.1 = h) = none := by
      rw [List.find?_eq_none]
      intro y hy eq
      exact new (List.mem_map.mpr ⟨y, hy, (of_decide_eq_true eq).trans same⟩)
    rw [none_]
    simp [same]
  · rename_i other
    have skip : ([x].find? fun y => y.1 = h) = none := by simp [Ne.symm other]
    rw [skip, Option.or_none]

/-- The files of the directory, each indexed once. -/
theorem index_accounts (nodup : (listing.map Prod.fst).Nodup) {s : SpillStore H V}
    (start : s = .empty dir ramMax diskMax size files) :
    let t := listing.foldl index s
    t.ram = (fun _ => none) ∧ t.diskLru = listing.map Prod.fst ∧ t.ramLru = [] ∧
      ({ t with dir := some (listed listing) } : SpillStore H V).Accounts [] t.diskLru ∧ t.ramBytes ≤ t.ramMax := by
  induction listing using List.reverseRecOn with
  | nil =>
    subst start
    refine ⟨rfl, rfl, rfl, ?_, Nat.zero_le _⟩
    exact ⟨.nil, by simp [empty], .nil, by simp [empty], by simp [empty], rfl, rfl, by simp [empty]⟩
  | append_singleton listing x ih =>
    rw [List.map_append, List.nodup_append] at nodup
    obtain ⟨ram, diskLru, ramLru, accounts, limit⟩ := ih nodup.1
    have new : x.1 ∉ listing.map Prod.fst := fun mem => nodup.2.2 _ mem _ (by simp) rfl
    have absent : (listing.foldl index s).disk x.1 = none := by
      have keys := accounts.diskKeys x.1
      rw [diskLru] at keys
      simpa using fun present => new (keys.mpr (Option.isSome_iff_ne_none.mpr present))
    have added := accounts.addDisk (congrFun ram x.1) absent rfl x.2
    rw [List.foldl_append, List.map_append]
    refine ⟨ram, congrArg (· ++ [x.1]) diskLru, ramLru, ?_, limit⟩
    refine added.congr rfl rfl rfl rfl rfl fun h _ => ?_
    rw [listed_snoc new]

theorem opened_tidy (nodup : (listing.map Prod.fst).Nodup) : (opened listing dir ramMax diskMax size files).Tidy := by
  unfold opened
  dsimp only
  split
  · obtain ⟨-, -, ramLru, accounts, limit⟩ := index_accounts nodup
      (rfl : (empty dir ramMax diskMax size files : SpillStore H V) = .empty dir ramMax diskMax size files)
    obtain ⟨rest, within⟩ := evictDiskLoop_accounts accounts
    obtain ⟨-, sameLru, sameMax, sameBytes, -, -⟩ := evictDiskLoop_frame (H := H) (V := V) _ _
    refine ⟨?_, ?_, within⟩
    · rw [evictDisk, sameLru]
      exact ramLru ▸ rest
    · rw [evictDisk, sameBytes, sameMax]
      exact limit
  · exact ⟨⟨.nil, by simp [empty], .nil, by simp [empty], by simp [empty], rfl, rfl, by simp [empty]⟩,
      Nat.zero_le _, Nat.zero_le _⟩

/-- What a store holds when it is opened is what the directory had. -/
theorem opened_holds (nodup : (listing.map Prod.fst).Nodup) {h : H} {bytes : V}
    (held : (opened listing dir ramMax diskMax size files).Holds h bytes) :
    found listing dir diskMax h = some bytes := by
  unfold opened at held
  unfold found
  dsimp only at held
  split at held
  · rename_i used
    rw [if_pos used]
    obtain ⟨ram, -⟩ := index_accounts nodup
      (rfl : (empty dir ramMax diskMax size files : SpillStore H V) = .empty dir ramMax diskMax size files)
    rcases evictDiskLoop_holds _ held with inRam | ⟨-, file⟩
    · cases (congrFun ram h).symm.trans inRam
    · exact file
  · exact (empty_holds _ _ _ _ _ _ _ held).elim

end Opening

section Calls

/-- A call of the store. -/
inductive Call (H V : Type)
  | put (h : H) (bytes : V)
  | get (h : H)

/-- The store after a call, and what was handed back. -/
def Call.run (s : SpillStore H V) : Call H V → SpillStore H V × Option V
  | .put h bytes => (s.put h bytes, none)
  | .get h => s.get h

/-- A call that failed to write or to remove a file may leave anything under a
hash that is not indexed. -/
structure Leaves (s t : SpillStore H V) : Prop where
  same : t = { s with dir := t.dir }
  dir : t.dir.isSome = s.dir.isSome
  kept : ∀ h, (s.disk h).isSome → t.dir.bind (· h) = s.dir.bind (· h)

/-- The bytes put last under each hash while the store did not hold it. -/
def accepted (s : SpillStore H V) (latest : H → Option V) : Call H V → H → Option V
  | .put h bytes => if s.contains h then latest else Function.update latest h (some bytes)
  | .get _ => latest

/-- A call, and what its failed file operations leave behind. -/
def Calls (w : SpillStore H V × (H → Option V)) (c : Call H V) (w' : SpillStore H V × (H → Option V)) : Prop :=
  Leaves (c.run w.1).1 w'.1 ∧ w'.2 = accepted w.1 w.2 c

variable {s t : SpillStore H V} {h : H} {bytes : V}

omit [DecidableEq H] in
theorem Leaves.tidy (l : Leaves s t) (tidy : s.Tidy) : t.Tidy := by
  obtain ⟨same, -, kept⟩ := l
  rw [same]
  exact ⟨tidy.accounts.congr rfl rfl rfl rfl rfl kept, tidy.ramLimit, tidy.diskLimit⟩

omit [DecidableEq H] in
theorem Leaves.holds (l : Leaves s t) (held : t.Holds h bytes) : s.Holds h bytes := by
  obtain ⟨same, -, kept⟩ := l
  rw [same] at held
  refine held.imp_right fun ⟨indexed, file⟩ => ⟨indexed, ?_⟩
  exact (kept h indexed).symm.trans file

omit [DecidableEq H] in
theorem Holds.contains (held : s.Holds h bytes) : s.contains h = true := by
  rcases held with inRam | ⟨indexed, -⟩
  · simp [SpillStore.contains, inRam]
  · simp [SpillStore.contains, indexed]

theorem Call.run_tidy (c : Call H V) (tidy : s.Tidy) : (c.run s).1.Tidy := by
  cases c with
  | put h bytes => exact put_tidy tidy
  | get h => exact get_tidy tidy

/-- What is held after a call was accepted before it or by it. -/
theorem Call.run_accepted (c : Call H V) {latest : H → Option V} (known : ∀ h b, s.Holds h b → latest h = some b)
    (held : (c.run s).1.Holds h bytes) : accepted s latest c h = some bytes := by
  cases c with
  | get k => exact known h bytes (get_holds.1 h bytes held)
  | put k b =>
    change (if s.contains k then latest else Function.update latest k (some b)) h = some bytes
    split
    · rename_i present
      change (s.put k b).Holds h bytes at held
      unfold SpillStore.put at held
      rw [if_pos present] at held
      exact known h bytes held
    · rename_i absent
      rw [Function.update_apply]
      rcases put_holds held with before | ⟨rfl, rfl⟩
      · have other : h ≠ k := by
          rintro rfl
          exact absent before.contains
        rw [if_neg other]
        exact known h bytes before
      · rw [if_pos rfl]

/-- After every call the tiers are in order, and what is handed back is what
was put last while it was not held, or what the directory had when opened. -/
theorem accounts_and_bytes {listing : List (H × V)} (nodup : (listing.map Prod.fst).Nodup) {dir : Bool}
    {ramMax diskMax : Nat} {size : V → Nat} {files : Oracle Bool} {latest : H → Option V} {calls : List (Call H V)}
    (run : Run Calls (opened listing dir ramMax diskMax size files, found listing dir diskMax) calls (s, latest)) :
    s.Tidy ∧ ∀ h bytes, (s.get h).2 = some bytes → latest h = some bytes := by
  have inv := run.invariant (fun w => w.1.Tidy ∧ ∀ h b, w.1.Holds h b → w.2 h = some b)
    ⟨opened_tidy nodup, fun _ _ => opened_holds nodup⟩ fun w c w' inv step => by
      obtain ⟨leaves, latest⟩ := step
      refine ⟨leaves.tidy (c.run_tidy inv.1), fun h b held => ?_⟩
      rw [latest]
      exact c.run_accepted inv.2 (leaves.holds held)
  exact ⟨inv.1, fun h bytes reply => inv.2 h bytes (get_holds.2 bytes reply)⟩

/-- One block in host memory, the other pushed out to its file. -/
theorem accounts_and_bytes_two :
    let s := ((opened ([] : List (Nat × Nat)) true 1 2 (fun _ => 1) ⟨fun _ => true, 0⟩).put 0 7).put 1 8
    s.Tidy ∧ ∀ h bytes, (s.get h).2 = some bytes →
      Function.update (Function.update (fun _ => none) 0 (some 7)) 1 (some 8) h = some bytes :=
  let s₀ := opened ([] : List (Nat × Nat)) true 1 2 (fun _ => 1) ⟨fun _ => true, 0⟩
  let s₁ := s₀.put 0 7
  have first : Calls (s₀, fun _ => none) (.put 0 7) (s₁, Function.update (fun _ => none) 0 (some 7)) :=
    ⟨⟨rfl, rfl, fun _ _ => rfl⟩, rfl⟩
  have second : Calls (s₁, Function.update (fun _ => none) 0 (some 7)) (.put 1 8)
      (s₁.put 1 8, Function.update (Function.update (fun _ => none) 0 (some 7)) 1 (some 8)) :=
    ⟨⟨rfl, rfl, fun _ _ => rfl⟩, rfl⟩
  have no_files : (([] : List (Nat × Nat)).map Prod.fst).Nodup := List.nodup_nil
  accounts_and_bytes no_files ((Run.nil.snoc first).snoc second)

/-- Bytes put under a hash that is held are not taken. -/
theorem second_put_ignored :
    ((((opened ([] : List (Nat × Nat)) false 10 0 id ⟨fun _ => true, 0⟩).put 0 1).put 0 2).get 0).2 = some 1 := by
  decide

end Calls

end SpillStore

end Vapi.Cache
