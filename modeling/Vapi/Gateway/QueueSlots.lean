import Vapi.Lib.Run

/-!
# The gateway's queue

Requests take a place in the queue, wait, and give it back: each handler's
atomic steps, in any order. The limit is the dashboard's to change.
-/

namespace Vapi.Gateway

open Transition

/-- A place in the queue, until it is given back. -/
structure QueueSlot where
  state : Bool
  deriving DecidableEq

/-- How far a handler is. -/
inductive Phase
  | idle
  | sized (max : UInt64)
  | looking (max cur : UInt64)
  | refused
  | waiting (slot : QueueSlot)
  | releasing (dropping : Bool)
  | dropped
  deriving DecidableEq

/-- What a handler does next. A weak exchange may fail for nothing. -/
inductive Action
  | loadMax
  | loadQueued
  | exchange (spurious : Bool)
  | release
  | drop
  | fetchSub
  deriving DecidableEq

/-- One atomic step of a handler: the counter after it, and how far the handler is. -/
def Phase.step (max queued : UInt64) : Phase → Action → Option (UInt64 × Phase)
  | .idle, .loadMax => some (queued, .sized max)
  | .sized max, .loadQueued => some (queued, .looking max queued)
  | .looking max cur, .exchange spurious =>
    if 0 < max ∧ max ≤ cur then some (queued, .refused)
    else if queued = cur ∧ !spurious then some (cur + 1, .waiting ⟨true⟩)
    else some (queued, .looking max queued)
  | .waiting slot, .release => some (queued, if slot.state then .releasing false else .waiting slot)
  | .waiting slot, .drop => some (queued, if slot.state then .releasing true else .dropped)
  | .releasing dropping, .fetchSub => some (queued - 1, if dropping then .dropped else .waiting ⟨false⟩)
  | _, _ => none

structure Queue where
  maxQueuedRequests : UInt64
  queued : UInt64
  requests : List Phase
  deriving DecidableEq

inductive Label
  | arrive
  | store (max : UInt64)
  | act (request : Nat) (action : Action)
  deriving DecidableEq

namespace Queue

def start (max : UInt64) : Queue := ⟨max, 0, []⟩

def exec (q : Queue) : Label → Option Queue
  | .arrive => some { q with requests := q.requests ++ [.idle] }
  | .store max => some { q with maxQueuedRequests := max }
  | .act i action => do
    let phase ← q.requests[i]?
    let (queued, phase) ← phase.step q.maxQueuedRequests q.queued action
    some { q with queued, requests := q.requests.set i phase }

def Step (q : Queue) (l : Label) (r : Queue) : Prop := q.exec l = some r

end Queue

/-- A place that is taken and not given back yet. -/
def Phase.holds : Phase → Bool
  | .waiting slot => slot.state
  | .releasing _ => true
  | _ => false

/-- The place is given back. -/
def Phase.done : Phase → Bool
  | .waiting slot => !slot.state
  | .dropped => true
  | _ => false

/-- The limit a handler goes by. -/
def Phase.max : Phase → Option UInt64
  | .sized max | .looking max _ => some max
  | _ => none

def Queue.held (q : Queue) : Nat := q.requests.countP Phase.holds

/-- A step takes a place, gives one back, or leaves the counter alone. -/
theorem Phase.step_cases {max queued queued' : UInt64} {p p' : Phase} {a : Action}
    (step : p.step max queued a = some (queued', p')) :
    (queued' = queued ∧ p'.holds = p.holds ∧ p'.done = p.done ∧ a ≠ .fetchSub ∧ ∀ m ∈ p'.max, m = max ∨ m ∈ p.max) ∨
    (∃ m, p = .looking m queued ∧ (0 < m → queued < m) ∧ queued' = queued + 1 ∧ p' = .waiting ⟨true⟩ ∧ a ≠ .fetchSub) ∨
    (∃ dropping, p = .releasing dropping ∧ a = .fetchSub ∧ queued' = queued - 1 ∧
      p' = if dropping then .dropped else .waiting ⟨false⟩) := by
  unfold Phase.step at step
  split at step
  · obtain ⟨rfl, rfl⟩ := Prod.mk.inj (Option.some.inj step)
    exact .inl ⟨rfl, rfl, rfl, nofun, by simp [Phase.max]⟩
  · obtain ⟨rfl, rfl⟩ := Prod.mk.inj (Option.some.inj step)
    exact .inl ⟨rfl, rfl, rfl, nofun, by simp [Phase.max]⟩
  · rename_i m cur spurious
    split at step
    · obtain ⟨rfl, rfl⟩ := Prod.mk.inj (Option.some.inj step)
      exact .inl ⟨rfl, rfl, rfl, nofun, by simp [Phase.max]⟩
    · rename_i room
      split at step
      · rename_i unchanged
        obtain ⟨rfl, -⟩ := unchanged
        obtain ⟨rfl, rfl⟩ := Prod.mk.inj (Option.some.inj step)
        exact .inr (.inl ⟨m, rfl, fun pos => UInt64.not_le.mp fun full => room ⟨pos, full⟩, rfl, rfl, nofun⟩)
      · obtain ⟨rfl, rfl⟩ := Prod.mk.inj (Option.some.inj step)
        exact .inl ⟨rfl, rfl, rfl, nofun, by simp [Phase.max]⟩
  · rename_i slot
    obtain ⟨rfl, rfl⟩ := Prod.mk.inj (Option.some.inj step)
    refine .inl ⟨rfl, ?_, ?_, nofun, ?_⟩ <;> cases held : slot.state <;> simp [Phase.holds, Phase.done, Phase.max, held]
  · rename_i slot
    obtain ⟨rfl, rfl⟩ := Prod.mk.inj (Option.some.inj step)
    refine .inl ⟨rfl, ?_, ?_, nofun, ?_⟩ <;> cases held : slot.state <;> simp [Phase.holds, Phase.done, Phase.max, held]
  · rename_i dropping
    obtain ⟨rfl, rfl⟩ := Prod.mk.inj (Option.some.inj step)
    exact .inr (.inr ⟨dropping, rfl, rfl, rfl, rfl⟩)
  · cases step

namespace Queue

/-- A step is a change of one request. -/
theorem step_act {q r : Queue} {i : Nat} {a : Action} (step : q.Step (.act i a) r) :
    ∃ p queued p', q.requests[i]? = some p ∧ p.step q.maxQueuedRequests q.queued a = some (queued, p') ∧
      r = ⟨q.maxQueuedRequests, queued, q.requests.set i p'⟩ := by
  simp only [Step, exec, Option.bind_eq_bind, Option.bind_eq_some_iff, Option.some.injEq] at step
  obtain ⟨p, at_, ⟨queued, p'⟩, next, rfl⟩ := step
  exact ⟨p, queued, p', at_, next, rfl⟩

theorem held_set {q : Queue} {i : Nat} {p : Phase} (at_ : q.requests[i]? = some p) (p' : Phase) (max queued : UInt64) :
    held ⟨max, queued, q.requests.set i p'⟩ + p.holds.toNat = q.held + p'.holds.toNat := by
  obtain ⟨inside, rfl⟩ := List.getElem?_eq_some_iff.mp at_
  have some_ : q.requests[i].holds → 0 < q.requests.countP Phase.holds := fun holds =>
    List.countP_pos_iff.mpr ⟨_, List.getElem_mem inside, holds⟩
  rw [held, held, List.countP_set inside]
  generalize q.requests.countP Phase.holds = n at *
  cases was : q.requests[i].holds <;> cases is : p'.holds <;> simp [was] at some_ ⊢ <;> omega

/-- The counter is the number of places held; every limit in use is a positive one, and none is exceeded. -/
structure Counted (bound : UInt64) (q : Queue) : Prop where
  held : q.queued.toNat = q.held
  within : q.queued ≤ bound
  limit : 0 < q.maxQueuedRequests ∧ q.maxQueuedRequests ≤ bound
  limits : ∀ p ∈ q.requests, ∀ m ∈ p.max, 0 < m ∧ m ≤ bound

variable {bound : UInt64} {q r : Queue} {l : Label}

theorem Counted.lowers {i : Nat} (counted : Counted bound q) (step : q.Step (.act i .fetchSub) r) :
    r.queued.toNat + 1 = q.queued.toNat := by
  obtain ⟨p, queued, p', at_, next, rfl⟩ := step_act step
  rcases Phase.step_cases next with ⟨-, -, -, other, -⟩ | ⟨-, -, -, -, -, other⟩ | ⟨dropping, rfl, -, rfl, rfl⟩
  · exact absurd rfl other
  · exact absurd rfl other
  · have pos : 0 < q.held := List.countP_pos_iff.mpr ⟨_, List.mem_of_getElem? at_, rfl⟩
    rw [← counted.held] at pos
    have one : (1 : UInt64) ≤ q.queued := UInt64.le_iff_toNat_le.mpr pos
    rw [UInt64.toNat_sub_of_le _ _ one, UInt64.toNat_one]
    omega

theorem Counted.step (counted : Counted bound q) (step : q.Step l r)
    (stored : ∀ max, l = .store max → 0 < max ∧ max ≤ bound) : Counted bound r := by
  cases l with
  | arrive =>
    obtain rfl := Option.some.inj step
    refine ⟨?_, counted.within, counted.limit, fun p mem => ?_⟩
    · simpa [Queue.held, Phase.holds] using counted.held
    · rcases List.mem_append.mp mem with mem | new
      · exact counted.limits p mem
      · obtain rfl := List.mem_singleton.mp new
        exact nofun
  | store max =>
    obtain rfl := Option.some.inj step
    exact ⟨counted.held, counted.within, stored max rfl, counted.limits⟩
  | act i a =>
    obtain ⟨p, queued, p', at_, next, rfl⟩ := step_act step
    have change := held_set at_ p' q.maxQueuedRequests queued
    have known := counted.limits p (List.mem_of_getElem? at_)
    have kept : ∀ {m}, m ∈ p'.max → m = q.maxQueuedRequests ∨ m ∈ p.max := by
      intro m mem
      rcases Phase.step_cases next with ⟨-, -, -, -, old⟩ | ⟨-, -, -, -, rfl, -⟩ | ⟨dropping, -, -, -, rfl⟩
      · exact old m mem
      · cases mem
      · cases dropping <;> cases mem
    have limits : ∀ p ∈ q.requests.set i p', ∀ m ∈ p.max, 0 < m ∧ m ≤ bound := by
      intro p₁ mem m at_m
      rcases List.mem_or_eq_of_mem_set mem with mem | rfl
      · exact counted.limits p₁ mem m at_m
      · rcases kept at_m with rfl | at_m
        · exact counted.limit
        · exact known m at_m
    rcases Phase.step_cases next with ⟨rfl, same, -⟩ | ⟨m, rfl, room, rfl, rfl, -⟩ | ⟨dropping, rfl, rfl, rfl, gone⟩
    · refine ⟨?_, counted.within, counted.limit, limits⟩
      rw [same] at change
      rw [counted.held]
      exact (Nat.add_right_cancel change).symm
    · have limited := known m rfl
      have below := UInt64.lt_iff_toNat_lt.mp (room limited.1)
      have fits := UInt64.le_iff_toNat_le.mp limited.2
      have raised : (q.queued + 1).toNat = q.queued.toNat + 1 := by
        rw [UInt64.toNat_add, UInt64.toNat_one]
        have := bound.toNat_lt
        omega
      refine ⟨?_, UInt64.le_iff_toNat_le.mpr ?_, counted.limit, limits⟩
      · have := counted.held
        simp only [Phase.holds, Bool.toNat_true, Bool.toNat_false] at change
        rw [raised]
        omega
      · rw [raised]
        omega
    · have lower := counted.lowers step
      have within := UInt64.le_iff_toNat_le.mp counted.within
      refine ⟨?_, UInt64.le_iff_toNat_le.mpr (by omega), counted.limit, limits⟩
      have := counted.held
      have freed : p'.holds = false := by rw [gone]; cases dropping <;> rfl
      rw [freed] at change
      simp only [Phase.holds, Bool.toNat_true, Bool.toNat_false] at change
      omega

/-- How often a request lowered the counter is read off its place. -/
def Released (labels : List Label) (q : Queue) : Prop :=
  ∀ i, labels.count (.act i .fetchSub) = (q.requests[i]?).elim 0 fun p => p.done.toNat

theorem Released.step {labels : List Label} (released : Released labels q) (step : q.Step l r) :
    Released (labels ++ [l]) r := by
  intro i
  rw [List.count_append, released i, List.count_singleton]
  cases l with
  | arrive =>
    obtain rfl := Option.some.inj step
    rcases Nat.lt_trichotomy i q.requests.length with inside | rfl | past
    · simp [List.getElem?_append_left inside]
    · simp [Phase.done]
    · have none_ : (q.requests ++ [.idle])[i]? = none := List.getElem?_eq_none (by simp; omega)
      simp [none_, List.getElem?_eq_none (Nat.le_of_lt past)]
  | store max =>
    obtain rfl := Option.some.inj step
    rfl
  | act j a =>
    obtain ⟨p, queued, p', at_, next, rfl⟩ := step_act step
    have inside := (List.getElem?_eq_some_iff.mp at_).1
    by_cases same : j = i
    · subst same
      rw [List.getElem?_set_self inside, at_]
      rcases Phase.step_cases next with
        ⟨-, -, done, other, -⟩ | ⟨m, rfl, -, -, rfl, other⟩ | ⟨dropping, rfl, rfl, -, rfl⟩
      · simp [done, other]
      · simp [Phase.done, other]
      · cases dropping <;> simp [Phase.done]
    · rw [List.getElem?_set_ne same]
      simp [same]

/-- What a request did to the counter. -/
def Touches (i : Nat) (q : Queue) (l : Label) (r : Queue) : Prop := (∃ action, l = .act i action) ∧ r.queued ≠ q.queued

/-- A request that took a place, whether or not it has given it back. -/
def Entered (i : Nat) (q : Queue) : Prop := ∃ p, q.requests[i]? = some p ∧ (p.holds ∨ p.done)

theorem Touches.entered {i : Nat} (touches : Touches i q l r) (step : q.Step l r) : Entered i r := by
  obtain ⟨⟨a, rfl⟩, changed⟩ := touches
  obtain ⟨p, queued, p', at_, next, rfl⟩ := step_act step
  refine ⟨p', List.getElem?_set_self (List.getElem?_eq_some_iff.mp at_).1, ?_⟩
  rcases Phase.step_cases next with ⟨same, -⟩ | ⟨m, -, -, -, rfl, -⟩ | ⟨dropping, -, -, -, rfl⟩
  · exact absurd same changed
  · exact .inl rfl
  · exact .inr (by cases dropping <;> rfl)

theorem Entered.step {i : Nat} (entered : Entered i q) (step : q.Step l r) : Entered i r := by
  obtain ⟨p₀, was, inside⟩ := entered
  cases l with
  | arrive =>
    obtain rfl := Option.some.inj step
    exact ⟨p₀, (List.getElem?_append_left (List.getElem?_eq_some_iff.mp was).1).trans was, inside⟩
  | store max =>
    obtain rfl := Option.some.inj step
    exact ⟨p₀, was, inside⟩
  | act j a =>
    obtain ⟨p, queued, p', at_, next, rfl⟩ := step_act step
    by_cases same : j = i
    · subst same
      obtain rfl := Option.some.inj (was.symm.trans at_)
      refine ⟨p', List.getElem?_set_self (List.getElem?_eq_some_iff.mp at_).1, ?_⟩
      rcases Phase.step_cases next with ⟨-, holds, done, -⟩ | ⟨m, -, -, -, rfl, -⟩ | ⟨dropping, -, -, -, rfl⟩
      · rwa [holds, done]
      · exact .inl rfl
      · exact .inr (by cases dropping <;> rfl)
    · exact ⟨p₀, (List.getElem?_set_ne same).trans was, inside⟩

variable {limit : UInt64} {labels : List Label}

theorem run_counted (run : Run Step (start limit) labels q) (limited : 0 < limit ∧ limit ≤ bound)
    (stores : ∀ max, .store max ∈ labels → 0 < max ∧ max ≤ bound) : Counted bound q := by
  have guarded : Run (Guarded (fun _ l => ∀ max, l = .store max → 0 < max ∧ max ≤ bound) Step) (start limit) labels q :=
    run.guard fun l mem _ max is => stores max (is ▸ mem)
  refine guarded.invariant (Counted bound) ⟨rfl, UInt64.zero_le, limited, nofun⟩ ?_
  exact fun _ _ _ counted step => counted.step step.2 step.1

theorem run_released (run : Run Step (start limit) labels q) : Released labels q := by
  induction run with
  | nil => exact fun i => rfl
  | snoc _ step ih => exact ih.step step

/-- In whatever order the handlers take their steps, the counter is the number of places taken and not given back;
each gives its place back once, and a request that is refused leaves the counter alone. -/
theorem slots_conserved (run : Run Step (start limit) labels q) (limited : 0 < limit ∧ limit ≤ bound)
    (stores : ∀ max, .store max ∈ labels → 0 < max ∧ max ≤ bound) :
    q.queued.toNat = q.held ∧ q.queued ≤ bound ∧
      (∀ i p, q.requests[i]? = some p → labels.count (.act i .fetchSub) = p.done.toNat) ∧
      ¬Done Step (fun a l b => (∃ i, l = .act i .fetchSub) ∧ b.queued.toNat + 1 ≠ a.queued.toNat)
        (start limit) labels q ∧
      ∀ i, q.requests[i]? = some .refused → ¬Done Step (Touches i) (start limit) labels q := by
  have counted := run_counted run limited stores
  refine ⟨counted.held, counted.within, fun i p at_ => ?_, ?_, ?_⟩
  · have released := run_released run i
    rwa [at_] at released
  · rintro ⟨before, l, after, a, b, rfl, first, step, -, ⟨i, rfl⟩, wrong⟩
    have counted := run_counted first limited fun max mem => stores max (List.mem_append_left _ mem)
    exact wrong (counted.lowers step)
  · rintro i refused ⟨before, l, after, a, b, -, -, step, rest, touches⟩
    obtain ⟨p, at_, entered⟩ := rest.invariant (Entered i) (touches.entered step) fun _ _ _ entered step =>
      entered.step step
    rw [refused] at at_
    obtain rfl := Option.some.inj at_
    rcases entered with holds | done
    · cases holds
    · cases done

/-- Two requests for one place. -/
def race : List Label :=
  [.arrive, .arrive, .act 0 .loadMax, .act 1 .loadMax, .act 0 .loadQueued, .act 1 .loadQueued, .act 0 (.exchange false),
    .act 1 (.exchange false), .act 1 (.exchange false), .act 0 .release, .act 0 .fetchSub, .act 0 .drop]

theorem slots_conserved_race : let q : Queue := ⟨1, 0, [.dropped, .refused]⟩
    q.queued.toNat = q.held ∧ q.queued ≤ 1 ∧
      (∀ i p, q.requests[i]? = some p → race.count (.act i .fetchSub) = p.done.toNat) ∧
      ¬Done Step (fun a l b => (∃ i, l = .act i .fetchSub) ∧ b.queued.toNat + 1 ≠ a.queued.toNat) (start 1) race q ∧
      ∀ i, q.requests[i]? = some .refused → ¬Done Step (Touches i) (start 1) race q :=
  slots_conserved (follow_iff.mp (by decide)) (by decide) (by simp [race])

end Queue

end Vapi.Gateway
