import Mathlib.Data.List.Nodup
import Mathlib.Logic.Function.Basic

/-!
# Intrusive doubly linked lists

The links of a list whose cells are the elements themselves: two partial maps
and two end pointers. `Represents L l` says that the links spell out `l`;
every operation on the links is the list operation it stands for, and walking
the links in either direction visits `l`.
-/

namespace IntrusiveList

variable {α : Type} [DecidableEq α]

structure Links (α : Type) where
  prev : α → Option α
  next : α → Option α
  head : Option α
  tail : Option α

def Links.empty : Links α := ⟨fun _ => none, fun _ => none, none, none⟩

def Links.pushFront (L : Links α) (a : α) : Links α :=
  match L.head with
  | some h => ⟨Function.update (Function.update L.prev a none) h (some a),
      Function.update L.next a (some h), some a, L.tail⟩
  | none => ⟨Function.update L.prev a none, Function.update L.next a none, some a, some a⟩

def Links.pushBack (L : Links α) (a : α) : Links α :=
  match L.tail with
  | some t => ⟨Function.update L.prev a (some t),
      Function.update (Function.update L.next a none) t (some a), L.head, some a⟩
  | none => ⟨Function.update L.prev a none, Function.update L.next a none, some a, some a⟩

def Links.unlink (L : Links α) (a : α) : Links α :=
  let next := match L.prev a with
    | some p => Function.update L.next p (L.next a)
    | none => L.next
  let prev := match L.next a with
    | some n => Function.update L.prev n (L.prev a)
    | none => L.prev
  ⟨Function.update prev a none, Function.update next a none,
    if (L.prev a).isSome then L.head else L.next a,
    if (L.next a).isSome then L.tail else L.prev a⟩

/-- The same links read from the other end. -/
def Links.flip (L : Links α) : Links α := ⟨L.next, L.prev, L.tail, L.head⟩

/-- The links spell out `l`: wherever `l` is cut around an element, that
element points back to the end of the left part and on to the right part. -/
structure Represents (L : Links α) (l : List α) : Prop where
  nodup : l.Nodup
  head : L.head = l.head?
  tail : L.tail = l.getLast?
  around : ∀ x a y, l = x ++ a :: y → L.prev a = x.getLast? ∧ L.next a = y.head?

omit [DecidableEq α] in
theorem empty_represents : Represents (Links.empty : Links α) [] :=
  ⟨List.nodup_nil, rfl, rfl, by intro x a y h; simp at h⟩

omit [DecidableEq α] in
theorem flip_represents {L : Links α} {l : List α} (h : Represents L l) :
    Represents L.flip l.reverse := by
  refine ⟨List.nodup_reverse.mpr h.nodup, by simp [Links.flip, h.tail],
    by simp [Links.flip, h.head], ?_⟩
  intro x a y e
  have e' : l = y.reverse ++ a :: x.reverse := by
    have := congrArg List.reverse e
    simpa using this
  obtain ⟨hp, hn⟩ := h.around _ a _ e'
  exact ⟨by simpa [Links.flip] using hn, by simpa [Links.flip] using hp⟩

theorem pushFront_represents {L : Links α} {l : List α} (h : Represents L l) {b : α}
    (hb : b ∉ l) : Represents (L.pushFront b) (b :: l) := by
  cases l with
  | nil =>
    have hd : L.head = none := by simpa using h.head
    refine ⟨by simp, by simp [Links.pushFront, hd], by simp [Links.pushFront, hd], ?_⟩
    intro x a y e
    cases x with
    | nil => simp at e; obtain ⟨rfl, rfl⟩ := e; simp [Links.pushFront, hd]
    | cons c x => simp at e
  | cons c l =>
    have hd : L.head = some c := by simpa using h.head
    have hbc : b ≠ c := fun e => hb (by simp [e])
    refine ⟨List.nodup_cons.mpr ⟨hb, h.nodup⟩, by simp [Links.pushFront, hd],
      by simpa [Links.pushFront, hd] using h.tail, ?_⟩
    intro x a y e
    cases x with
    | nil =>
      simp only [List.nil_append, List.cons.injEq] at e
      obtain ⟨rfl, rfl⟩ := e
      simp [Links.pushFront, hd, hbc]
    | cons d x =>
      simp only [List.cons_append, List.cons.injEq] at e
      obtain ⟨rfl, e⟩ := e
      obtain ⟨hp, hn⟩ := h.around x a y e
      have hba : a ≠ b := fun eq => hb (by simp [e, eq])
      cases x with
      | nil =>
        simp only [List.nil_append, List.cons.injEq] at e
        obtain ⟨rfl, rfl⟩ := e
        simp [Links.pushFront, hd, hba, hn]
      | cons d' x =>
        simp only [List.cons_append, List.cons.injEq] at e
        obtain ⟨rfl, rfl⟩ := e
        have hca : a ≠ c := by
          intro eq
          have := (List.nodup_cons.mp h.nodup).1
          simp [eq] at this
        simp [Links.pushFront, hd, hba, hca, hp, hn]

theorem pushBack_flip (L : Links α) (b : α) : L.pushBack b = (L.flip.pushFront b).flip := by
  obtain ⟨prev, next, head, tail⟩ := L
  cases tail <;> rfl

/-- Pushing at the back is pushing at the front of the flipped links. -/
theorem pushBack_represents {L : Links α} {l : List α} (h : Represents L l) {b : α}
    (hb : b ∉ l) : Represents (L.pushBack b) (l ++ [b]) := by
  have hf := flip_represents (pushFront_represents (flip_represents h) (b := b) (by simpa using hb))
  simpa [pushBack_flip] using hf

theorem unlink_flip (L : Links α) (a : α) : L.unlink a = (L.flip.unlink a).flip := rfl

/-- After `a` is unlinked every other element goes on to what follows it. -/
theorem unlink_next {L : Links α} {x y : List α} {a : α} (h : Represents L (x ++ a :: y))
    {u : List α} {c : α} {v : List α} (e : x ++ y = u ++ c :: v) :
    (L.unlink a).next c = v.head? := by
  obtain ⟨hp, hn⟩ := h.around x a y rfl
  have nodup := List.nodup_append.mp h.nodup
  have hca : c ≠ a := by
    rintro rfl
    have hc : c ∈ x ++ y := by simp [e]
    rcases List.mem_append.mp hc with hc | hc
    · exact nodup.2.2 c hc c (by simp) rfl
    · exact (List.nodup_cons.mp nodup.2.1).1 hc
  have hnext : (L.unlink a).next c = if x.getLast? = some c then y.head? else L.next c := by
    simp only [Links.unlink, hp, hn, Function.update_apply, hca, if_false]
    cases x.getLast? with
    | none => simp
    | some p => simp [Function.update_apply, eq_comm]
  rw [hnext]
  rcases List.append_eq_append_iff.mp e with ⟨m, rfl, rfl⟩ | ⟨m, rfl, e'⟩
  · have hcx : x.getLast? ≠ some c := by
      intro hl
      exact nodup.2.2 c (List.mem_of_getLast? hl) c (by simp) rfl
    rw [if_neg hcx]
    exact (h.around (x ++ a :: m) c v (by simp)).2
  · cases m with
    | nil =>
      have hcx : u.getLast? ≠ some c := by
        intro hl
        refine nodup.2.2 c (by simpa using List.mem_of_getLast? hl) c ?_ rfl
        rw [List.nil_append] at e'
        simp [← e']
      rw [List.nil_append] at e'
      subst e'
      simp only [List.append_nil, hcx, if_false]
      exact (h.around (u ++ [a]) c v (by simp)).2
    | cons d m =>
      simp only [List.cons_append, List.cons.injEq] at e'
      obtain ⟨rfl, rfl⟩ := e'
      have around := (h.around u c (m ++ a :: y) (by simp)).2
      cases m with
      | nil => simp
      | cons d m =>
        have hcm := (List.nodup_cons.mp (List.nodup_append.mp nodup.1).2.1).1
        have hlast : (u ++ c :: d :: m).getLast? = (d :: m).getLast? := by
          rw [List.getLast?_append, List.getLast?_cons_cons]
          cases hd : (d :: m).getLast? with
          | none => simp at hd
          | some z => rfl
        rw [if_neg (fun hl => hcm (List.mem_of_getLast? (hlast ▸ hl))), around]
        rfl

theorem unlink_head {L : Links α} {x y : List α} {a : α} (h : Represents L (x ++ a :: y)) :
    (L.unlink a).head = (x ++ y).head? := by
  obtain ⟨hp, hn⟩ := h.around x a y rfl
  have hd := h.head
  cases x <;> simp_all [Links.unlink]

theorem unlink_represents {L : Links α} {x y : List α} {a : α}
    (h : Represents L (x ++ a :: y)) : Represents (L.unlink a) (x ++ y) := by
  have hf : Represents L.flip (y.reverse ++ a :: x.reverse) := by
    simpa using flip_represents h
  have nodup := List.nodup_append.mp h.nodup
  refine ⟨List.nodup_append.mpr ⟨nodup.1, (List.nodup_cons.mp nodup.2.1).2,
    fun c hc d hd => nodup.2.2 c hc d (by simp [hd])⟩, unlink_head h, ?_, ?_⟩
  · have tail := unlink_head hf
    rw [← List.reverse_append, List.head?_reverse] at tail
    exact tail
  · intro u c v e
    have back := unlink_next hf (u := v.reverse) (c := c) (v := u.reverse)
      (by simpa using congrArg List.reverse e)
    exact ⟨by simpa [unlink_flip L, Links.flip] using back, unlink_next h e⟩

/-- Follow `step` from `start`, for at most `fuel` elements. -/
def walk (step : α → Option α) : Option α → Nat → List α
  | _, 0 => []
  | none, _ + 1 => []
  | some a, fuel + 1 => a :: walk step (step a) fuel

omit [DecidableEq α] in
theorem walk_next {L : Links α} {l : List α} (h : Represents L l) {fuel : Nat}
    (hf : l.length ≤ fuel) : walk L.next L.head fuel = l := by
  have run : ∀ (y x : List α) (fuel : Nat), l = x ++ y → y.length ≤ fuel →
      walk L.next y.head? fuel = y := by
    intro y
    induction y with
    | nil => intro x fuel _ _; cases fuel <;> rfl
    | cons a y ih =>
      intro x fuel e hf
      obtain ⟨k, rfl⟩ : ∃ k, fuel = k + 1 := ⟨fuel - 1, by simp at hf; omega⟩
      have hn := (h.around x a y e).2
      simp only [List.head?_cons, walk, hn]
      rw [ih (x ++ [a]) k (by simp [e]) (by simpa using hf)]
  rw [h.head]
  exact run l [] fuel rfl hf

omit [DecidableEq α] in
theorem walk_prev {L : Links α} {l : List α} (h : Represents L l) {fuel : Nat}
    (hf : l.length ≤ fuel) : walk L.prev L.tail fuel = l.reverse :=
  walk_next (flip_represents h) (by simpa using hf)

end IntrusiveList
