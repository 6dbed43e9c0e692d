import Mathlib.Algebra.Order.Ring.Nat
import Mathlib.Data.Char

/-!
# Lossy UTF-8 decoding

Bytes are fed to a decoder one at a time. What cannot go on as a character is
replaced by U+FFFD: the longest part that could have begun one, or a single
byte. Bytes decoded in pieces differ from bytes decoded whole only in that
what the pieces cut reads as replacements in the one, and as a single character
in the other.
-/

namespace Utf8

def replacement : Char := '\uFFFD'

/-- A character begun: its bits so far, the bounds of the next byte, and how
many bytes follow that one. Whatever follows within the bounds is a character. -/
structure Pending where
  code : Nat
  lo : Nat := 0x80
  hi : Nat := 0xBF
  more : Nat
  bounds : 0x80 ≤ lo ∧ hi ≤ 0xBF
  wide : 0x80 ≤ (code * 64 + (lo - 0x80)) * 64 ^ more
  scalar : (code * 64 + (hi - 0x80) + 1) * 64 ^ more ≤ 0xD800 ∨
    0xE000 ≤ (code * 64 + (lo - 0x80)) * 64 ^ more ∧ (code * 64 + (hi - 0x80) + 1) * 64 ^ more ≤ 0x110000
  deriving DecidableEq, Repr

/-- A byte where no character has been begun. -/
def first (b : Nat) : List Char × Option Pending :=
  if b < 0x80 then ([Char.ofNat b], none)
  else if h : 0xC2 ≤ b ∧ b ≤ 0xDF then
    ([], some { code := b - 0xC0, more := 0, bounds := by omega, wide := by omega, scalar := by omega })
  else if b = 0xE0 then
    ([], some { code := 0, lo := 0xA0, more := 1, bounds := by omega, wide := by omega, scalar := by omega })
  else if b = 0xED then
    ([], some { code := 0xD, hi := 0x9F, more := 1, bounds := by omega, wide := by omega, scalar := by omega })
  else if h : 0xE1 ≤ b ∧ b ≤ 0xEF ∧ b ≠ 0xED then
    ([], some { code := b - 0xE0, more := 1, bounds := by omega, wide := by omega, scalar := by omega })
  else if b = 0xF0 then
    ([], some { code := 0, lo := 0x90, more := 2, bounds := by omega, wide := by omega, scalar := by omega })
  else if h : 0xF1 ≤ b ∧ b ≤ 0xF3 then
    ([], some { code := b - 0xF0, more := 2, bounds := by omega, wide := by omega, scalar := by omega })
  else if b = 0xF4 then
    ([], some { code := 4, hi := 0x8F, more := 2, bounds := by omega, wide := by omega, scalar := by omega })
  else ([replacement], none)

theorem shift (x n : Nat) : x * 64 * 64 ^ n = x * 64 ^ (n + 1) := by
  rw [Nat.pow_succ, Nat.mul_assoc, Nat.mul_comm 64]

/-- The character goes on with a byte within its bounds. -/
def Pending.next (p : Pending) (b : Nat) (h : p.lo ≤ b ∧ b ≤ p.hi) : List Char × Option Pending :=
  match e : p.more with
  | 0 => ([Char.ofNat (p.code * 64 + (b - 0x80))], none)
  | n + 1 => ([], some
    { code := p.code * 64 + (b - 0x80)
      more := n
      bounds := by omega
      wide := by
        have least : p.code * 64 + (p.lo - 0x80) ≤ p.code * 64 + (b - 0x80) := by omega
        rw [Nat.sub_self, Nat.add_zero, shift, ← show p.more = n + 1 from e]
        exact Nat.le_trans p.wide (Nat.mul_le_mul_right _ least)
      scalar := by
        have least : p.code * 64 + (p.lo - 0x80) ≤ p.code * 64 + (b - 0x80) := by omega
        have most : p.code * 64 + (b - 0x80) + 1 ≤ p.code * 64 + (p.hi - 0x80) + 1 := by omega
        have carried : ∀ x, x * 64 + (0xBF - 0x80) + 1 = (x + 1) * 64 := by omega
        simp only [Nat.sub_self, Nat.add_zero, carried, shift, ← show p.more = n + 1 from e]
        refine p.scalar.imp (Nat.le_trans (Nat.mul_le_mul_right _ most)) fun range => ⟨?_, ?_⟩
        · exact Nat.le_trans range.1 (Nat.mul_le_mul_right _ least)
        · exact Nat.le_trans (Nat.mul_le_mul_right _ most) range.2 })

def step : Option Pending → UInt8 → List Char × Option Pending
  | none, b => first b.toNat
  | some p, b =>
    if h : p.lo ≤ b.toNat ∧ b.toNat ≤ p.hi then p.next b.toNat h
    else (replacement :: (first b.toNat).1, (first b.toNat).2)

def feed : Option Pending → List UInt8 → List Char × Option Pending
  | p, [] => ([], p)
  | p, b :: bs => ((step p b).1 ++ (feed (step p b).2 bs).1, (feed (step p b).2 bs).2)

/-- What is left of a character that never ended. -/
def flush : Option Pending → List Char
  | none => []
  | some _ => [replacement]

def lossy (bs : List UInt8) : List Char := (feed none bs).1 ++ flush (feed none bs).2

section Decoder

variable {p : Pending} {b : UInt8} {bs as : List UInt8}

theorem feed_append (q : Option Pending) (as bs : List UInt8) :
    feed q (as ++ bs) = ((feed q as).1 ++ (feed (feed q as).2 bs).1, (feed (feed q as).2 bs).2) := by
  induction as generalizing q with
  | nil => rfl
  | cons a as ih => simp only [List.cons_append, feed, ih, List.append_assoc]

/-- A byte within the bounds of a character is none's first. -/
theorem first_tail {b : Nat} (h : 0x80 ≤ b ∧ b ≤ 0xBF) : first b = ([replacement], none) := by
  unfold first
  rw [if_neg (by omega), dif_neg (by omega), if_neg (by omega), if_neg (by omega), dif_neg (by omega), if_neg (by omega),
    dif_neg (by omega), if_neg (by omega)]

theorem toNat_scalar {n : Nat} (h : n.isValidChar) : (Char.ofNat n).toNat = n := by
  unfold Char.ofNat
  rw [dif_pos h]
  rfl

/-- A byte within the bounds either ends a character beyond ASCII or goes on with it. -/
theorem next_cases {b : Nat} (h : p.lo ≤ b ∧ b ≤ p.hi) :
    (∃ c, p.next b h = ([c], none) ∧ 0x80 ≤ c.toNat) ∨ ∃ q, p.next b h = ([], some q) := by
  unfold Pending.next
  split
  · rename_i last
    refine .inl ⟨_, rfl, ?_⟩
    have wide := p.wide
    have scalar := p.scalar
    rw [last, Nat.pow_zero, Nat.mul_one, Nat.mul_one] at scalar
    rw [last, Nat.pow_zero, Nat.mul_one] at wide
    rw [toNat_scalar]
    · omega
    · exact scalar.imp (fun _ => by omega) fun _ => ⟨by omega, by omega⟩
  · exact .inr ⟨_, rfl⟩

theorem flush_cases (q : Option Pending) : q = none ∧ flush q = [] ∨ flush q = [replacement] := by
  cases q with
  | none => exact .inl ⟨rfl, rfl⟩
  | some p => exact .inr rfl

/-- Bytes after which no character is begun are decoded on their own. -/
theorem lossy_append (idle : (feed none as).2 = none) (bs : List UInt8) : lossy (as ++ bs) = lossy as ++ lossy bs := by
  unfold lossy
  rw [feed_append, idle]
  simp only [flush, List.append_nil, List.append_assoc]

theorem idle_of_last (h : (lossy bs).getLast? ≠ some replacement) : (feed none bs).2 = none := by
  rcases flush_cases (feed none bs).2 with ⟨idle, -⟩ | flushed
  · exact idle
  · rw [lossy, flushed] at h
    simp at h

theorem first_some {b : Nat} : (first b).1 ≠ [] ∨ (first b).2.isSome := by
  unfold first
  repeat' split
  all_goals simp

theorem feed_some (p : Pending) (bs : List UInt8) : (feed (some p) bs).1 ++ flush (feed (some p) bs).2 ≠ [] := by
  induction bs generalizing p with
  | nil => simp [feed, flush]
  | cons b bs ih =>
    rw [feed, step]
    split
    · rename_i h
      rcases next_cases h with ⟨c, e, -⟩ | ⟨q, e⟩
      · simp [e]
      · rw [e]
        exact ih q
    · simp

/-- No byte is decoded to nothing. -/
theorem lossy_eq_nil : lossy bs = [] ↔ bs = [] := by
  constructor
  · intro none_
    cases bs with
    | nil => rfl
    | cons b bs =>
      rw [lossy, feed, step] at none_
      rcases first_some (b := b.toNat) with some_ | begun
      · simp [some_] at none_
      · obtain ⟨p, e⟩ := Option.isSome_iff_exists.mp begun
        rw [e, List.append_assoc] at none_
        exact absurd (List.append_eq_nil_iff.mp none_).2 (feed_some p bs)
  · rintro rfl
    rfl

/-- A character cut off, then one read to its end. -/
example : lossy [0xE2, 0x82, 0x41, 0xC3, 0xA9] = [replacement, 'A', 'é'] := by decide

end Decoder

section Pieces

/-- What is decoded in pieces, and what one character of it is decoded whole:
the same, or replacements for a character beyond ASCII. -/
def Blurred (g : List Char × Char) : Prop :=
  g.1 = [g.2] ∨ (∃ n, g.1 = List.replicate (n + 1) replacement) ∧ 0x80 ≤ g.2.toNat

/-- The second text, group by group, for the first. -/
inductive Blurs : List (List Char × Char) → List Char → List Char → Prop
  | nil : Blurs [] [] []
  | cons {g : List Char × Char} {gs : List (List Char × Char)} {p j : List Char} : Blurred g → Blurs gs p j →
      Blurs (g :: gs) (g.1 ++ p) (g.2 :: j)

theorem Blurs.same_append (x : List Char) {gs : List (List Char × Char)} {p j : List Char} (h : Blurs gs p j) :
    ∃ gs, Blurs gs (x ++ p) (x ++ j) := by
  induction x with
  | nil => exact ⟨gs, h⟩
  | cons c x ih =>
    obtain ⟨gs', rest⟩ := ih
    exact ⟨([c], c) :: gs', rest.cons (.inl rfl)⟩

/-- Where a piece begins inside a character, it is replacements up to the
character's end, or to its own. -/
theorem feed_cut (p : Pending) (bs : List UInt8) :
    (∃ k c x q, feed none bs = (List.replicate k replacement ++ x, q) ∧ feed (some p) bs = (c :: x, q) ∧ 0x80 ≤ c.toNat) ∨
      ∃ k q, feed none bs = (List.replicate k replacement, none) ∧ feed (some p) bs = ([], some q) := by
  induction bs generalizing p with
  | nil => exact .inr ⟨0, p, rfl, rfl⟩
  | cons b bs ih =>
    by_cases h : p.lo ≤ b.toNat ∧ b.toNat ≤ p.hi
    · have tail : feed none (b :: bs) = (replacement :: (feed none bs).1, (feed none bs).2) := by
        rw [feed, step, first_tail ⟨by have := p.bounds; omega, by have := p.bounds; omega⟩]
        rfl
      have within : step (some p) b = p.next b.toNat h := by
        rw [step, dif_pos h]
      rcases next_cases h with ⟨c, e, wide⟩ | ⟨q, e⟩
      · refine .inl ⟨1, c, (feed none bs).1, (feed none bs).2, tail, ?_, wide⟩
        rw [feed, within, e]
        rfl
      · have on : feed (some p) (b :: bs) = feed (some q) bs := by
          rw [feed, within, e]
          rfl
        rw [on, tail]
        rcases ih q with ⟨k, c, x, r, alone, joined, wide⟩ | ⟨k, r, alone, joined⟩
        · refine .inl ⟨k + 1, c, x, r, ?_, joined, wide⟩
          rw [alone, List.replicate_succ, List.cons_append]
        · refine .inr ⟨k + 1, r, ?_, joined⟩
          rw [alone, List.replicate_succ]
    · have outside : step (some p) b = (replacement :: (first b.toNat).1, (first b.toNat).2) := by
        rw [step, dif_neg h]
      refine .inl ⟨0, replacement, (feed none (b :: bs)).1, (feed none (b :: bs)).2, rfl, ?_, by decide⟩
      rw [feed, outside]
      rfl

/-- From a character cut by the pieces so far, and the replacements for it. -/
theorem blurs_from (bss : List (List UInt8)) :
    ∀ (q : Option Pending) (w : List Char), q = none ∧ w = [] ∨ q.isSome ∧ (∃ n, w = List.replicate (n + 1) replacement) →
      ∃ gs, Blurs gs (w ++ bss.flatMap lossy) ((feed q bss.flatten).1 ++ flush (feed q bss.flatten).2) := by
  induction bss with
  | nil =>
    rintro q w (⟨rfl, rfl⟩ | ⟨begun, n, rfl⟩)
    · exact ⟨[], .nil⟩
    · obtain ⟨p, rfl⟩ := Option.isSome_iff_exists.mp begun
      have wide : 0x80 ≤ replacement.toNat := by decide
      exact ⟨[(List.replicate (n + 1) replacement, replacement)], .cons (.inr ⟨⟨n, rfl⟩, wide⟩) .nil⟩
  | cons bs bss ih =>
    -- the pieces after this one, from what it leaves of a character
    have after : ∀ q : Option Pending, ∃ gs,
        Blurs gs (flush q ++ bss.flatMap lossy) ((feed q bss.flatten).1 ++ flush (feed q bss.flatten).2) := by
      intro q
      cases q with
      | none => exact ih none [] (.inl ⟨rfl, rfl⟩)
      | some p => exact ih (some p) _ (.inr ⟨rfl, 0, rfl⟩)
    rintro q w (⟨rfl, rfl⟩ | ⟨begun, n, rfl⟩)
    · obtain ⟨gs, rest⟩ := after (feed none bs).2
      obtain ⟨gs', whole⟩ := rest.same_append (feed none bs).1
      refine ⟨gs', ?_⟩
      rw [List.flatten_cons, feed_append, List.flatMap_cons, lossy]
      simpa only [List.nil_append, List.append_assoc] using whole
    · obtain ⟨p, rfl⟩ := Option.isSome_iff_exists.mp begun
      rw [List.flatten_cons, feed_append, List.flatMap_cons, lossy]
      rcases feed_cut p bs with ⟨k, c, x, r, alone, joined, wide⟩ | ⟨k, r, alone, joined⟩
      · obtain ⟨gs, rest⟩ := after r
        obtain ⟨gs', whole⟩ := rest.same_append x
        refine ⟨(List.replicate (n + k + 1) replacement, c) :: gs', ?_⟩
        have group : (List.replicate (n + k + 1) replacement, c).1 ++ (x ++ (flush r ++ bss.flatMap lossy)) =
            List.replicate (n + 1) replacement ++ ((List.replicate k replacement ++ x) ++ flush r ++ bss.flatMap lossy) := by
          simp only [List.append_assoc, ← List.append_assoc (List.replicate _ _) (List.replicate _ _),
            List.replicate_append_replicate]
          rw [show n + 1 + k = n + k + 1 by omega]
        rw [alone, joined]
        simp only
        have cut := whole.cons (g := (List.replicate (n + k + 1) replacement, c)) (.inr ⟨⟨n + k, rfl⟩, wide⟩)
        rw [← group]
        simpa only [List.cons_append, List.append_assoc] using cut
      · obtain ⟨gs, rest⟩ := ih (some r) (List.replicate (n + k + 1) replacement) (.inr ⟨rfl, n + k, rfl⟩)
        refine ⟨gs, ?_⟩
        rw [alone, joined]
        simp only [flush, List.nil_append, List.append_nil, ← List.append_assoc, List.replicate_append_replicate]
        rw [show n + 1 + k = n + k + 1 by omega]
        exact rest

/-- Pieces decoded one at a time blur what is decoded whole. -/
theorem blurs_pieces (bss : List (List UInt8)) : ∃ gs, Blurs gs (bss.flatMap lossy) (lossy bss.flatten) :=
  blurs_from bss none [] (.inl ⟨rfl, rfl⟩)

/-- Text that ends in a replacement was decoded from pieces that do. -/
theorem Blurs.last {gs : List (List Char × Char)} {p j : List Char} (h : Blurs gs p j)
    (ends : j.getLast? = some replacement) : p.getLast? = some replacement := by
  induction h with
  | nil => cases ends
  | @cons g gs p j blurred rest ih =>
    cases rest with
    | nil =>
      have last : g.2 = replacement := Option.some.inj ends
      rw [List.append_nil]
      rcases blurred with same | ⟨⟨n, cut⟩, -⟩
      · rw [same, last]
        rfl
      · rw [cut, List.getLast?_replicate, if_neg (Nat.succ_ne_zero n)]
    | cons _ _ =>
      rw [List.getLast?_append, ih (by simpa using ends)]
      rfl

end Pieces

section Encoded

variable {p : Pending} {b : UInt8}

theorem step_last (last : p.more = 0) (within : p.lo ≤ b.toNat ∧ b.toNat ≤ p.hi) :
    step (some p) b = ([Char.ofNat (p.code * 64 + (b.toNat - 0x80))], none) := by
  rw [step, dif_pos within]
  unfold Pending.next
  split
  · rfl
  · rename_i more
    rw [last] at more
    cases more

/-- A byte that does not end its character leaves any byte of the tail to follow. -/
theorem step_next {n : Nat} (next : p.more = n + 1) (within : p.lo ≤ b.toNat ∧ b.toNat ≤ p.hi) :
    ∃ q, step (some p) b = ([], some q) ∧ q.code = p.code * 64 + (b.toNat - 0x80) ∧ q.lo = 0x80 ∧ q.hi = 0xBF ∧
      q.more = n := by
  rw [step, dif_pos within]
  unfold Pending.next
  split
  · rename_i last
    rw [last] at next
    cases next
  · rename_i more
    exact ⟨_, rfl, rfl, rfl, rfl, Nat.succ.inj (more.symm.trans next)⟩

theorem first_two {n : Nat} (h : 0xC2 ≤ n ∧ n ≤ 0xDF) :
    ∃ q, first n = ([], some q) ∧ q.code = n - 0xC0 ∧ q.lo = 0x80 ∧ q.hi = 0xBF ∧ q.more = 0 := by
  unfold first
  rw [if_neg (by omega), dif_pos h]
  exact ⟨_, rfl, rfl, rfl, rfl, rfl⟩

theorem first_three {n : Nat} (h : 0xE0 ≤ n ∧ n ≤ 0xEF) :
    ∃ q, first n = ([], some q) ∧ q.code = n - 0xE0 ∧ q.lo = (if n = 0xE0 then 0xA0 else 0x80) ∧
      q.hi = (if n = 0xED then 0x9F else 0xBF) ∧ q.more = 1 := by
  unfold first
  rw [if_neg (by omega), dif_neg (by omega)]
  by_cases low : n = 0xE0
  · rw [if_pos low]
    exact ⟨_, rfl, by rw [low], by rw [if_pos low], by rw [if_neg (by omega)], rfl⟩
  · by_cases high : n = 0xED
    · rw [if_neg low, if_pos high]
      exact ⟨_, rfl, by rw [high], by rw [if_neg low], by rw [if_pos high], rfl⟩
    · rw [if_neg low, if_neg high, dif_pos (by omega)]
      exact ⟨_, rfl, rfl, by rw [if_neg low], by rw [if_neg high], rfl⟩

theorem first_four {n : Nat} (h : 0xF0 ≤ n ∧ n ≤ 0xF4) :
    ∃ q, first n = ([], some q) ∧ q.code = n - 0xF0 ∧ q.lo = (if n = 0xF0 then 0x90 else 0x80) ∧
      q.hi = (if n = 0xF4 then 0x8F else 0xBF) ∧ q.more = 2 := by
  unfold first
  rw [if_neg (by omega), dif_neg (by omega), if_neg (by omega), if_neg (by omega), dif_neg (by omega)]
  by_cases low : n = 0xF0
  · rw [if_pos low]
    exact ⟨_, rfl, by rw [low], by rw [if_pos low], by rw [if_neg (by omega)], rfl⟩
  · by_cases middle : 0xF1 ≤ n ∧ n ≤ 0xF3
    · rw [if_neg low, dif_pos middle]
      exact ⟨_, rfl, rfl, by rw [if_neg low], by rw [if_neg (by omega)], rfl⟩
    · have high : n = 0xF4 := by omega
      rw [if_neg low, dif_neg middle, if_pos high]
      exact ⟨_, rfl, by rw [high], by rw [if_neg low], by rw [if_pos high], rfl⟩

/-- The bytes of a character are decoded to it. -/
theorem feed_encoded (c : Char) : feed none (String.utf8EncodeChar c) = ([c], none) := by
  have valid : c.val.toNat < 0xD800 ∨ 0xE000 ≤ c.val.toNat ∧ c.val.toNat < 0x110000 := by
    have valid := c.valid
    unfold UInt32.isValidChar Nat.isValidChar at valid
    omega
  have whole : ∀ {n}, n = c.val.toNat → Char.ofNat n = c := by
    rintro n rfl
    exact Char.ofNat_toNat c
  have byte : ∀ {n}, n < 256 → (UInt8.ofNat n).toNat = n := fun h => UInt8.toNat_ofNat_of_lt' h
  unfold String.utf8EncodeChar
  dsimp only
  generalize c.val.toNat = v at valid whole ⊢
  split
  · -- one byte
    have here : (UInt8.ofNat v).toNat = v := byte (by omega)
    simp only [feed, step, here, List.append_nil]
    rw [first, if_pos (by omega), whole rfl]
  split
  · have one : (UInt8.ofNat (v / 64 % 32 + 192)).toNat = v / 64 % 32 + 192 := byte (by omega)
    have two : (UInt8.ofNat (v % 64 + 128)).toNat = v % 64 + 128 := byte (by omega)
    obtain ⟨q, begun, code, lo, hi, more⟩ := first_two (n := v / 64 % 32 + 192) (by omega)
    simp only [feed, step.eq_1, one, begun, step_last more (show q.lo ≤ (UInt8.ofNat (v % 64 + 128)).toNat ∧ _ by omega),
      List.append_nil, List.nil_append]
    rw [whole (by rw [code, two]; omega)]
  split
  · have one : (UInt8.ofNat (v / 4096 % 16 + 224)).toNat = v / 4096 % 16 + 224 := byte (by omega)
    have two : (UInt8.ofNat (v / 64 % 64 + 128)).toNat = v / 64 % 64 + 128 := byte (by omega)
    have three : (UInt8.ofNat (v % 64 + 128)).toNat = v % 64 + 128 := byte (by omega)
    obtain ⟨q, begun, code, lo, hi, more⟩ := first_three (n := v / 4096 % 16 + 224) (by omega)
    have within : q.lo ≤ (UInt8.ofNat (v / 64 % 64 + 128)).toNat ∧ (UInt8.ofNat (v / 64 % 64 + 128)).toNat ≤ q.hi := by
      rw [lo, hi, two]
      split <;> split <;> omega
    obtain ⟨r, next, code', lo', hi', more'⟩ := step_next more within
    simp only [feed, step.eq_1, one, begun, next,
      step_last more' (show r.lo ≤ (UInt8.ofNat (v % 64 + 128)).toNat ∧ _ by omega), List.append_nil, List.nil_append]
    rw [whole (by rw [code', code, two, three]; omega)]
  · have one : (UInt8.ofNat (v / 262144 % 8 + 240)).toNat = v / 262144 % 8 + 240 := byte (by omega)
    have two : (UInt8.ofNat (v / 4096 % 64 + 128)).toNat = v / 4096 % 64 + 128 := byte (by omega)
    have three : (UInt8.ofNat (v / 64 % 64 + 128)).toNat = v / 64 % 64 + 128 := byte (by omega)
    have four : (UInt8.ofNat (v % 64 + 128)).toNat = v % 64 + 128 := byte (by omega)
    obtain ⟨q, begun, code, lo, hi, more⟩ := first_four (n := v / 262144 % 8 + 240) (by omega)
    have within : q.lo ≤ (UInt8.ofNat (v / 4096 % 64 + 128)).toNat ∧
        (UInt8.ofNat (v / 4096 % 64 + 128)).toNat ≤ q.hi := by
      rw [lo, hi, two]
      split <;> split <;> omega
    obtain ⟨r, next, code', lo', hi', more'⟩ := step_next more within
    obtain ⟨s, next', code'', lo'', hi'', more''⟩ := step_next more'
      (show r.lo ≤ (UInt8.ofNat (v / 64 % 64 + 128)).toNat ∧ _ by omega)
    simp only [feed, step.eq_1, one, begun, next, next',
      step_last more'' (show s.lo ≤ (UInt8.ofNat (v % 64 + 128)).toNat ∧ _ by omega), List.append_nil, List.nil_append]
    rw [whole (by rw [code'', code', code, two, three, four]; omega)]

/-- A text's own bytes are decoded to it. -/
theorem lossy_encoded (t : List Char) : lossy (t.flatMap String.utf8EncodeChar) = t := by
  induction t with
  | nil => rfl
  | cons c t ih =>
    have here := feed_encoded c
    rw [List.flatMap_cons, lossy_append (by rw [here]), ih, lossy, here]
    rfl

end Encoded

end Utf8
