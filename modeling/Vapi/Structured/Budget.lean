import Vapi.Lib.Run
import Vapi.Structured.Masking

/-!
# Closing within a budget

The last tokens of a constrained answer are drawn from rows masked for what
closes the document. As long as there is such a token each draw closes a
level; where there is none the row is masked as at any other time.
-/

namespace Vapi.Structured

open JsonGrammar (isWs)
open Transition (Run Guarded)

/-- The tokens the worker reserves for closing a document. -/
def closingBudget : Nat := 16

def Frame.isContainer : Frame → Bool
  | .object _ | .array _ => true
  | _ => false

namespace Machine

variable {m m' : Machine} {f g : Frame} {rest : List Frame} {c : Char}

/-- The document is closed, or some container is open. -/
def Deep (m : Machine) : Prop := m.done ∨ 0 < m.depth

theorem depth_eq (m : Machine) : m.depth = m.stack.countP Frame.isContainer := by
  unfold depth
  congr 1

theorem depth_pos (mem : f ∈ m.stack) (container : f.isContainer) : 0 < m.depth := by
  rw [depth_eq]
  exact List.countP_pos_iff.mpr ⟨f, mem, container⟩

/-- A value ends the document or leaves the container it was in. -/
theorem finishValue_deep (h : m.finishValue = some m') : m'.Deep := by
  unfold finishValue at h
  split at h
  · exact .inl (by rw [← Option.some.inj h])
  · rename_i o below e
    rw [← Option.some.inj h]
    exact .inr (depth_pos (f := .object { o with state := .next }) List.mem_cons_self rfl)
  · rename_i a below e
    rw [← Option.some.inj h]
    exact .inr (depth_pos (f := .array { a with state := .next }) List.mem_cons_self rfl)
  · cases h

theorem setTop_deep (e : m.stack = f :: rest) (h : 0 < m.depth) (kept : f.isContainer → g.isContainer) :
    (m.setTop g).Deep := by
  rw [depth_eq, e, List.countP_cons] at h
  refine .inr ?_
  rw [depth_eq, setTop_stack, e, List.tail_cons, List.countP_cons]
  split at h
  · rename_i container
    rw [if_pos (kept container)]
    exact Nat.succ_pos _
  · exact Nat.lt_of_lt_of_le h (Nat.le_add_right _ _)

theorem settleWord_deep (h : m.Deep) (step : m.settleWord = some m') : m'.Deep := by
  unfold settleWord at step
  split at step
  · split at step
    · exact finishValue_deep step
    · exact Option.some.inj step ▸ h
  · exact Option.some.inj step ▸ h

theorem startValue_deep {id : Option Nat} (e : m.stack = .value id :: rest) (h : 0 < m.depth)
    (step : m.startValue id c = some m') : m'.Deep := by
  unfold startValue at step
  split at step
  · exact Option.some.inj step ▸ .inr h
  · obtain ⟨n, -, step⟩ := Option.bind_eq_some_iff.mp step
    obtain ⟨f, -, step⟩ := Option.bind_eq_some_iff.mp step
    exact settleWord_deep (setTop_deep e h nofun) step

theorem inString_deep {escape len : Nat} (e : m.stack = .str escape len :: rest) (h : 0 < m.depth)
    (step : m.inString escape len c = some m') : m'.Deep := by
  have on : ∀ g, some (m.setTop g) = some m' → m'.Deep := fun g eq => Option.some.inj eq ▸ setTop_deep e h nofun
  unfold inString at step
  split at step
  · cases step
  split at step
  · split at step
    · exact on _ step
    · cases step
  split at step
  · exact finishValue_deep step
  split at step
  · exact on _ step
  split at step
  · cases step
  · exact on _ step

theorem inNumber_deep {again : Machine → Char → Option Machine} {n : NumberFrame} (e : m.stack = .number n :: rest)
    (h : 0 < m.depth) (deep : ∀ m₁, m₁.Deep → again m₁ c = some m' → m'.Deep)
    (step : m.inNumber again n c = some m') : m'.Deep := by
  have on : ∀ g, some (m.setTop g) = some m' → m'.Deep := fun g eq => Option.some.inj eq ▸ setTop_deep e h nofun
  unfold inNumber at step
  simp only at step
  split at step
  · cases step
  split at step
  · exact on _ step
  split at step
  · exact on _ step
  split at step
  · exact on _ step
  split at step
  · exact on _ step
  split at step
  · obtain ⟨m₁, finished, step⟩ := Option.bind_eq_some_iff.mp step
    exact deep m₁ (finishValue_deep finished) step
  · cases step

theorem inWord_deep {alts : List Text} {matched : Nat} (e : m.stack = .word alts matched :: rest) (h : 0 < m.depth)
    (step : m.inWord alts matched c = some m') : m'.Deep := by
  unfold inWord at step
  simp only at step
  split at step
  · cases step
  · exact settleWord_deep (setTop_deep e h nofun) step

theorem closeObject_deep {id : Option Nat} {seen : List Nat} (h : m.closeObject id seen = some m') : m'.Deep := by
  unfold closeObject at h
  split at h
  · split at h
    · exact finishValue_deep h
    · cases h
  · exact finishValue_deep h

theorem inKey_deep {o : ObjectFrame} (e : m.stack = .object o :: rest) (h : 0 < m.depth)
    (step : m.inKey o c = some m') : m'.Deep := by
  have on : ∀ o', some (m.setTop (.object o')) = some m' → m'.Deep := fun o' eq =>
    Option.some.inj eq ▸ setTop_deep e h fun _ => rfl
  unfold inKey checkKey at step
  split at step
  · split at step
    · exact on _ step
    · cases step
  split at step
  · split at step
    · exact on _ step
    · split at step
      · split at step
        · split at step
          · cases step
          · exact on _ step
        · split at step
          · exact on _ step
          · cases step
      · cases step
  split at step
  · split at step
    · exact on _ step
    · cases step
  split at step
  · cases step
  split at step
  · exact on _ step
  · cases step

theorem inObject_deep {o : ObjectFrame} (e : m.stack = .object o :: rest) (h : 0 < m.depth)
    (step : m.inObject o c = some m') : m'.Deep := by
  have on : ∀ o', some (m.setTop (.object o')) = some m' → m'.Deep := fun o' eq =>
    Option.some.inj eq ▸ setTop_deep e h fun _ => rfl
  have still : some m = some m' → m'.Deep := fun eq => Option.some.inj eq ▸ .inr h
  have begins : ∀ o', (if isWs c then some m else if c = '\x7d' ∧ o.state = .start then m.closeObject o.node o.seen
      else if c ≠ '"' then none else some (m.setTop (.object o'))) = some m' → m'.Deep := by
    intro o' step
    split at step
    · exact still step
    split at step
    · exact closeObject_deep step
    split at step
    · cases step
    · exact on _ step
  unfold inObject at step
  split at step
  · exact begins _ step
  · exact begins _ step
  · exact inKey_deep e h step
  · split at step
    · exact still step
    split at step
    · cases step
    · obtain ⟨id, -, step⟩ := Option.bind_eq_some_iff.mp step
      rw [← Option.some.inj step]
      exact .inr (depth_pos (f := .object { o with state := .value }) (by simp) rfl)
  · cases step
  · split at step
    · exact still step
    split at step
    · exact on _ step
    split at step
    · exact closeObject_deep step
    · cases step

theorem inArray_deep {again : Machine → Char → Option Machine} {a : ArrayFrame} (e : m.stack = .array a :: rest)
    (h : 0 < m.depth) (deep : ∀ m₁, m₁.Deep → again m₁ c = some m' → m'.Deep)
    (step : m.inArray again a c = some m') : m'.Deep := by
  have still : some m = some m' → m'.Deep := fun eq => Option.some.inj eq ▸ .inr h
  have begins : ∀ next : Option Machine, (next = some m' → m'.Deep) →
      (if isWs c then some m else if c = ']' ∧ a.state = .start then m.finishValue else next) = some m' → m'.Deep := by
    intro next item step
    split at step
    · exact still step
    split at step
    · exact finishValue_deep step
    · exact item step
  unfold inArray at step
  split at step
  iterate 2
    · refine begins _ (fun item => ?_) step
      split at item
      · cases item
      · exact deep _ (.inr (depth_pos (List.mem_cons_of_mem _ List.mem_cons_self) rfl)) item
  · cases step
  · split at step
    · exact still step
    split at step
    · rw [← Option.some.inj step]
      exact setTop_deep e h fun _ => rfl
    split at step
    · exact finishValue_deep step
    · cases step

theorem pushWith_deep {again : Machine → Char → Option Machine} (h : m.Deep)
    (deep : ∀ m₁, m₁.Deep → again m₁ c = some m' → m'.Deep) (step : m.pushWith again c = some m') : m'.Deep := by
  obtain ⟨m₁, entered, step⟩ := Option.bind_eq_some_iff.mp step
  obtain ⟨done, stack, -⟩ := enter_keeps entered
  have h₁ : m₁.Deep := by
    unfold Deep depth at h ⊢
    rwa [done, stack]
  split at step
  · split at step
    · exact Option.some.inj step ▸ h₁
    · cases step
  · rename_i open_
    have h₁ : 0 < m₁.depth := h₁.resolve_left open_
    split at step
    · cases step
    · exact startValue_deep ‹_› h₁ step
    · exact inString_deep ‹_› h₁ step
    · exact inNumber_deep ‹_› h₁ deep step
    · exact inWord_deep ‹_› h₁ step
    · exact inObject_deep ‹_› h₁ step
    · exact inArray_deep ‹_› h₁ deep step

theorem pushChar_deep (h : m.Deep) (step : m.pushChar c = some m') : m'.Deep :=
  pushWith_deep h (fun _ h₁ step₁ => pushWith_deep h₁ (fun _ _ none_ => by cases none_) step₁) step

/-- The outermost container is left only when the document is closed. -/
theorem push_deep {t : Text} (h : m.Deep) (pushed : m.push t = some m') : m'.Deep := by
  induction t generalizing m with
  | nil => exact Option.some.inj pushed ▸ h
  | cons c t ih =>
    obtain ⟨m₁, step, rest⟩ := Option.bind_eq_some_iff.mp pushed
    exact ih (pushChar_deep h step) rest

/-- The text closes a container or completes the document. -/
def closes (m : Machine) (t : Text) : Bool :=
  (m.push t).any fun probe => probe.viable && (probe.depth < m.depth || probe.complete)

theorem closes_iff {t : Text} : m.closes t ↔
    ∃ probe, m.push t = some probe ∧ probe.viable ∧ (probe.depth < m.depth ∨ probe.complete) := by
  unfold closes
  cases m.push t <;> simp

/-- What closes completes the document, or leaves fewer containers open, but some. -/
theorem closes_less {t : Text} (h : m.closes t) (pushed : m.push t = some m') :
    m'.complete ∨ m'.depth < m.depth ∧ 0 < m'.depth := by
  obtain ⟨probe, same, -, less | complete⟩ := closes_iff.mp h
  · obtain rfl := Option.some.inj (pushed.symm.trans same)
    rcases push_deep (.inr (Nat.zero_lt_of_lt less)) pushed with done | some_
    · exact .inl (by simp [complete, done])
    · exact .inr ⟨less, some_⟩
  · obtain rfl := Option.some.inj (pushed.symm.trans same)
    exact .inl complete

theorem closes_nil (open_ : m.complete = false) : m.closes [] = false := by
  simp [closes, push, open_]

end Machine

namespace TokenMasker

variable {L : Type} {texts : List Text} {m m' : Machine} {i n token : Nat} {eos : List Nat}

theorem maskClosing_iff (open_ : m.complete = false) : ((new texts).maskClosing m (List.replicate n false))[i]? = some true ↔
    i < n ∧ ∃ t, texts[i]? = some t ∧ m.closes t := by
  have marked := marks_iff (fun _ id => (texts[id]?).any m.closes) (new texts).byFirst i (List.replicate n false)
  refine marked.trans ?_
  simp only [List.length_replicate, new_mem]
  constructor
  · rintro (already | ⟨inRow, b, ⟨t, at_, -⟩, passes⟩)
    · simp [List.getElem?_replicate] at already
    · rw [at_, Option.any_some] at passes
      exact ⟨inRow, t, at_, passes⟩
  · rintro ⟨inRow, t, at_, passes⟩
    cases t with
    | nil =>
      rw [Machine.closes_nil open_] at passes
      cases passes
    | cons c t =>
      obtain ⟨b, l, e⟩ := bytes_cons c t
      refine .inr ⟨inRow, b, ⟨_, at_, by rw [e]; rfl⟩, ?_⟩
      rw [at_, Option.any_some]
      exact passes

/-- The token is left in the masked row: its logit is no negative infinity. -/
def Left (k : TokenMasker) (m : Machine) (eos : List Nat) (logits : List (Option L)) (token : Nat) : Prop :=
  ∃ l, (k.maskFinishing m eos logits)[token]? = some (some l)

/-- Some token of the vocabulary closes a container or completes the document. -/
def Closable (k : TokenMasker) (m : Machine) : Prop := ∃ t ∈ k.texts, m.closes t

/-- One of the last draws: a token left in some row, or, with the document
complete, nothing. The end of the sequence has no text to read. -/
def Draw (L : Type) (k : TokenMasker) (eos : List Nat) (m : Machine) (token : Nat) (m' : Machine) : Prop :=
  if m.complete then m' = m
  else (∃ logits : List (Option L), logits.length = k.texts.length ∧ k.Left m eos logits token) ∧
    if token ∈ eos then m' = m else m.push (k.texts.getD token []) = some m'

/-- Where some token closes, just such are left. -/
theorem left_iff {logits : List (Option L)} (open_ : m.complete = false) (closable : (new texts).Closable m)
    (length : logits.length = texts.length) :
    (new texts).Left m eos logits token ↔
      token ∉ eos ∧ (∃ t, texts[token]? = some t ∧ m.closes t) ∧ ∃ l, logits[token]? = some (some l) := by
  obtain ⟨t, listed, closes⟩ := closable
  obtain ⟨j, lt, at_⟩ := List.getElem_of_mem (show t ∈ texts from listed)
  have some_ : ((new texts).maskClosing m (List.replicate logits.length false))[j]? = some true :=
    (maskClosing_iff open_).mpr ⟨length ▸ lt, t, by rw [List.getElem?_eq_getElem lt, at_], closes⟩
  unfold Left maskFinishing onlyAllowed
  simp only [open_, Bool.false_eq_true, if_false, any_of_mark some_, if_true, List.getElem?_mapIdx]
  constructor
  · rintro ⟨l, left⟩
    obtain ⟨l', row, left⟩ := Option.map_eq_some_iff.mp left
    split at left
    · cases left
    · rename_i other
      split at left
      · rename_i marked
        exact ⟨other, ((maskClosing_iff open_).mp marked).2, l, left ▸ row⟩
      · cases left
  · rintro ⟨other, closes, l, row⟩
    have inRow := (List.getElem?_eq_some_iff.mp row).1
    refine ⟨l, ?_⟩
    rw [row, Option.map_some, if_neg other, if_pos ((maskClosing_iff open_).mpr ⟨inRow, closes⟩)]

/-- A draw where some token closes. -/
theorem draw_closes (closable : m.complete = false → (new texts).Closable m) (draw : Draw L (new texts) eos m token m') :
    m'.complete ∨ m'.depth < m.depth ∧ 0 < m'.depth := by
  unfold Draw at draw
  split at draw
  · rename_i complete
    exact .inl (draw ▸ complete)
  · rename_i open_
    rw [Bool.not_eq_true] at open_
    obtain ⟨⟨logits, length, left⟩, draw⟩ := draw
    obtain ⟨other, ⟨t, at_, closes⟩, -⟩ := (left_iff open_ (closable open_) length).mp left
    rw [if_neg other, List.getD_eq_getElem?_getD, show (new texts).texts = texts from rfl, at_] at draw
    exact Machine.closes_less closes draw

end TokenMasker

/-- From at most as many open containers as tokens are reserved, the document
is complete once these are drawn, if before each draw some token closes. -/
theorem finishing_closes {L : Type} {texts : List Text} {eos ids : List Nat} {m m' : Machine}
    (shallow : m.depth ≤ closingBudget)
    (run : Run (Guarded (fun m _ => m.complete = false → (TokenMasker.new texts).Closable m)
      (TokenMasker.Draw L (TokenMasker.new texts) eos)) m ids m')
    (spent : ids.length = closingBudget) : m'.complete := by
  suffices m'.complete ∨ m'.depth + ids.length ≤ m.depth ∧ (0 < ids.length → 0 < m'.depth) by
    rcases this with complete | ⟨less, some_⟩
    · exact complete
    · have pos : 0 < ids.length := by
        rw [spent]
        decide
      have := some_ pos
      omega
  clear spent
  induction run with
  | nil => exact .inr ⟨Nat.le_refl _, fun pos => absurd pos (Nat.lt_irrefl _)⟩
  | @snoc ids m₁ m₂ token _ step ih =>
    rcases TokenMasker.draw_closes step.1 step.2 with complete | ⟨less, some_⟩
    · exact .inl complete
    · rcases ih with complete | ⟨before, -⟩
      · have drawn := step.2
        unfold TokenMasker.Draw at drawn
        rw [if_pos complete] at drawn
        exact .inl (drawn ▸ complete)
      · refine .inr ⟨?_, fun _ => some_⟩
        rw [List.length_append, List.length_singleton]
        omega

section Nested

/-- Arrays in one another. -/
def nested : Nat → Machine
  | 0 => { schema := Schema.any, stack := [], done := true, started := true }
  | n + 1 =>
    { schema := Schema.any
      stack := .array { items := none, state := .next } :: List.replicate n (.array { items := none, state := .value })
      started := true }

theorem nested_push (n : Nat) : (nested (n + 1)).push [']'] = some (nested n) := by
  cases n <;> simp [nested, Machine.push, Machine.pushChar, Machine.pushWith, Machine.enter, Machine.inStringBody,
    Machine.inArray, Machine.finishValue, isWs, List.replicate_succ]

theorem nested_depth (n : Nat) : (nested n).depth = n := by
  rw [Machine.depth_eq]
  cases n with
  | zero => rfl
  | succ n =>
    rw [nested, List.countP_cons_of_pos rfl, List.countP_replicate]
    rfl

theorem nested_closes (n : Nat) : (nested (n + 1)).closes [']'] := by
  refine Machine.closes_iff.mpr ⟨nested n, nested_push n, ?_, .inl ?_⟩
  · cases n <;> simp [nested, Machine.viable, Machine.frameViable]
  · rw [nested_depth, nested_depth]
    exact Nat.lt_succ_self n

/-- As many arrays as tokens are reserved, and the bracket that closes one. -/
theorem finishing_closes_nested :
    ∃ ids m', Run (Guarded (fun m _ => m.complete = false → (TokenMasker.new [[']'], []]).Closable m)
      (TokenMasker.Draw Nat (TokenMasker.new [[']'], []]) [1])) (nested closingBudget) ids m' ∧ m'.complete := by
  have goes : ∀ n k, Run (Guarded (fun m _ => m.complete = false → (TokenMasker.new [[']'], []]).Closable m)
      (TokenMasker.Draw Nat (TokenMasker.new [[']'], []]) [1])) (nested (k + n)) (List.replicate n 0) (nested k) := by
    intro n
    induction n with
    | zero => exact fun k => .nil
    | succ n ih =>
      intro k
      have closable : (TokenMasker.new [[']'], []]).Closable (nested (k + 1)) := ⟨[']'], by decide, nested_closes k⟩
      have open_ : (nested (k + 1)).complete = false := by cases k <;> rfl
      rw [List.replicate_succ', show k + (n + 1) = (k + 1) + n by omega]
      refine (ih (k + 1)).snoc ⟨fun _ => closable, ?_⟩
      unfold TokenMasker.Draw
      rw [if_neg (by rw [open_]; decide), if_neg (by decide)]
      refine ⟨⟨[some 0, some 0], rfl, ?_⟩, nested_push k⟩
      exact (TokenMasker.left_iff open_ closable rfl).mpr ⟨by decide, ⟨_, rfl, nested_closes k⟩, 0, rfl⟩
  have run := goes closingBudget 0
  rw [Nat.zero_add] at run
  exact ⟨_, _, run, finishing_closes (Nat.le_of_eq (nested_depth _)) run List.length_replicate⟩

end Nested

section Open

/-- Every character a token of its own, and the end of the sequence. -/
def everyChar : List Text := (List.range 0x110000).map (fun n => [Char.ofNat n]) ++ [[]]

theorem toNat_lt (c : Char) : c.toNat < 0x110000 := by
  rcases c.valid with low | ⟨-, high⟩
  · exact Nat.lt_trans low (by decide)
  · exact high

theorem everyChar_at (c : Char) : everyChar[c.toNat]? = some [c] := by
  have lt := toNat_lt c
  unfold everyChar
  rw [List.getElem?_append_left (by simpa using lt), List.getElem?_map, List.getElem?_range lt]
  simp

theorem everyChar_text {i : Nat} {t : Text} (at_ : everyChar[i]? = some t) : t = [] ∨ ∃ c, t = [c] := by
  have mem := List.mem_of_getElem? at_
  simp only [everyChar, List.mem_append, List.mem_map, List.mem_singleton] at mem
  rcases mem with ⟨n, -, rfl⟩ | rfl
  · exact .inr ⟨_, rfl⟩
  · exact .inl rfl

/-- In a member's string value, with so many characters read. -/
def inValue (n : Nat) : Machine :=
  { schema := Schema.any
    stack := [.str 0 n, .object { node := none, state := .value, key := ['a'] }]
    started := true }

theorem inValue_pushChar (n : Nat) (c : Char) : (inValue n).pushChar c = (inValue n).inString 0 n c := by
  simp [Machine.pushChar, Machine.pushWith, Machine.enter, Machine.inStringBody, inValue]

/-- No character closes anything there. -/
theorem inValue_closes (n : Nat) (c : Char) : (inValue n).closes [c] = false := by
  simp only [Machine.closes, Machine.push, inValue_pushChar, Machine.inString]
  split_ifs <;> simp [Machine.finishValue, Machine.setTop, Machine.depth, Machine.complete, inValue]

theorem inValue_goes {n : Nat} (short : n < maxStringChars) : (inValue n).walk ['a'] = some (inValue (n + 1)) := by
  have step : (inValue n).pushChar 'a' = some (inValue (n + 1)) := by
    rw [inValue_pushChar]
    simp [Machine.inString, Machine.setTop, inValue, Nat.not_le.mpr short]
  have viable : (inValue (n + 1)).viable := by simp [Machine.viable, Machine.frameViable, inValue]
  rw [Machine.walk, step, Option.bind_eq_bind, Option.bind_some, if_pos viable]
  rfl

/-- One character more can be drawn from the row masked for closing. -/
theorem inValue_draw {n : Nat} (short : n < maxStringChars) :
    TokenMasker.Draw Nat (TokenMasker.new everyChar) [0x110000] (inValue n) 97 (inValue (n + 1)) := by
  have at_ : everyChar[97]? = some ['a'] := everyChar_at 'a'
  have inRow : 97 < everyChar.length := (List.getElem?_eq_some_iff.mp at_).1
  have open_ : (inValue n).complete = false := rfl
  unfold TokenMasker.Draw
  rw [if_neg (by rw [open_]; decide)]
  refine ⟨⟨List.replicate everyChar.length (some 0), List.length_replicate, 0, ?_⟩, ?_⟩
  · have unmarked : ((TokenMasker.new everyChar).maskClosing (inValue n)
        (List.replicate everyChar.length false)).any id = false := by
      rw [List.any_eq_false]
      intro x listed marked
      obtain rfl : x = true := marked
      obtain ⟨i, at_⟩ := List.getElem?_of_mem listed
      obtain ⟨-, t, named, closes⟩ := (TokenMasker.maskClosing_iff open_).mp at_
      rcases everyChar_text named with rfl | ⟨c, rfl⟩
      · rw [Machine.closes_nil open_] at closes
        cases closes
      · rw [inValue_closes] at closes
        cases closes
    unfold TokenMasker.maskFinishing
    simp only [open_, Bool.false_eq_true, if_false, List.length_replicate, unmarked]
    have tried : ((TokenMasker.new everyChar).tryAll (inValue n)
        (List.replicate (List.replicate everyChar.length (some 0)).length false))[97]? = some true :=
      TokenMasker.tried_of_walk at_ (by rwa [List.length_replicate]) (inValue_goes short)
    rw [TokenMasker.mask_open open_ tried, if_pos ⟨by decide, tried⟩, List.getElem?_replicate, if_pos inRow]
  · rw [if_neg (by decide), List.getD_eq_getElem?_getD, show (TokenMasker.new everyChar).texts = everyChar from rfl, at_]
    exact Machine.walk_push (inValue_goes short)

/-- Two characters would close it, and the whole budget can go into the string. -/
theorem string_stays_open :
    Schema.compile (.object []) = .ok Schema.any ∧
    (Machine.new Schema.any).walk "\x7b\"a\":\"".toList = some (inValue 0) ∧ (inValue 0).complete = false ∧
    (∀ c, ∃ i, everyChar[i]? = some [c] ∧ i ∉ [0x110000]) ∧
    (∃ closing m', closing.length ≤ closingBudget ∧
      (inValue 0).push ((TokenMasker.new everyChar).said closing) = some m' ∧ m'.complete) ∧
    ∃ ids m', ids.length = closingBudget ∧
      Run (TokenMasker.Draw Nat (TokenMasker.new everyChar) [0x110000]) (inValue 0) ids m' ∧ m'.complete = false := by
  refine ⟨rfl, by decide, rfl, fun c => ⟨c.toNat, everyChar_at c, ?_⟩, ?_, ?_⟩
  · rw [List.mem_singleton]
    exact Nat.ne_of_lt (toNat_lt c)
  · have said : (TokenMasker.new everyChar).said [34, 125] = ['"', '\x7d'] := by
      have quote : everyChar[34]? = some ['"'] := everyChar_at '"'
      have brace : everyChar[125]? = some ['\x7d'] := everyChar_at '\x7d'
      simp [TokenMasker.said, List.getD_eq_getElem?_getD, show (TokenMasker.new everyChar).texts = everyChar from rfl,
        quote, brace]
    exact ⟨[34, 125], nested 0, by decide, said ▸ by decide, rfl⟩
  · have goes : ∀ n ≤ closingBudget,
        Run (TokenMasker.Draw Nat (TokenMasker.new everyChar) [0x110000]) (inValue 0) (List.replicate n 97) (inValue n) := by
      intro n few
      induction n with
      | zero => exact .nil
      | succ n ih =>
        rw [List.replicate_succ']
        refine (ih (Nat.le_of_succ_le few)).snoc (inValue_draw (Nat.lt_of_lt_of_le few ?_))
        decide
    exact ⟨_, _, List.length_replicate, goes closingBudget (Nat.le_refl _), rfl⟩

end Open

end Vapi.Structured
