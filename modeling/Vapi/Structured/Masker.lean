import Vapi.Structured.Finishing

/-!
# The masked vocabulary

Which tokens a machine still allows, computed by trying them. A row holds a
logit for each token; none stands for negative infinity. The vocabulary is
bucketed by first byte, and a bucket of an ASCII character that is not allowed
is not tried.
-/

namespace Vapi.Structured

structure TokenMasker where
  texts : List Text
  byFirst : List (UInt8 × List Nat)

namespace TokenMasker

/-- One more id in the bucket of its byte. -/
def push (b : UInt8) (id : Nat) : List (UInt8 × List Nat) → List (UInt8 × List Nat)
  | [] => [(b, [id])]
  | (b', ids) :: rest => if b' = b then (b', ids ++ [id]) :: rest else (b', ids) :: push b id rest

/-- `texts` is the vocabulary, indexed by token id. -/
def new (texts : List Text) : TokenMasker where
  texts
  byFirst := texts.zipIdx.foldl (fun buckets t =>
    match (asBytes t.1).head? with
    | some b => push b t.2 buckets
    | none => buckets) []

section Rows

variable {L : Type}

/-- Mark those of the ids that are in the row and pass. -/
def mark (p : Nat → Bool) (allowed : List Bool) (ids : List Nat) : List Bool :=
  ids.foldl (fun allowed id => if id < allowed.length && p id then allowed.set id true else allowed) allowed

/-- Only tokens whose first byte can follow are tried. A multi-byte character's
first byte is no character on its own. -/
def worthTrying (m : Machine) (b : UInt8) : Bool := !(b < 0x80) || m.allows [Char.ofNat b.toNat]

def tryAll (k : TokenMasker) (m : Machine) (allowed : List Bool) : List Bool :=
  k.byFirst.foldl (fun allowed bucket =>
    if worthTrying m bucket.1 then mark (fun id => (k.texts[id]?).any m.allows) allowed bucket.2 else allowed) allowed

/-- Fill in the tokens that close a container or complete the document. -/
def maskClosing (k : TokenMasker) (m : Machine) (allowed : List Bool) : List Bool :=
  k.byFirst.foldl (fun allowed bucket => mark (fun id => (k.texts[id]?).any fun t =>
    (m.push t).any fun probe => probe.viable && (probe.depth < m.depth || probe.complete)) allowed bucket.2) allowed

/-- Every logit but those of the end of the sequence set to negative infinity. -/
def onlyEos (eos : List Nat) (logits : List (Option L)) : List (Option L) :=
  logits.mapIdx fun id l => if id ∈ eos then l else none

/-- Every logit but those allowed set to negative infinity, and those of the
end of the sequence too. -/
def onlyAllowed (eos : List Nat) (allowed : List Bool) (logits : List (Option L)) : List (Option L) :=
  logits.mapIdx fun id l => if id ∈ eos then none else if allowed[id]? = some true then l else none

/-- Set every logit the machine forbids to negative infinity. Where nothing
continues the document, what closes it is left, and failing that its end. -/
def mask (k : TokenMasker) (m : Machine) (eos : List Nat) (logits : List (Option L)) : List (Option L) :=
  if m.complete then onlyEos eos logits
  else
    let allowed := k.tryAll m (List.replicate logits.length false)
    let allowed := if allowed.any id then allowed else k.maskClosing m allowed
    if allowed.any id then onlyAllowed eos allowed logits else onlyEos eos logits

/-- The same for the last few tokens of a budget: only tokens that bring the
document to a close are left, if there are any. -/
def maskFinishing (k : TokenMasker) (m : Machine) (eos : List Nat) (logits : List (Option L)) : List (Option L) :=
  if m.complete then k.mask m eos logits
  else
    let allowed := k.maskClosing m (List.replicate logits.length false)
    if allowed.any id then onlyAllowed eos allowed logits else k.mask m eos logits

end Rows

section Buckets

theorem push_mem {b b' : UInt8} {id id' : Nat} {buckets : List (UInt8 × List Nat)} :
    (∃ ids, (b', ids) ∈ push b id buckets ∧ id' ∈ ids) ↔
      (∃ ids, (b', ids) ∈ buckets ∧ id' ∈ ids) ∨ b' = b ∧ id' = id := by
  induction buckets with
  | nil => simp [push]
  | cons bucket rest ih =>
    obtain ⟨b₀, ids₀⟩ := bucket
    rw [push]
    split
    · rename_i same
      simp only [List.mem_cons, Prod.mk.injEq]
      constructor
      · rintro ⟨ids, ⟨rfl, rfl⟩ | listed, here⟩
        · rcases List.mem_append.mp here with here | here
          · exact .inl ⟨ids₀, .inl ⟨rfl, rfl⟩, here⟩
          · exact .inr ⟨same, List.mem_singleton.mp here⟩
        · exact .inl ⟨ids, .inr listed, here⟩
      · rintro (⟨ids, ⟨rfl, rfl⟩ | listed, here⟩ | ⟨rfl, rfl⟩)
        · exact ⟨_, .inl ⟨rfl, rfl⟩, List.mem_append_left _ here⟩
        · exact ⟨ids, .inr listed, here⟩
        · exact ⟨_, .inl ⟨same.symm, rfl⟩, by simp⟩
    · simp only [List.mem_cons, or_and_right, exists_or, ih, or_assoc]

theorem buckets_mem (texts : List (Text × Nat)) (b : UInt8) (id : Nat) :
    ∀ buckets : List (UInt8 × List Nat),
      (∃ ids, (b, ids) ∈ texts.foldl (fun buckets t =>
        match (asBytes t.1).head? with
        | some b => push b t.2 buckets
        | none => buckets) buckets ∧ id ∈ ids) ↔
        (∃ ids, (b, ids) ∈ buckets ∧ id ∈ ids) ∨ ∃ t, (t, id) ∈ texts ∧ (asBytes t).head? = some b := by
  induction texts with
  | nil => simp
  | cons t texts ih =>
    intro buckets
    rw [List.foldl_cons, ih]
    obtain ⟨t, id'⟩ := t
    cases head : (asBytes t).head? with
    | none =>
      simp only [List.mem_cons, Prod.mk.injEq]
      refine or_congr_right ⟨?_, ?_⟩
      · rintro ⟨u, listed, first⟩
        exact ⟨u, .inr listed, first⟩
      · rintro ⟨u, ⟨rfl, rfl⟩ | listed, first⟩
        · rw [head] at first
          cases first
        · exact ⟨u, listed, first⟩
    | some b' =>
      simp only [push_mem, List.mem_cons, Prod.mk.injEq, or_assoc]
      refine or_congr_right ⟨?_, ?_⟩
      · rintro (⟨rfl, rfl⟩ | ⟨u, listed, first⟩)
        · exact ⟨t, .inl ⟨rfl, rfl⟩, head⟩
        · exact ⟨u, .inr listed, first⟩
      · rintro ⟨u, ⟨rfl, rfl⟩ | listed, first⟩
        · rw [head] at first
          exact .inl ⟨(Option.some.inj first).symm, rfl⟩
        · exact .inr ⟨u, listed, first⟩

/-- A bucket holds the tokens whose text begins with its byte. -/
theorem new_mem {texts : List Text} {b : UInt8} {id : Nat} :
    (∃ ids, (b, ids) ∈ (new texts).byFirst ∧ id ∈ ids) ↔ ∃ t, texts[id]? = some t ∧ (asBytes t).head? = some b := by
  unfold new
  simp only
  rw [buckets_mem]
  simp [List.mem_zipIdx_iff_getElem?]

end Buckets

section Marks

theorem mark_cons (p : Nat → Bool) (allowed : List Bool) (id : Nat) (ids : List Nat) : mark p allowed (id :: ids) =
    mark p (if id < allowed.length && p id then allowed.set id true else allowed) ids := rfl

theorem mark_length (p : Nat → Bool) (ids : List Nat) : ∀ allowed, (mark p allowed ids).length = allowed.length := by
  induction ids with
  | nil => exact fun _ => rfl
  | cons id ids ih =>
    intro allowed
    rw [mark_cons, ih]
    split
    · exact List.length_set
    · rfl

theorem mark_iff (p : Nat → Bool) (ids : List Nat) (i : Nat) :
    ∀ allowed : List Bool, (mark p allowed ids)[i]? = some true ↔
      allowed[i]? = some true ∨ i < allowed.length ∧ i ∈ ids ∧ p i := by
  induction ids with
  | nil =>
    intro allowed
    simp [mark]
  | cons id ids ih =>
    intro allowed
    rw [mark_cons, ih]
    split
    · rename_i marked
      obtain ⟨inRow, passes⟩ := Bool.and_eq_true_iff.mp marked
      rw [List.length_set, List.getElem?_set]
      by_cases same : id = i
      · subst same
        simp_all
      · simp [same, Ne.symm same]
    · rename_i unmarked
      rw [Bool.and_eq_true, decide_eq_true_eq] at unmarked
      refine or_congr_right (and_congr_right fun inRow => ?_)
      rw [List.mem_cons, or_and_right]
      refine ⟨.inr, fun h => h.resolve_left ?_⟩
      rintro ⟨rfl, passes⟩
      exact unmarked ⟨inRow, passes⟩

/-- A mark is left by some bucket. -/
theorem marks_iff (p : UInt8 → Nat → Bool) (buckets : List (UInt8 × List Nat)) (i : Nat) :
    ∀ allowed : List Bool, (buckets.foldl (fun allowed bucket => mark (p bucket.1) allowed bucket.2) allowed)[i]? = some true ↔
      allowed[i]? = some true ∨ i < allowed.length ∧ ∃ b, (∃ ids, (b, ids) ∈ buckets ∧ i ∈ ids) ∧ p b i := by
  induction buckets with
  | nil => simp
  | cons bucket buckets ih =>
    intro allowed
    obtain ⟨b, ids⟩ := bucket
    rw [List.foldl_cons, ih, mark_iff, mark_length, or_assoc, ← and_or_left]
    refine or_congr_right (and_congr_right fun _ => ⟨?_, ?_⟩)
    · rintro (⟨here, passes⟩ | ⟨b', ⟨ids', listed, here⟩, passes⟩)
      · exact ⟨b, ⟨ids, List.mem_cons_self .., here⟩, passes⟩
      · exact ⟨b', ⟨ids', List.mem_cons_of_mem _ listed, here⟩, passes⟩
    · rintro ⟨b', ⟨ids', listed, here⟩, passes⟩
      rcases List.mem_cons.mp listed with same | listed
      · obtain ⟨rfl, rfl⟩ := Prod.mk.inj same
        exact .inl ⟨here, passes⟩
      · exact .inr ⟨b', ⟨ids', listed, here⟩, passes⟩

theorem marks_length (p : UInt8 → Nat → Bool) (buckets : List (UInt8 × List Nat)) :
    ∀ allowed : List Bool,
      (buckets.foldl (fun allowed bucket => mark (p bucket.1) allowed bucket.2) allowed).length = allowed.length := by
  induction buckets with
  | nil => exact fun _ => rfl
  | cons bucket buckets ih => exact fun allowed => (ih _).trans (mark_length ..)

variable {texts : List Text} {m : Machine} {i n : Nat}

/-- The tokens tried with success: those allowed, where their first byte is worth trying. -/
theorem tryAll_iff : ((new texts).tryAll m (List.replicate n false))[i]? = some true ↔
    i < n ∧ ∃ t b, texts[i]? = some t ∧ (asBytes t).head? = some b ∧ worthTrying m b ∧ m.allows t := by
  have same : (new texts).tryAll m (List.replicate n false) = (new texts).byFirst.foldl (fun allowed bucket =>
      mark (fun id => worthTrying m bucket.1 && (texts[id]?).any m.allows) allowed bucket.2) (List.replicate n false) := by
    unfold tryAll
    congr 1
    funext allowed bucket
    split
    · rename_i worth
      simp only [worth, Bool.true_and]
      rfl
    · rename_i not_worth
      simp only [Bool.eq_false_iff.mpr not_worth, Bool.false_and]
      unfold mark
      simp
  rw [same, marks_iff (fun b id => worthTrying m b && (texts[id]?).any m.allows)]
  simp only [List.length_replicate, new_mem]
  constructor
  · rintro (already | ⟨inRow, b, ⟨t, at_, first⟩, passes⟩)
    · simp [List.getElem?_replicate] at already
    · rw [at_, Option.any_some, Bool.and_eq_true] at passes
      exact ⟨inRow, t, b, at_, first, passes⟩
  · rintro ⟨inRow, t, b, at_, first, passes⟩
    refine .inr ⟨inRow, b, ⟨t, at_, first⟩, ?_⟩
    rw [at_, Option.any_some, Bool.and_eq_true]
    exact passes

end Marks

end TokenMasker

end Vapi.Structured
