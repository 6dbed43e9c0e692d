import Vapi.Structured.Masker

/-!
# Masking a document

A document is cut into tokens, and each is drawn from a row masked for what
came before it. While the document is open a token survives unless it has no
text or ends the sequence. Where the machine takes the document for complete,
only the end of the sequence does.
-/

namespace Vapi.Structured

namespace TokenMasker

variable {L : Type} {texts : List Text} {m m' : Machine} {i j token : Nat} {t u : Text} {c : Char} {eos : List Nat}

/-- Whatever the row, the token's logit is left as it was. -/
def Survives (L : Type) (k : TokenMasker) (m : Machine) (eos : List Nat) (token : Nat) : Prop :=
  ∀ logits : List (Option L), logits.length = k.texts.length → (k.mask m eos logits)[token]? = logits[token]?

/-- The text of the tokens. -/
def said (k : TokenMasker) (ids : List Nat) : Text := ids.flatMap fun token => k.texts.getD token []

section Mask

variable {k : TokenMasker} {logits : List (Option L)}

theorem mask_complete (complete : m.complete) :
    (k.mask m eos logits)[i]? = if i ∈ eos then logits[i]? else logits[i]?.map fun _ => none := by
  unfold mask onlyEos
  rw [if_pos complete, List.getElem?_mapIdx]
  split
  · exact Option.map_id'
  · rfl

theorem any_of_mark {allowed : List Bool} (h : allowed[i]? = some true) : allowed.any id = true :=
  List.any_eq_true.mpr ⟨true, List.mem_of_getElem? h, rfl⟩

/-- Where some token can be read, those tried with success survive. -/
theorem mask_open (incomplete : m.complete = false)
    (some_ : (k.tryAll m (List.replicate logits.length false))[j]? = some true) :
    (k.mask m eos logits)[i]? =
      if i ∉ eos ∧ (k.tryAll m (List.replicate logits.length false))[i]? = some true then logits[i]?
      else logits[i]?.map fun _ => none := by
  have any := any_of_mark some_
  unfold mask
  simp only [incomplete, Bool.false_eq_true, if_false, any, if_true]
  unfold onlyAllowed
  rw [List.getElem?_mapIdx]
  by_cases ends : i ∈ eos
  · simp [ends]
  · by_cases allowed : (k.tryAll m (List.replicate logits.length false))[i]? = some true
    · simp [ends, allowed]
    · simp [ends, allowed]

end Mask

/-- In a row of no negative infinity, what is set to it does not survive. -/
theorem survives_iff [Inhabited L] {k : TokenMasker} (keeps : Prop) [Decidable keeps] (inRow : token < k.texts.length)
    (masked : ∀ logits : List (Option L), logits.length = k.texts.length →
      (k.mask m eos logits)[token]? = if keeps then logits[token]? else logits[token]?.map fun _ => none) :
    Survives L k m eos token ↔ keeps := by
  constructor
  · intro survives
    by_contra drops
    let row := List.replicate k.texts.length (some (default : L))
    have length : row.length = k.texts.length := List.length_replicate
    have same := survives row length
    rw [masked row length, if_neg drops, List.getElem?_replicate, if_pos inRow] at same
    cases same
  · intro keeps logits length
    rw [masked logits length, if_pos keeps]

section Walk

theorem walk_cons (h : m.walk (c :: t) = some m') : ∃ m₁, m.pushChar c = some m₁ ∧ m₁.viable ∧ m₁.walk t = some m' := by
  obtain ⟨m₁, step, rest⟩ := Option.bind_eq_some_iff.mp h
  split at rest
  · exact ⟨m₁, step, ‹_›, rest⟩
  · cases rest

theorem walk_viable (h : m.walk (c :: t) = some m') : m'.viable := by
  induction t generalizing m c with
  | nil =>
    obtain ⟨m₁, -, viable, rest⟩ := walk_cons h
    cases rest
    exact viable
  | cons d t ih =>
    obtain ⟨m₁, -, -, rest⟩ := walk_cons h
    exact ih rest

theorem walk_allows (h : m.walk (c :: t) = some m') : m.allows [c] ∧ m.allows (c :: t) := by
  constructor
  · obtain ⟨m₁, step, viable, -⟩ := walk_cons h
    unfold Machine.allows
    rw [Machine.push, step]
    exact viable
  · unfold Machine.allows
    rw [Machine.walk_push h]
    exact walk_viable h

theorem worth_of_first {b : UInt8} (first : (asBytes (c :: t)).head? = some b) (allowed : m.allows [c]) : worthTrying m b := by
  have latin_first : (byteChars (c :: t)).head? = some (Char.ofNat b.toNat) := by
    rw [byteChars, List.head?_map, first]
    rfl
  unfold worthTrying
  by_cases ascii : c.toNat < 0x80
  · rw [byteChars_eq, Document.flatMap_cons_ascii faithful_latin ascii] at latin_first
    rw [← Option.some.inj latin_first, allowed, Bool.or_true]
  · obtain ⟨some_, wide⟩ := latin_wide (Nat.not_lt.mp ascii)
    obtain ⟨x, l, e⟩ := List.exists_cons_of_ne_nil some_
    rw [byteChars_eq, List.flatMap_cons, e] at latin_first
    have high := wide x (by simp [e])
    have byte : (Char.ofNat b.toNat).toNat = b.toNat := by simpa using toNat_ofByte b.toNat_lt
    rw [show x = Char.ofNat b.toNat from Option.some.inj latin_first, byte] at high
    have large : ¬b < 0x80 := Nat.not_lt.mpr high
    simp [large]

theorem bytes_cons (c : Char) (t : Text) : ∃ b l, asBytes (c :: t) = b :: l := by
  have some_ : latin c ≠ [] := by
    by_cases ascii : c.toNat < 0x80
    · rw [latin_ascii ascii]
      simp
    · exact (latin_wide (Nat.not_lt.mp ascii)).1
  refine List.exists_cons_of_ne_nil fun none_ => some_ ?_
  have := byteChars_eq (c :: t)
  rw [byteChars, none_, List.flatMap_cons] at this
  exact (List.append_eq_nil_iff.mp this.symm).1

/-- A token whose text is read with the machine viable throughout is tried with success. -/
theorem tried_of_walk (at_ : texts[i]? = some (c :: t)) {n : Nat} (inRow : i < n) (h : m.walk (c :: t) = some m') :
    ((new texts).tryAll m (List.replicate n false))[i]? = some true := by
  obtain ⟨first, whole⟩ := walk_allows h
  obtain ⟨b, l, e⟩ := bytes_cons c t
  exact tryAll_iff.mpr ⟨inRow, c :: t, b, at_, by rw [e]; rfl, worth_of_first (by rw [e]; rfl) first, whole⟩

end Walk

section Cuts

variable {ids pre post : List Nat}

theorem said_cons (k : TokenMasker) (token : Nat) (ids : List Nat) : k.said (token :: ids) = k.texts.getD token [] ++ k.said ids := rfl

theorem said_append (k : TokenMasker) (pre post : List Nat) : k.said (pre ++ post) = k.said pre ++ k.said post :=
  List.flatMap_append

/-- An open document goes on with some token that has a text. -/
theorem exists_tried (open_ : m.complete = false) (known : ∀ token ∈ ids, token < texts.length)
    (walked : m.walk ((new texts).said ids) = some m') (complete : m'.complete) :
    ∃ j : Nat, ((new texts).tryAll m (List.replicate texts.length false))[j]? = some true := by
  induction ids with
  | nil =>
    rw [Option.some.inj walked, complete] at open_
    cases open_
  | cons token ids ih =>
    have inRow := known token (List.mem_cons_self ..)
    rw [said_cons] at walked
    obtain ⟨text, at_⟩ : ∃ text, texts[token]? = some text := ⟨_, List.getElem?_eq_getElem inRow⟩
    have here : (new texts).texts.getD token [] = text := by
      rw [show (new texts).texts = texts from rfl, List.getD_eq_getElem?_getD, at_]
      rfl
    rw [here] at walked
    cases text with
    | nil => exact ih (fun x hx => known x (List.mem_cons_of_mem _ hx)) walked
    | cons c t =>
      rw [Machine.walk_append] at walked
      obtain ⟨m₁, first, -⟩ := Option.bind_eq_some_iff.mp walked
      exact ⟨token, tried_of_walk at_ inRow first⟩

/-- Where a token of a document survives. -/
theorem survives_iff_at [Inhabited L] (known : ∀ x ∈ token :: post, x < texts.length)
    (walked : m.walk ((new texts).said (token :: post)) = some m') (complete : m'.complete) :
    Survives L (new texts) m eos token ↔
      (m.complete → token ∈ eos) ∧ (m.complete = false → texts.getD token [] ≠ [] ∧ token ∉ eos) := by
  have inRow := known token (List.mem_cons_self ..)
  cases whole : m.complete with
  | true =>
    rw [survives_iff (token ∈ eos) inRow fun logits _ => mask_complete whole]
    simp
  | false =>
    obtain ⟨j, some_⟩ := exists_tried whole known walked complete
    have tried : ((new texts).tryAll m (List.replicate texts.length false))[token]? = some true ↔ texts.getD token [] ≠ [] := by
      constructor
      · intro tried
        obtain ⟨-, t, b, at_, first, -⟩ := tryAll_iff.mp tried
        rw [List.getD_eq_getElem?_getD, at_]
        rintro rfl
        cases first
      · intro text
        obtain ⟨c, t, e⟩ := List.exists_cons_of_ne_nil text
        have at_ : texts[token]? = some (c :: t) := by
          rw [← e, List.getD_eq_getElem?_getD, List.getElem?_eq_getElem inRow]
          rfl
        rw [said_cons, show (new texts).texts.getD token [] = c :: t from e, Machine.walk_append] at walked
        obtain ⟨m₁, first, -⟩ := Option.bind_eq_some_iff.mp walked
        exact tried_of_walk at_ inRow first
    rw [survives_iff (token ∉ eos ∧ ((new texts).tryAll m (List.replicate texts.length false))[token]? = some true)
      inRow fun logits length => ?_, tried]
    · simp [and_comm]
    · rw [show texts.length = logits.length from length.symm] at some_ ⊢
      exact mask_open whole some_

end Cuts

end TokenMasker

/-- The document, viable throughout, is cut into tokens. Each survives the mask
before it, and in the end the end of the sequence, exactly if no token follows
a document that is already complete and none is without text or ends the sequence. -/
theorem mask_admits_iff {L : Type} [Inhabited L] {s : Schema} {texts : List Text} {eos ids : List Nat} {m' : Machine}
    (known : ∀ token ∈ ids, token < texts.length)
    (walked : (Machine.new s).walk ((TokenMasker.new texts).said ids) = some m') (complete : m'.complete) :
    ((∀ pre token post m, ids = pre ++ token :: post → (Machine.new s).push ((TokenMasker.new texts).said pre) = some m →
        (TokenMasker.new texts).Survives L m eos token) ∧
      ∀ e ∈ eos, (TokenMasker.new texts).Survives L m' eos e) ↔
    ∀ pre token post m, ids = pre ++ token :: post → (Machine.new s).push ((TokenMasker.new texts).said pre) = some m →
      (m.complete → token ∈ eos) ∧ (m.complete = false → texts.getD token [] ≠ [] ∧ token ∉ eos) := by
  have ends : ∀ e ∈ eos, (TokenMasker.new texts).Survives L m' eos e := by
    intro e he logits _
    rw [TokenMasker.mask_complete complete, if_pos he]
  have each : ∀ pre token post m, ids = pre ++ token :: post →
      (Machine.new s).push ((TokenMasker.new texts).said pre) = some m →
      ((TokenMasker.new texts).Survives L m eos token ↔
        (m.complete → token ∈ eos) ∧ (m.complete = false → texts.getD token [] ≠ [] ∧ token ∉ eos)) := by
    rintro pre token post m rfl pushed
    rw [TokenMasker.said_append, Machine.walk_append] at walked
    obtain ⟨m₁, first, rest⟩ := Option.bind_eq_some_iff.mp walked
    obtain rfl := Option.some.inj ((Machine.walk_push first).symm.trans pushed)
    exact TokenMasker.survives_iff_at (fun x hx => known x (List.mem_append_right _ hx)) rest complete
  rw [and_iff_left ends]
  refine forall_congr' fun pre => forall_congr' fun token => forall_congr' fun post => forall_congr' fun m => ?_
  exact imp_congr_right fun cut => imp_congr_right fun pushed => each pre token post m cut pushed

section Cut

/-- Two digits, both at once, and the end of the sequence. -/
def digits : List Text := [['1'], ['2'], ['1', '2'], []]

theorem mask_admits_whole :
    ((∀ pre token post m, [2] = pre ++ token :: post → (Machine.new Schema.any).push ((TokenMasker.new digits).said pre) = some m →
        (TokenMasker.new digits).Survives Nat m [3] token) ∧
      ∀ e ∈ [3], (TokenMasker.new digits).Survives Nat
        { schema := Schema.any
          stack := [.number { integer := false, seenDigit := true, afterSign := false, len := 2 }]
          started := true } [3] e) ↔
    ∀ pre token post m, [2] = pre ++ token :: post → (Machine.new Schema.any).push ((TokenMasker.new digits).said pre) = some m →
      (m.complete → token ∈ [3]) ∧ (m.complete = false → digits.getD token [] ≠ [] ∧ token ∉ [3]) :=
  mask_admits_iff (by decide) (by decide) (by decide)

/-- The machine after the digit one. -/
def afterOne : Machine :=
  { schema := Schema.any
    stack := [.number { integer := false, seenDigit := true, afterSign := false }]
    started := true }

/-- A number cut in two cannot be drawn. -/
theorem cut_number_masked :
    ((Machine.new Schema.any).walk ((TokenMasker.new digits).said [0, 1])).any Machine.complete ∧
      (Machine.new Schema.any).push ((TokenMasker.new digits).said [0]) = some afterOne ∧
      (TokenMasker.new digits).mask afterOne [3] [some 0, some 0, some 0, some 0] = [none, none, none, some 0] :=
  ⟨by decide, by decide, by decide⟩

end Cut

end Vapi.Structured
