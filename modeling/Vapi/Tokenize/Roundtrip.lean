import Vapi.Tokenize.Tekken

/-!
# Encoding and back

Merging moves the borders of a piece's parts and leaves its bytes. Every part
has a rank, so its id decodes to it.
-/

namespace Vapi.Tokenize

namespace Tekken

variable {R : Type}

/-- Ranks are those of the vocabulary's entries. -/
def Ranked (vocab : List (List UInt8)) (ranks : List UInt8 → Option UInt32) : Prop :=
  (∀ bytes rank, ranks bytes = some rank → ∃ k, rank = UInt32.ofNat k ∧ vocab[k]? = some bytes) ∧
    ∀ bytes ∈ vocab, (ranks bytes).isSome

structure Wf (t : Tekken R) : Prop where
  slots : t.specials.length = t.numSpecial
  ranked : Ranked t.vocab t.ranks

section Read

variable {lib : Libraries R}

theorem ranked_insert {vocab : List (List UInt8)} {ranks : List UInt8 → Option UInt32} (ranked : Ranked vocab ranks)
    (bytes : List UInt8) : Ranked (vocab ++ [bytes]) (insert ranks bytes (UInt32.ofNat vocab.length)) := by
  obtain ⟨entry, known⟩ := ranked
  constructor
  · intro b rank found
    unfold insert at found
    split at found
    · rename_i same
      cases found
      exact ⟨vocab.length, rfl, by simp [same]⟩
    · obtain ⟨k, is, at_⟩ := entry b rank found
      exact ⟨k, is, List.getElem?_append_left (List.getElem?_eq_some_iff.mp at_).1 ▸ at_⟩
  · intro b mem
    unfold insert
    split
    · rfl
    · rename_i other
      rcases List.mem_append.mp mem with old | new
      · exact known b old
      · exact absurd (List.mem_singleton.mp new) other

theorem readVocab_ranked {entries : List VocabEntry} {vocab vocab' : List (List UInt8)}
    {ranks ranks' : List UInt8 → Option UInt32} (ranked : Ranked vocab ranks)
    (read : readVocab lib vocab ranks entries = .ok (vocab', ranks')) : Ranked vocab' ranks' := by
  induction entries generalizing vocab ranks with
  | nil =>
    cases read
    exact ranked
  | cons entry rest ih =>
    rw [readVocab] at read
    split at read
    · cases read
    · exact ih (ranked_insert ranked _) read

theorem readSpecials_length (numSpecial : Nat) (entries : List SpecialEntry) (specials : List (Option Special))
    (byName : Text → Option UInt32) : (readSpecials numSpecial specials byName entries).1.length = specials.length := by
  induction entries generalizing specials byName with
  | nil => rfl
  | cons entry rest ih =>
    rw [readSpecials]
    split
    · exact ih specials byName
    · rw [ih, List.length_set]

theorem wf_of_fromJson {text : Text} {t : Tekken R} (read : fromJson lib text = .ok t) : t.Wf := by
  unfold fromJson at read
  split at read
  · cases read
  dsimp only at read
  split at read
  · cases read
  rename_i vocab ranks listed
  split at read
  · cases read
  cases read
  have none : Ranked [] fun _ => none := ⟨fun _ _ found => (by cases found), fun _ mem => (by cases mem)⟩
  exact ⟨(readSpecials_length _ _ _ _).trans List.length_replicate, readVocab_ranked none listed⟩

variable (lib)

theorem readVocab_ok {f : VocabEntry → List UInt8} (entries : List VocabEntry) (vocab : List (List UInt8))
    (ranks : List UInt8 → Option UInt32) (decoded : ∀ entry ∈ entries, lib.base64 entry.tokenBytes = .ok (f entry)) :
    ∃ ranks', readVocab lib vocab ranks entries = .ok (vocab ++ entries.map f, ranks') := by
  induction entries generalizing vocab ranks with
  | nil => exact ⟨ranks, by rw [List.map_nil, List.append_nil]; rfl⟩
  | cons entry rest ih =>
    obtain ⟨ranks', read⟩ := ih (vocab ++ [f entry]) (insert ranks (f entry) (UInt32.ofNat vocab.length))
      fun other mem => decoded other (List.mem_cons_of_mem entry mem)
    refine ⟨ranks', ?_⟩
    rw [readVocab, decoded entry List.mem_cons_self, List.map_cons, List.append_cons]
    exact read

/-- Whatever its sizes, a file is accepted whose entries and pattern are. -/
theorem fromJson_ok {f : VocabEntry → List UInt8} {text : Text} {file : TekkenFile} {pattern : R}
    (json : lib.json text = .ok file) (decoded : ∀ entry ∈ file.vocab, lib.base64 entry.tokenBytes = .ok (f entry))
    (regex : lib.regex file.config.pattern = .ok pattern) :
    ∃ t, fromJson lib text = .ok t ∧ t.numSpecial = file.config.defaultNumSpecialTokens ∧ t.pattern = pattern ∧
      t.vocab = (file.vocab.take (file.config.defaultVocabSize - file.config.defaultNumSpecialTokens)).map f := by
  obtain ⟨ranks, read⟩ := readVocab_ok lib (f := f)
    (file.vocab.take (file.config.defaultVocabSize - file.config.defaultNumSpecialTokens)) [] (fun _ => none)
    fun entry mem => decoded entry (List.mem_of_mem_take mem)
  rw [List.nil_append] at read
  unfold fromJson
  simp only [json, read, regex]
  exact ⟨_, rfl, rfl, rfl, rfl⟩

end Read

section Merge

variable {t : Tekken R} {piece : List UInt8} {parts : List (List UInt8)}

/-- The best pair is one of neighbours, and joined it has a rank. -/
theorem best_some {i : Nat} {rank : UInt32} (found : t.best parts = some (i, rank)) :
    i + 1 < parts.length ∧ t.ranks (parts.getD i [] ++ parts.getD (i + 1) []) = some rank := by
  have among : ∀ (places : List Nat) (first : Option (Nat × UInt32)),
      (∀ b ∈ first, b.1 + 1 < parts.length ∧ t.ranks (parts.getD b.1 [] ++ parts.getD (b.1 + 1) []) = some b.2) →
      (∀ i ∈ places, i + 1 < parts.length) → ∀ b ∈ places.foldl (t.better parts) first,
        b.1 + 1 < parts.length ∧ t.ranks (parts.getD b.1 [] ++ parts.getD (b.1 + 1) []) = some b.2 := by
    intro places
    induction places with
    | nil => exact fun first holds _ => holds
    | cons i places ih =>
      intro first holds within
      refine ih _ ?_ fun j hj => within j (List.mem_cons_of_mem i hj)
      rw [better]
      split
      · rename_i rank ranked
        split
        · intro b mem
          obtain rfl := Option.some.inj mem
          exact ⟨within i List.mem_cons_self, ranked⟩
        · exact holds
      · exact holds
  exact among _ none nofun (fun i hi => by have := List.mem_range.mp hi; omega) (i, rank) found

/-- The parts of a piece: they make it up, and each has a rank. -/
structure Parts (t : Tekken R) (piece : List UInt8) (parts : List (List UInt8)) : Prop where
  whole : parts.flatten = piece
  ranked : ∀ part ∈ parts, (t.ranks part).isSome

/-- Two neighbours made one. -/
theorem merged_eq {xs ys : List (List UInt8)} {a b : List UInt8} (whole : (xs ++ a :: b :: ys).flatten = piece) :
    ((xs ++ a :: b :: ys).set xs.length
        ((piece.drop ((xs ++ a :: b :: ys).take xs.length |>.map List.length).sum).take (a.length + b.length))).eraseIdx
      (xs.length + 1) = xs ++ (a ++ b) :: ys := by
  have start : ((xs ++ a :: b :: ys).take xs.length |>.map List.length).sum = xs.flatten.length := by
    rw [List.take_left, List.length_flatten]
  have span : (piece.drop xs.flatten.length).take (a.length + b.length) = a ++ b := by
    rw [← whole, List.flatten_append, List.drop_left, List.flatten_cons, List.flatten_cons, ← List.append_assoc,
      ← List.length_append, List.take_left]
  rw [start, span, List.set_append_right _ _ (Nat.le_refl _), Nat.sub_self, List.set_cons_zero,
    List.eraseIdx_append_of_length_le (Nat.le_succ _), show xs.length + 1 - xs.length = 1 by omega]
  rfl

theorem mergeFrom_parts (held : Parts t piece parts) (fuel : Nat) : Parts t piece (t.mergeFrom piece fuel parts) := by
  induction fuel generalizing parts with
  | zero => exact held
  | succ fuel ih =>
    rw [mergeFrom]
    cases found : t.best parts with
    | none => exact held
    | some pair =>
      obtain ⟨i, rank⟩ := pair
      obtain ⟨within, joined⟩ := best_some found
      -- the two neighbours, and the parts before and after them
      obtain ⟨xs, a, b, ys, rfl, rfl⟩ : ∃ xs a b ys, parts = xs ++ a :: b :: ys ∧ i = xs.length := by
        refine ⟨parts.take i, parts[i], parts[i + 1], parts.drop (i + 2), ?_, by rw [List.length_take]; omega⟩
        rw [← List.drop_eq_getElem_cons, ← List.drop_eq_getElem_cons, List.take_append_drop]
      have first : (xs ++ a :: b :: ys).getD xs.length [] = a := by simp
      have second : (xs ++ a :: b :: ys).getD (xs.length + 1) [] = b := by
        simp
      rw [first, second] at joined
      dsimp only
      rw [first, second, merged_eq held.whole]
      refine ih ⟨by rw [← held.whole]; simp, fun part mem => ?_⟩
      have ranked := held.ranked
      simp only [List.mem_append, List.mem_cons] at mem ranked
      rcases mem with before | rfl | after
      · exact ranked part (.inl before)
      · rw [joined]
        rfl
      · exact ranked part (.inr (.inr (.inr after)))

/-- A turn leaves one part fewer, so the merging stops where no neighbours have a rank together. -/
theorem mergeFrom_ends (fuel : Nat) (turns : parts.length ≤ fuel + 1) :
    t.best (t.mergeFrom piece fuel parts) = none := by
  induction fuel generalizing parts with
  | zero =>
    rw [mergeFrom, best, Nat.sub_eq_zero_of_le turns]
    rfl
  | succ fuel ih =>
    rw [mergeFrom]
    cases found : t.best parts with
    | none => exact found
    | some pair =>
      have within := (best_some found).1
      refine ih ?_
      rw [List.length_eraseIdx_of_lt (by rwa [List.length_set]), List.length_set]
      omega

end Merge

/-- Matches that follow one another, from a byte on. -/
def Ranges (len : Nat) : Nat → List (Nat × Nat) → Prop
  | at_, [] => at_ ≤ len
  | at_, m :: rest => at_ ≤ m.1 ∧ m.1 ≤ m.2 ∧ Ranges len m.2 rest

theorem Ranges.within {len at_ : Nat} {ms : List (Nat × Nat)} (ranges : Ranges len at_ ms) : at_ ≤ len := by
  induction ms generalizing at_ with
  | nil => exact ranges
  | cons m rest ih => exact ranges.1.trans (ranges.2.1.trans (ih ranges.2.2))

theorem between {bytes : List UInt8} {i j : Nat} (le : i ≤ j) :
    (bytes.take j).drop i ++ bytes.drop j = bytes.drop i := by
  have rest : bytes.drop j = (bytes.drop i).drop (j - i) := by rw [List.drop_drop, Nat.add_sub_of_le le]
  rw [List.drop_take, rest, List.take_append_drop]

/-- Ids of ordinary tokens that stand for some bytes. -/
structure Spells (t : Tekken R) (ids : List UInt32) (bytes : List UInt8) : Prop where
  read : t.decodeBytes ids true = bytes
  ordinary : ∀ id ∈ ids, t.numSpecial ≤ id.toNat ∧ id.toNat < t.vocabSize

section Spells

variable {t : Tekken R}

theorem Spells.nil : Spells t [] [] := ⟨rfl, nofun⟩

theorem Spells.append {ids ids' : List UInt32} {bytes bytes' : List UInt8} (first : Spells t ids bytes)
    (second : Spells t ids' bytes') : Spells t (ids ++ ids') (bytes ++ bytes') := by
  refine ⟨?_, fun id mem => (List.mem_append.mp mem).elim (first.ordinary id) (second.ordinary id)⟩
  rw [decodeBytes, List.flatMap_append]
  exact congrArg₂ (· ++ ·) first.read second.read

variable (wf : t.Wf) (small : t.vocabSize ≤ 2 ^ 32)
include wf small

/-- The id of a rank is past the special ones, and is read as the rank's entry. -/
theorem spells_idOf {bytes : List UInt8} {rank : UInt32} (ranked : t.ranks bytes = some rank) :
    Spells t [t.idOf rank] bytes := by
  obtain ⟨k, rfl, entry⟩ := wf.ranked.1 bytes rank ranked
  have within : k < t.vocab.length := (List.getElem?_eq_some_iff.mp entry).1
  have id : (t.idOf (UInt32.ofNat k)).toNat = k + t.numSpecial := by
    unfold vocabSize at small
    simp only [idOf, UInt32.toNat_add, UInt32.toNat_ofNat']
    omega
  have none : t.special (t.idOf (UInt32.ofNat k)) = none := by
    rw [special, id, List.getElem?_eq_none (by rw [wf.slots]; omega)]
    rfl
  have ordinary : t.isSpecial (t.idOf (UInt32.ofNat k)) = false := by
    simp [isSpecial, id]
  constructor
  · simp [decodeBytes, none, bytesOf, ordinary, id, entry]
  · simp only [List.mem_singleton, forall_eq, id, vocabSize]
    omega

theorem spells_parts {parts : List (List UInt8)} (ranked : ∀ part ∈ parts, (t.ranks part).isSome) :
    Spells t (parts.map fun part =>
      match t.ranks part with
      | some rank => t.idOf rank
      | none => (t.byName "<unk>".toList).getD 0) parts.flatten := by
  induction parts with
  | nil => exact .nil
  | cons part parts ih =>
    obtain ⟨rank, found⟩ := Option.isSome_iff_exists.mp (ranked part List.mem_cons_self)
    rw [List.map_cons, List.flatten_cons, found]
    exact (spells_idOf wf small found).append (ih fun other mem => ranked other (List.mem_cons_of_mem part mem))

variable (all : ∀ b : UInt8, [b] ∈ t.vocab)
include all

theorem spells_piece (piece : List UInt8) : Spells t (t.encodePiece piece) piece := by
  unfold encodePiece
  split
  · rename_i empty
    exact empty ▸ .nil
  · split
    · rename_i rank found
      exact spells_idOf wf small found
    · have bytes : Parts t piece (piece.map ([·])) := by
        refine ⟨List.flatMap_def.symm.trans (List.flatMap_singleton' piece), fun part mem => ?_⟩
        obtain ⟨b, -, rfl⟩ := List.mem_map.mp mem
        exact wf.ranked.2 [b] (all b)
      have merged := mergeFrom_parts bytes piece.length
      have spelled := spells_parts wf small merged.ranked
      rwa [merged.whole] at spelled

/-- Matches, and what is between them, leave no byte out. -/
theorem spells_from {bytes : List UInt8} {at_ : Nat} {ms : List (Nat × Nat)} (ranges : Ranges bytes.length at_ ms) :
    Spells t (t.encodeFrom bytes at_ ms) (bytes.drop at_) := by
  induction ms generalizing at_ with
  | nil =>
    rw [encodeFrom]
    split
    · exact spells_piece wf small all _
    · rename_i past
      rw [List.drop_eq_nil_of_le (Nat.le_of_not_lt past)]
      exact .nil
  | cons m rest ih =>
    obtain ⟨after, forward, ranges⟩ := ranges
    have gap : Spells t (if at_ < m.1 then t.encodePiece ((bytes.take m.1).drop at_) else [])
        ((bytes.take m.1).drop at_) := by
      split
      · exact spells_piece wf small all _
      · rename_i none
        rw [List.drop_eq_nil_of_le ((List.length_take_le _ _).trans (Nat.le_of_not_lt none))]
        exact .nil
    have whole : (bytes.take m.1).drop at_ ++ (bytes.take m.2).drop m.1 ++ bytes.drop m.2 = bytes.drop at_ := by
      rw [List.append_assoc, between forward, between after]
    exact whole ▸ (gap.append (spells_piece wf small all _)).append (ih ranges)

end Spells

/-- With the single bytes among the entries, and ids enough for all of them, text comes back as it was. -/
theorem round_trip (lib : Libraries R) {json : Text} {t : Tekken R} (accepted : fromJson lib json = .ok t)
    (all : ∀ b : UInt8, [b] ∈ t.vocab) (small : t.vocabSize ≤ 2 ^ 32) (text : Text)
    (ranges : Ranges (utf8 text).length 0 (lib.findIter t.pattern text)) :
    t.decode (t.encode lib text) true = text ∧
      ∀ id ∈ t.encode lib text, t.numSpecial ≤ id.toNat ∧ id.toNat < t.vocabSize := by
  have spelled := spells_from (wf_of_fromJson accepted) small all ranges
  exact ⟨(congrArg Utf8.lossy spelled.read).trans (Utf8.lossy_encoded text), spelled.ordinary⟩

section Example

def alphabet : Text := "ABCDEFGHIJKLMNOPQRSTUVWXYZabcdefghijklmnopqrstuvwxyz0123456789+/".toList

/-- The bytes of base64 text that is well formed. -/
def ofBase64 (text : Text) : List UInt8 :=
  let digits := text.filterMap alphabet.idxOf?
  let n := digits.foldl (64 * · + ·) 0
  let bits := 6 * digits.length
  (List.range (bits / 8)).map fun i => UInt8.ofNat (n / 2 ^ (bits - 8 * (i + 1)))

def single (n : Nat) : VocabEntry := ⟨[alphabet.getD (n / 4) 'A', alphabet.getD (n % 4 * 16) 'A', '=', '=']⟩

/-- The single bytes, and one character of two. -/
def sampleFile (numSpecial : Nat) : TekkenFile where
  config := ⟨"a".toList, numSpecial + 257, numSpecial⟩
  vocab := (List.range 256).map single ++ [⟨"w6k=".toList⟩]
  specialTokens := [⟨0, "<unk>".toList, true⟩]

def sampleJson (file : TekkenFile) : Text :=
  "\x7b\"config\":\x7b\"pattern\":\"".toList ++ file.config.pattern ++
    ("\",\"default_vocab_size\":" ++ toString file.config.defaultVocabSize ++ ",\"default_num_special_tokens\":" ++
      toString file.config.defaultNumSpecialTokens ++ "\x7d,\"vocab\":[").toList ++
    List.intercalate ",".toList
      (file.vocab.map fun entry => "\x7b\"token_bytes\":\"".toList ++ entry.tokenBytes ++ "\"\x7d".toList) ++
    "],\"special_tokens\":[\x7b\"rank\":0,\"token_str\":\"<unk>\",\"is_control\":true\x7d]\x7d".toList

/-- Where a text has an `a`. -/
def findLetter : Nat → Text → List (Nat × Nat)
  | _, [] => []
  | at_, c :: rest => (if c = 'a' then [(at_, at_ + 1)] else []) ++ findLetter (at_ + c.utf8Size) rest

def sample (file : TekkenFile) : Libraries Unit where
  json text := if text = sampleJson file then .ok file else .error "expected value at line 1 column 1"
  base64 text := .ok (ofBase64 text)
  regex pattern := if pattern = "a".toList then .ok () else .error "unsupported pattern"
  findIter _ := findLetter 0

theorem sample_vocab : ((sampleFile 0).vocab.take 257).map (fun entry => ofBase64 entry.tokenBytes) =
    (List.range 256).map (fun n => [UInt8.ofNat n]) ++ [[0xC3, 0xA9]] := by decide +kernel

theorem sample_read (numSpecial : Nat) : ∃ t,
    fromJson (sample (sampleFile numSpecial)) (sampleJson (sampleFile numSpecial)) = .ok t ∧ t.numSpecial = numSpecial ∧
      t.vocab = (List.range 256).map (fun n => [UInt8.ofNat n]) ++ [[0xC3, 0xA9]] := by
  obtain ⟨t, read, special, -, vocab⟩ := fromJson_ok (sample (sampleFile numSpecial))
    (f := fun entry => ofBase64 entry.tokenBytes) (if_pos rfl) (fun _ _ => rfl)
    (show (if "a".toList = "a".toList then .ok () else .error "unsupported pattern") = Except.ok () from if_pos rfl)
  refine ⟨t, read, special, ?_⟩
  rw [vocab, ← sample_vocab, show (sampleFile numSpecial).config.defaultVocabSize -
    (sampleFile numSpecial).config.defaultNumSpecialTokens = 257 from Nat.add_sub_cancel_left _ _]
  rfl

theorem sample_single {t : Tekken Unit}
    (vocab : t.vocab = (List.range 256).map (fun n => [UInt8.ofNat n]) ++ [[0xC3, 0xA9]]) (b : UInt8) : [b] ∈ t.vocab := by
  rw [vocab]
  exact List.mem_append_left _ (List.mem_map.mpr ⟨b.toNat, List.mem_range.mpr b.toNat_lt, by rw [UInt8.ofNat_toNat]⟩)

theorem round_trip_accents : ∃ t, fromJson (sample (sampleFile 2)) (sampleJson (sampleFile 2)) = .ok t ∧
    t.decode (t.encode (sample (sampleFile 2)) "aéé".toList) true = "aéé".toList ∧
      ∀ id ∈ t.encode (sample (sampleFile 2)) "aéé".toList, t.numSpecial ≤ id.toNat ∧ id.toNat < t.vocabSize := by
  obtain ⟨t, read, special, vocab⟩ := sample_read 2
  exact ⟨t, read, round_trip _ read (sample_single vocab) (by simp [vocabSize, special, vocab]) _
    (show Ranges 5 0 [(0, 1)] from ⟨Nat.le_refl 0, Nat.zero_le 1, show 1 ≤ 5 by decide⟩)⟩

/-- With special tokens in all the ids there are, an ordinary one gets the id of one of them. -/
theorem ids_wrap : ∃ t, fromJson (sample (sampleFile (2 ^ 32))) (sampleJson (sampleFile (2 ^ 32))) = .ok t ∧
    (∀ b : UInt8, [b] ∈ t.vocab) ∧ ∃ id ∈ t.encode (sample (sampleFile (2 ^ 32))) "a".toList, id.toNat < t.numSpecial := by
  obtain ⟨t, read, special, vocab⟩ := sample_read (2 ^ 32)
  have all := sample_single vocab
  obtain ⟨rank, found⟩ := Option.isSome_iff_exists.mp ((wf_of_fromJson read).ranked.2 _ (all 97))
  obtain ⟨k, rfl, entry⟩ := (wf_of_fromJson read).ranked.1 _ _ found
  have within : k < 257 := by simpa [vocab] using (List.getElem?_eq_some_iff.mp entry).1
  refine ⟨t, read, all, t.idOf (UInt32.ofNat k), ?_, ?_⟩
  · have whole : t.encode (sample (sampleFile (2 ^ 32))) "a".toList = t.encodePiece [97] ++ [] := rfl
    rw [whole, List.append_nil, encodePiece, if_neg (List.cons_ne_nil _ _), found]
    exact List.mem_singleton_self _
  · simp only [special, idOf, UInt32.toNat_add, UInt32.toNat_ofNat']
    omega

end Example

end Tekken

end Vapi.Tokenize
