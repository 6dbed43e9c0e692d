import Vapi.Backend.Features
import Vapi.Backend.Flat
import Mathlib.Algebra.Field.Rat
import Mathlib.Algebra.Order.Ring.Rat

/-!
# A row's answer is its own

What a batch answers of a row is what the row alone is answered.
-/

namespace Vapi

open Ragged

namespace Engine.EncoderBatch

theorem validateMarkers_ok {i j : Nat} {row : EncoderRow} {last : Option Nat} {ms : List Nat}
    (ok : validateMarkers i row last ms = .ok ()) :
    validateMarkers j row last ms = .ok () ∧ ∀ k ∈ ms, k < row.len := by
  induction ms generalizing last with
  | nil => exact ⟨rfl, nofun⟩
  | cons k ms ih =>
    unfold validateMarkers at ok ⊢
    split at ok
    · cases ok
    · rename_i inside
      split at ok
      · cases ok
      · rename_i increasing
        rw [if_neg inside, if_neg increasing]
        obtain ⟨rest, within⟩ := ih ok
        refine ⟨rest, fun k' mem => ?_⟩
        rcases List.mem_cons.mp mem with rfl | mem
        · exact not_le.mp inside
        · exact within k' mem

/-- What is known of a row that was let through. -/
theorem validateRow_ok {maxContext i j : Nat} {row : EncoderRow} (ok : validateRow maxContext i row = .ok ()) :
    validateRow maxContext j row = .ok () ∧ row.tokens ≠ [] ∧ row.len ≤ maxContext ∧ 2 ≤ row.markers.length ∧
      ∀ k ∈ row.markers, k < row.len := by
  unfold validateRow at ok ⊢
  split at ok
  · cases ok
  · rename_i some_
    split at ok
    · cases ok
    · rename_i fits
      split at ok
      · cases ok
      · rename_i two
        rw [if_neg some_, if_neg fits, if_neg two]
        obtain ⟨markers, within⟩ := validateMarkers_ok (j := j) ok
        exact ⟨markers, some_, not_lt.mp fits, not_lt.mp two, within⟩

theorem validate_ok {maxContext : Nat} {batch : EncoderBatch} (ok : batch.validate maxContext = .ok ()) {row : EncoderRow}
    (mem : row ∈ batch.rows) : validateRow maxContext 0 row = .ok () := by
  have run : ∀ {i : Nat} {rows : List EncoderRow}, validateFrom maxContext i rows = .ok () → row ∈ rows →
      validateRow maxContext 0 row = .ok () := by
    intro i rows
    induction rows generalizing i with
    | nil => nofun
    | cons first rows ih =>
      intro ok mem
      rw [validateFrom] at ok
      cases here : validateRow maxContext i first with
      | error e => rw [here] at ok; cases ok
      | ok _ =>
        rw [here] at ok
        rcases List.mem_cons.mp mem with rfl | mem
        · exact (validateRow_ok here).1
        · exact ih ok mem
  exact run ok mem

end Engine.EncoderBatch

namespace Backend

open Engine

theorem filterMap_some {α β : Type} {g : α → Option β} {l : List α} (each : ∀ x ∈ l, (g x).isSome) :
    l.map g = (l.filterMap g).map some := by
  induction l with
  | nil => rfl
  | cons x l ih =>
    obtain ⟨y, is⟩ := Option.isSome_iff_exists.mp (each x (by simp))
    rw [List.map_cons, List.filterMap_cons_some is, List.map_cons, is, ih fun y hy => each y (by simp [hy])]

theorem chunksExact_flatMap {α β : Type} {f : α → List β} {size : Nat} {xs : List α}
    (lens : ∀ x ∈ xs, (f x).length = size) : Cache.chunksExact size xs.length (xs.flatMap f) = xs.map f := by
  induction xs with
  | nil => rfl
  | cons x xs ih =>
    have here := lens x (by simp)
    rw [List.length_cons, Cache.chunksExact, List.flatMap_cons, List.take_left' here, List.drop_left' here,
      ih fun y hy => lens y (by simp [hy]), List.map_cons]

variable {S H A : Type} [Field S] [LinearOrder S] {heads dim headHeads headDim : Nat}

namespace Laya

/-- The positions of a row's markers, over so many slots. -/
def slots (row : EncoderRow) (width : Nat) : List Nat := (List.range width).map fun slot => row.markers[slot]?.getD 0

theorem slots_within {row : EncoderRow} (some_ : row.tokens ≠ []) (within : ∀ k ∈ row.markers, k < row.len) {width k : Nat}
    (mem : k ∈ slots row width) : k < row.len := by
  obtain ⟨slot, -, rfl⟩ := List.mem_map.mp mem
  cases at_ : row.markers[slot]? with
  | none => exact List.length_pos_iff.mpr some_
  | some k => exact within k (List.mem_of_getElem? at_)

theorem markerIndex_ok {rows : List EncoderRow} (some_ : ∀ row ∈ rows, row.tokens ≠ [])
    (within : ∀ row ∈ rows, ∀ k ∈ row.markers, k < row.len) (width : Nat) :
    markerIndex (spans 0 (rows.map EncoderRow.len)) (rows.map EncoderRow.markers) width =
      .ok (List.zipWith (fun span row => (slots row width).map (span.1 + ·)) (spans 0 (rows.map EncoderRow.len))
        rows).flatten := by
  have run : ∀ n i, (((spans n (rows.map EncoderRow.len)).zip (rows.map EncoderRow.markers)).zipIdx i).mapM
      (fun entry => rowIndex width entry.2 entry.1.1 entry.1.2) =
        .ok (List.zipWith (fun span row => (slots row width).map (span.1 + ·)) (spans n (rows.map EncoderRow.len)) rows) := by
    intro n i
    induction rows generalizing n i with
    | nil => rfl
    | cons row rows ih =>
      have rest := ih (fun row mem => some_ row (.tail _ mem)) (fun row mem => within row (.tail _ mem)) (n + row.len) (i + 1)
      have here : rowIndex width i (n, row.len) row.markers = .ok ((slots row width).map (n + ·)) := by
        rw [slots, List.map_map]
        refine mapM_ok fun slot mem => ?_
        have inside := slots_within (some_ row (by simp)) (within row (by simp)) (List.mem_map_of_mem mem)
        exact if_neg (not_le.mpr inside)
      simp only [List.map_cons, spans, List.zip_cons_cons, List.zipIdx_cons, List.mapM_cons, rest, here]
      rfl
  rw [markerIndex, run 0 0]
  rfl

variable [Add H]

/-- A row's hidden states, by itself. -/
def ownHidden (m : Scalars S) (laya : Laya S H A heads dim headHeads headDim) (row : EncoderRow) : List H :=
  laya.hidden m row.tokens [row.qtype.index] (contextOf laya.encoder [row])

/-- A row's scores, over so many slots. -/
def ownLogits (m : Scalars S) (laya : Laya S H A heads dim headHeads headDim) (width : Nat) (row : EncoderRow) : List S :=
  ((slots row width).filterMap fun k => (laya.ownHidden m row)[k]?).map laya.scorer

/-- A row's answer in a batch whose widest row has so many markers. -/
def ownAnswer (m : Scalars S) (laya : Laya S H A heads dim headHeads headDim) (width : Nat) (row : EncoderRow) :
    Option (RowOutput S A) :=
  (laya.ownHidden m row)[0]?.map fun cls =>
    ⟨(laya.ownLogits m width row).take row.markers.length,
      laya.actHead cls (features m (laya.ownLogits m width row) row.markers width)⟩

variable {m : Scalars S} {laya : Laya S H A heads dim headHeads headDim} {rows : List EncoderRow}

omit [LinearOrder S] in
theorem firsts (n : Nat) (rows : List EncoderRow) : (spans n (rows.map EncoderRow.len)).map Prod.fst =
    (List.zipWith (fun span (_ : EncoderRow) => [0].map (span.1 + ·)) (spans n (rows.map EncoderRow.len)) rows).flatten := by
  induction rows generalizing n with
  | nil => rfl
  | cons row rows ih => simpa [spans] using ih (n + row.len)

theorem ownLogits_length {row : EncoderRow} (lens : (laya.ownHidden m row).length = row.len) (some_ : row.tokens ≠ [])
    (within : ∀ k ∈ row.markers, k < row.len) (width : Nat) : (laya.ownLogits m width row).length = width := by
  have all := filterMap_some (g := fun k => (laya.ownHidden m row)[k]?) (l := slots row width) fun k hk => by
    have less : k < (laya.ownHidden m row).length := lens ▸ slots_within some_ within hk
    rw [List.getElem?_eq_getElem less]
    rfl
  have count := congrArg List.length all
  rw [List.length_map, List.length_map] at count
  rw [ownLogits, List.length_map, ← count, slots, List.length_map, List.length_range]

/-- The scores and the features of the rows, put together. -/
theorem answers_rows (width : Nat) (some_ : ∀ row ∈ rows, (laya.ownHidden m row)[0]?.isSome) :
    (List.zipWith (fun out positions => (⟨out.1.take positions.length, out.2⟩ : RowOutput S A))
      ((rows.map (laya.ownLogits m width)).zip (laya.act m
        (rows.flatMap fun row => [0].filterMap fun k => (laya.ownHidden m row)[k]?)
        (rows.map (laya.ownLogits m width)) (rows.map EncoderRow.markers) width)) (rows.map EncoderRow.markers)).map some =
      rows.map (laya.ownAnswer m width) := by
  induction rows with
  | nil => rfl
  | cons row rows ih =>
    obtain ⟨cls, is⟩ := Option.isSome_iff_exists.mp (some_ row (by simp))
    have rest := ih fun row mem => some_ row (.tail _ mem)
    have here : ([0].filterMap fun k => (laya.ownHidden m row)[k]?) = [cls] := by simp [is]
    simp only [act, List.map_cons, List.flatMap_cons, here, List.singleton_append, List.zipWith_cons_cons,
      List.zip_cons_cons] at rest ⊢
    rw [rest]
    simp [ownAnswer, is]

/-- A batch's answers are those of its rows. -/
theorem forward_rows (fits : Fits laya.encoder rows) (some_ : ∀ row ∈ rows, row.tokens ≠ [])
    (within : ∀ row ∈ rows, ∀ k ∈ row.markers, k < row.len) (marked : 0 < ((rows.map EncoderRow.markers).map List.length).max?.getD 0) :
    ∃ out, laya.forward m (rows.flatMap EncoderRow.tokens) (rows.map EncoderRow.len) (rows.map EncoderRow.markers)
        (rows.map fun row => row.qtype.index) = .ok out ∧
      out.map some = rows.map (laya.ownAnswer m (((rows.map EncoderRow.markers).map List.length).max?.getD 0)) := by
  generalize widest : ((rows.map EncoderRow.markers).map List.length).max?.getD 0 = width at *
  have spans_ : (Layout.new (rows.map EncoderRow.len)).spans = spans 0 (rows.map EncoderRow.len) := spans_fit fits
  obtain ⟨flat, lens⟩ : laya.hidden m (rows.flatMap EncoderRow.tokens) (rows.map fun row => row.qtype.index)
        (contextOf laya.encoder rows) = rows.flatMap (laya.ownHidden m) ∧
      ∀ row ∈ rows, (laya.ownHidden m row).length = row.len :=
    laya.hidden_splits m rows EncoderRow.tokens fits fun _ _ => rfl
  -- what is gathered at some positions of each row
  have pick : ∀ at_ : EncoderRow → List Nat, (∀ row ∈ rows, ∀ k ∈ at_ row, k < row.len) →
      gather (rows.flatMap (laya.ownHidden m)) (List.zipWith (fun span row => (at_ row).map (span.1 + ·))
        (spans 0 (rows.map EncoderRow.len)) rows).flatten =
        .ok (rows.flatMap fun row => (at_ row).filterMap fun k => (laya.ownHidden m row)[k]?) := by
    intro at_ inside
    refine gather_some ((pick_spans [] lens at_ inside).trans ?_)
    rw [List.map_flatMap]
    refine List.flatMap_congr fun row mem => filterMap_some fun k hk => ?_
    have less : k < (laya.ownHidden m row).length := lens row mem ▸ inside row mem k hk
    rw [List.getElem?_eq_getElem less]
    rfl
  have slotted := pick (slots · width) fun row mem k hk => slots_within (some_ row mem) (within row mem) hk
  have first := pick (fun _ => [0]) fun row mem k hk => by
    rw [List.mem_singleton.mp hk]
    exact List.length_pos_iff.mpr (some_ row mem)
  have total : (Layout.new (rows.map EncoderRow.len)).total = (rows.flatMap EncoderRow.tokens).length := by
    rw [Layout.total_new, Nat.mod_eq_of_lt fits.1, List.length_flatMap]
    rfl
  have scores : Cache.chunksExact width rows.length
      ((rows.flatMap fun row => (slots row width).filterMap fun k => (laya.ownHidden m row)[k]?).map laya.scorer) =
        rows.map (laya.ownLogits m width) := by
    rw [List.map_flatMap]
    exact chunksExact_flatMap fun row mem => ownLogits_length (lens row mem) (some_ row mem) (within row mem) width
  have firsts_ : gather (rows.flatMap (laya.ownHidden m)) ((spans 0 (rows.map EncoderRow.len)).map Prod.fst) = _ :=
    firsts 0 rows ▸ first
  refine ⟨_, ?_, answers_rows width fun row mem => ?_⟩
  · simp only [forward, List.length_map, ne_eq, not_true_eq_false, or_self, ↓reduceIte, total,
      prepare_ok fits, flat, widest, marked.ne', spans_, markerIndex_ok some_ within, slotted, firsts_, scores, bind,
      Except.bind, pure, Except.pure]
  · have positive : 0 < (laya.ownHidden m row).length := lens row mem ▸ List.length_pos_iff.mpr (some_ row mem)
    rw [List.getElem?_eq_getElem positive]
    rfl

/-- The slots a row does not fill are none of its answer. -/
theorem ownAnswer_width [IsStrictOrderedRing S] {row : EncoderRow} (lens : (laya.ownHidden m row).length = row.len)
    (some_ : row.tokens ≠ []) (two : 2 ≤ row.markers.length) (within : ∀ k ∈ row.markers, k < row.len) {width : Nat}
    (wide : row.markers.length ≤ width) :
    laya.ownAnswer m width row = laya.ownAnswer m row.markers.length row := by
  have length := ownLogits_length (m := m) lens some_ within
  obtain ⟨more, rfl⟩ := Nat.exists_eq_add_of_le wide
  have scores : (laya.ownLogits m (row.markers.length + more) row).take row.markers.length =
      laya.ownLogits m row.markers.length row := by
    have begin_ : laya.ownLogits m row.markers.length row <+: laya.ownLogits m (row.markers.length + more) row := by
      rw [ownLogits, ownLogits, slots, slots, List.range_add, List.map_append, List.filterMap_append, List.map_append]
      exact List.prefix_append _ _
    have taken := List.prefix_iff_eq_take.mp begin_
    rw [length] at taken
    exact taken.symm
  rw [ownAnswer, ownAnswer, features_absent m two wide (length _), scores,
    List.take_of_length_le (length row.markers.length).le]

end Laya

section Claim

variable [Add H] [IsStrictOrderedRing S]

variable {m : Scalars S} {encoder : CandleEncoder S H A heads dim headHeads headDim}

theorem forward_valid {batch : EncoderBatch} (some_ : batch.rows ≠ []) (valid : batch.validate encoder.maxContext = .ok ())
    (fits : batch.numTokens < 2 ^ 32) : ∃ out, encoder.forward m batch = .ok out ∧
      out.map some = batch.rows.map fun row => encoder.model.ownAnswer m row.markers.length row := by
  have rows : ∀ row ∈ batch.rows, _ := fun row mem =>
    (@EncoderBatch.validateRow_ok _ _ 0 row (EncoderBatch.validate_ok valid mem)).2
  have fits' : Fits encoder.model.encoder batch.rows :=
    ⟨fits, fun row mem => (rows row mem).2.1.trans encoder.budget⟩
  have tokens := fun row mem => (rows row mem).1
  have within := fun row mem => (rows row mem).2.2.2
  have widest : ∀ row ∈ batch.rows,
      row.markers.length ≤ ((batch.rows.map EncoderRow.markers).map List.length).max?.getD 0 := by
    intro row mem
    have listed := List.mem_map_of_mem (f := List.length) (List.mem_map_of_mem (f := EncoderRow.markers) mem)
    cases is : ((batch.rows.map EncoderRow.markers).map List.length).max? with
    | none =>
      rw [List.max?_eq_none_iff] at is
      rw [is] at listed
      cases listed
    | some width => exact (List.max?_eq_some_iff.mp is).2 _ listed
  obtain ⟨first, mem⟩ := List.exists_mem_of_ne_nil _ some_
  have marked := Nat.lt_of_lt_of_le (Nat.lt_of_lt_of_le Nat.two_pos (rows first mem).2.2.1) (widest first mem)
  obtain ⟨out, answered, is⟩ := Laya.forward_rows (m := m) fits' tokens within marked
  obtain ⟨-, lens⟩ := encoder.model.hidden_splits m batch.rows EncoderRow.tokens fits' fun _ _ => rfl
  refine ⟨out, ?_, is.trans (List.map_congr_left fun row mem => ?_)⟩
  · simp only [CandleEncoder.forward, valid, some_, ↓reduceIte, answered, bind, Except.bind, Except.mapError]
  · exact Laya.ownAnswer_width (lens row mem) (tokens row mem) (rows row mem).2.2.1 (within row mem) (widest row mem)

/-- Each row of a batch that was let through is answered, in the batch's order, as it would be by itself. -/
theorem scores_alone (m : Scalars S) (encoder : CandleEncoder S H A heads dim headHeads headDim) (batch : EncoderBatch)
    (valid : batch.validate encoder.maxContext = .ok ()) (fits : batch.numTokens < 2 ^ 32) :
    ∃ out, encoder.forward m batch = .ok out ∧
      List.Forall₂ (fun row answer => encoder.forward m ⟨[row]⟩ = .ok [answer]) batch.rows out := by
  by_cases none_ : batch.rows = []
  · refine ⟨[], ?_, by rw [none_]; exact .nil⟩
    simp only [CandleEncoder.forward, valid, none_, ↓reduceIte, bind, Except.bind, pure, Except.pure]
  obtain ⟨out, answered, is⟩ := forward_valid (m := m) none_ valid fits
  refine ⟨out, answered, ?_⟩
  have alone : ∀ row ∈ batch.rows, ∀ answer, encoder.model.ownAnswer m row.markers.length row = some answer →
      encoder.forward m ⟨[row]⟩ = .ok [answer] := by
    intro row mem answer own
    have valid' : EncoderBatch.validate ⟨[row]⟩ encoder.maxContext = .ok () := by
      simp [EncoderBatch.validate, EncoderBatch.validateFrom, EncoderBatch.validate_ok valid mem, bind, Except.bind]
    have part := List.single_le_sum (fun _ _ => Nat.zero_le _) row.len (List.mem_map_of_mem mem)
    have fits' : EncoderBatch.numTokens ⟨[row]⟩ < 2 ^ 32 := by
      simpa [EncoderBatch.numTokens] using part.trans_lt fits
    obtain ⟨one, answered', is'⟩ := forward_valid (m := m) (List.cons_ne_nil _ _) valid' fits'
    rw [answered']
    have same : one.map some = [answer].map some := by simpa [own] using is'
    rw [List.map_injective_iff.mpr (Option.some_injective _) same]
  clear none_ answered
  generalize batch.rows = rows at *
  induction rows generalizing out with
  | nil =>
    rw [List.map_nil, List.map_eq_nil_iff] at is
    rw [is]
    exact .nil
  | cons row rows ih =>
    cases out with
    | nil => cases is
    | cons answer out =>
      obtain ⟨own, rest⟩ := List.cons.inj is
      exact .cons (alone row (by simp) answer own.symm) (ih out rest fun row mem => alone row (.tail _ mem))

omit [IsStrictOrderedRing S] in
/-- Offsets that do not fit into 32 bits do not add up to the batch. -/
theorem forward_long {batch : EncoderBatch} (valid : batch.validate encoder.maxContext = .ok ())
    (long : 2 ^ 32 ≤ batch.numTokens) : encoder.forward m batch =
      .error (.engine (toString (batch.rows.flatMap EncoderRow.tokens).length ++ " tokens for rows totalling " ++
        toString (Layout.new (batch.rows.map EncoderRow.len)).total)) := by
  have some_ : batch.rows ≠ [] := by
    intro none_
    simp [EncoderBatch.numTokens, none_] at long
  have total : (Layout.new (batch.rows.map EncoderRow.len)).total ≠ (batch.rows.flatMap EncoderRow.tokens).length := by
    have count : (batch.rows.flatMap EncoderRow.tokens).length = (batch.rows.map EncoderRow.len).sum := by
      rw [List.length_flatMap]
      rfl
    rw [Layout.total_new, count]
    have less : (batch.rows.map EncoderRow.len).sum % 2 ^ 32 < 2 ^ 32 := Nat.mod_lt _ (by decide)
    exact (less.trans_le long).ne
  simp only [CandleEncoder.forward, valid, some_, Laya.forward, List.length_map, ne_eq, total, not_true_eq_false,
    or_self, not_false_eq_true, ↓reduceIte, bind, Except.bind, throw, throwThe, MonadExceptOf.throw, Except.mapError]

end Claim

section Example

/-- Scores a token by its number. -/
def byNumber : CandleEncoder ℚ ℚ ℚ 1 1 1 1 where
  model :=
    { encoder :=
        { embed := fun t => t.toNat, layers := [], finalNorm := id, globalRotary := List.replicate 8 id,
          localRotary := List.replicate 8 id, window := 4, scale := 1, maxPositionEmbeddings := 8,
          tables := ⟨rfl, rfl⟩ }
      typeEmb := fun i => i, head := [], headScale := 1, scorer := id, actHead := fun cls _ => cls }
  maxContext := 8
  budget := le_rfl

def flatExp : Scalars ℚ := ⟨fun _ => 1, id, fun _ => one_pos⟩

def twoOptions : EncoderRow := ⟨[5, 7], [0, 1], .choice⟩

theorem validate_replicate (n i : Nat) :
    EncoderBatch.validateFrom 8 i (List.replicate n twoOptions) = .ok () := by
  induction n generalizing i with
  | zero => rfl
  | succ n ih =>
    have here : EncoderBatch.validateRow 8 i twoOptions = .ok () := (EncoderBatch.validateRow_ok (i := 0) rfl).1
    rw [List.replicate_succ, EncoderBatch.validateFrom, here]
    exact ih (i + 1)

/-- A batch of 2^32 tokens is let through and not answered. -/
theorem long_batch_fails : ¬∀ batch : EncoderBatch, batch.validate byNumber.maxContext = .ok () →
    ∃ out, byNumber.forward flatExp batch = .ok out ∧
      List.Forall₂ (fun row answer => byNumber.forward flatExp ⟨[row]⟩ = .ok [answer]) batch.rows out := by
  intro all
  have long : 2 ^ 32 ≤ EncoderBatch.numTokens ⟨List.replicate (2 ^ 31) twoOptions⟩ := by
    rw [EncoderBatch.numTokens, List.map_replicate, List.sum_replicate]
    decide
  have fails : byNumber.forward flatExp ⟨List.replicate (2 ^ 31) twoOptions⟩ = _ :=
    forward_long (validate_replicate (2 ^ 31) 0) long
  obtain ⟨out, answered, -⟩ := all ⟨List.replicate (2 ^ 31) twoOptions⟩ (validate_replicate (2 ^ 31) 0)
  rw [fails] at answered
  cases answered

theorem scores_alone_two : ∃ out, byNumber.forward flatExp ⟨[twoOptions, ⟨[2, 3, 9], [0, 1, 2], .score⟩]⟩ = .ok out ∧
    List.Forall₂ (fun row answer => byNumber.forward flatExp ⟨[row]⟩ = .ok [answer])
      [twoOptions, ⟨[2, 3, 9], [0, 1, 2], .score⟩] out :=
  scores_alone flatExp byNumber ⟨[twoOptions, ⟨[2, 3, 9], [0, 1, 2], .score⟩]⟩ (by decide) (by decide)

end Example

end Backend

end Vapi
