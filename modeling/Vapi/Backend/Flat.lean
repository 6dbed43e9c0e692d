import Vapi.Backend.Laya
import Mathlib.Algebra.Order.Field.Basic
import Mathlib.Algebra.Order.BigOperators.Group.List

/-!
# A flat batch is its rows

Everything between a batch's tokens and its hidden states gives each row what
it would give it alone.
-/

namespace Vapi.Backend

open Engine Ragged

namespace Layout

theorem total_new (lengths : List Nat) : (new lengths).total = lengths.sum % 2 ^ 32 := by
  have run : ∀ (at_ : UInt32) (ls : List Nat),
      ((at_ :: cumulative at_ ls).getLast?.getD 0).toNat = (at_.toNat + ls.sum) % 2 ^ 32 := by
    intro at_ ls
    induction ls generalizing at_ with
    | nil => simp [cumulative, Nat.mod_eq_of_lt at_.toNat_lt]
    | cons l ls ih =>
      rw [cumulative, List.getLast?_cons_cons, ih, UInt32.toNat_add, UInt32.toNat_ofNat', List.sum_cons]
      omega
  simpa [total, new] using run 0 lengths

theorem spans_new {lengths : List Nat} (fits : lengths.sum < 2 ^ 32) : (new lengths).spans = Ragged.spans 0 lengths := by
  have run : ∀ (at_ : UInt32) (ls : List Nat), at_.toNat + ls.sum < 2 ^ 32 →
      (at_ :: cumulative at_ ls).zipWith (fun a b => (a.toNat, (b - a).toNat)) (cumulative at_ ls) =
        Ragged.spans at_.toNat ls := by
    intro at_ ls fits
    induction ls generalizing at_ with
    | nil => rfl
    | cons l ls ih =>
      rw [List.sum_cons] at fits
      have next : (at_ + UInt32.ofNat l).toNat = at_.toNat + l := by
        rw [UInt32.toNat_add, UInt32.toNat_ofNat']
        omega
      have back : (at_ + UInt32.ofNat l - at_).toNat = l := by
        rw [UInt32.toNat_sub, next]
        have := at_.toNat_lt
        omega
      have rest := ih (at_ + UInt32.ofNat l) (by rw [next]; omega)
      rw [cumulative, List.zipWith_cons_cons, rest, Ragged.spans, back, next]
  simpa [spans, new] using run 0 lengths (by simpa using fits)

end Layout

theorem gather_some {α : Type} {table : List α} {index : List Nat} {xs : List α}
    (is : index.map (fun i => table[i]?) = xs.map some) : gather table index = .ok xs := by
  induction index generalizing xs with
  | nil =>
    cases xs with
    | nil => rfl
    | cons x xs => cases is
  | cons i index ih =>
    cases xs with
    | nil => cases is
    | cons x xs =>
      obtain ⟨here, rest⟩ := List.cons.inj is
      have rest := ih rest
      unfold gather at rest ⊢
      simp only [List.mapM_cons, here, rest, Option.elim_some]
      rfl

variable {S H A : Type} [Field S] [LinearOrder S] {heads dim : Nat}

/-- The context of a batch of these rows. -/
def contextOf (bert : ModernBert S H heads dim) (rows : List EncoderRow) : Context (Rotation S heads dim) where
  layout := .new (rows.map EncoderRow.len)
  global := rows.flatMap fun row => bert.globalRotary.take row.len
  windowed := rows.flatMap fun row => bert.localRotary.take row.len
  window := bert.window
  masks := rows.map fun row => bert.windowMask row.len

/-- The batch's offsets are 32-bit numbers, and the encoder has its positions. -/
def Fits (bert : ModernBert S H heads dim) (rows : List EncoderRow) : Prop :=
  (rows.map EncoderRow.len).sum < 2 ^ 32 ∧ ∀ row ∈ rows, row.len ≤ bert.maxPositionEmbeddings

variable {bert : ModernBert S H heads dim} {rows : List EncoderRow}

omit [Field S] [LinearOrder S] in
theorem Fits.one (fits : Fits bert rows) {row : EncoderRow} (mem : row ∈ rows) : Fits bert [row] := by
  have part := List.single_le_sum (fun _ _ => Nat.zero_le _) row.len (List.mem_map_of_mem mem)
  exact ⟨by simpa using part.trans_lt fits.1, by simpa using fits.2 row mem⟩

omit [Field S] [LinearOrder S] in
theorem spans_fit (fits : Fits bert rows) :
    (contextOf bert rows).layout.spans = Ragged.spans 0 (rows.map EncoderRow.len) := Layout.spans_new fits.1

omit [Field S] [LinearOrder S] in
theorem prepare_ok (fits : Fits bert rows) :
    bert.prepare (.new (rows.map EncoderRow.len)) = .ok (contextOf bert rows) := by
  have spans := Layout.spans_new fits.1
  have positions : (Layout.new (rows.map EncoderRow.len)).positions = rows.flatMap fun row => List.range row.len := by
    rw [Layout.positions, spans, ← List.flatMap_map, spans_snd, List.flatMap_map]
  have table : ∀ {R : Type} {rotary : List R}, rotary.length = bert.maxPositionEmbeddings →
      gather rotary (Layout.new (rows.map EncoderRow.len)).positions =
        .ok (rows.flatMap fun row => rotary.take row.len) := by
    intro R rotary size
    refine gather_some ?_
    rw [positions, List.map_flatMap, List.map_flatMap]
    refine List.flatMap_congr fun row mem => ?_
    have within := fits.2 row mem
    refine List.ext_getElem? fun i => ?_
    by_cases inside : i < row.len
    · simp [inside, List.getElem?_eq_getElem (show i < rotary.length by omega)]
    · simp [inside]
  have masks : (Layout.new (rows.map EncoderRow.len)).spans.map (fun span => bert.windowMask span.2) =
      rows.map fun row => bert.windowMask row.len := by
    have lens := congrArg (List.map bert.windowMask) (spans_snd 0 (rows.map EncoderRow.len))
    rw [spans]
    simpa only [List.map_map, Function.comp_def] using lens
  simp only [ModernBert.prepare, table bert.tables.1, table bert.tables.2, masks]
  rfl

section Attend

variable {heads' dim' : Nat} (m : Scalars S) (scale : S) (window : Option Nat)

theorem attend_alone {row : EncoderRow} (fits : Fits bert [row]) {q k v : List (HeadVectors S heads' dim')}
    (lens : q.length = row.len ∧ k.length = row.len ∧ v.length = row.len) :
    attendReference m scale (contextOf bert [row]) window q k v =
      attendRow m scale (window.map fun _ => bert.windowMask row.len) q k v := by
  have whole : ∀ {xs : List (HeadVectors S heads' dim')}, xs.length = row.len → slice xs (0, row.len) = xs :=
    fun len => List.take_of_length_le len.le
  rw [attendReference, spans_fit fits]
  simp [contextOf, Ragged.spans, whole lens.1, whole lens.2.1, whole lens.2.2]

/-- Attention stays within each row. -/
theorem attend_splits {q k v : List EncoderRow → List H → List (HeadVectors S heads' dim')}
    (hq : Splits EncoderRow.len (Fits bert) q) (hk : Splits EncoderRow.len (Fits bert) k)
    (hv : Splits EncoderRow.len (Fits bert) v) :
    Splits EncoderRow.len (Fits bert) fun rows x =>
      attendReference m scale (contextOf bert rows) window (q rows x) (k rows x) (v rows x) := by
  intro rows f fits lens
  obtain ⟨flatQ, lensQ⟩ := hq rows f fits lens
  obtain ⟨flatK, lensK⟩ := hk rows f fits lens
  obtain ⟨flatV, lensV⟩ := hv rows f fits lens
  have alone : ∀ row ∈ rows, attendReference m scale (contextOf bert [row]) window (q [row] (f row)) (k [row] (f row))
      (v [row] (f row)) = attendRow m scale (window.map fun _ => bert.windowMask row.len) (q [row] (f row))
        (k [row] (f row)) (v [row] (f row)) :=
    fun row mem => attend_alone m scale window (fits.one mem) ⟨lensQ row mem, lensK row mem, lensV row mem⟩
  constructor
  · simp only [flatQ, flatK, flatV]
    rw [List.flatMap_congr alone, attendReference, spans_fit fits]
    refine (congrArg List.flatten ?_).trans List.flatMap_def.symm
    refine List.ext_getElem? fun i => ?_
    simp only [List.getElem?_zipWith, contextOf, List.getElem?_map, spans_getElem?]
    cases at_ : rows[i]? with
    | none => rfl
    | some row =>
      simp only [Option.map_some, Nat.zero_add, ← List.map_take]
      rw [slice_at lensQ at_, slice_at lensK at_, slice_at lensV at_]
  · intro row mem
    refine (congrArg List.length (alone row mem)).trans ?_
    rw [attendRow, List.length_mapIdx, lensQ row mem]

end Attend

variable [Add H]

omit [Field S] [LinearOrder S] [Add H] in
theorem table_splits {R : Type} {rotary : List R} (size : rotary.length = bert.maxPositionEmbeddings) :
    Splits EncoderRow.len (Fits bert) fun rows (_ : List H) => rows.flatMap fun row => rotary.take row.len := by
  refine Splits.const _ fun rows fits row mem => ?_
  rw [List.length_take, size]
  exact Nat.min_eq_left (fits.2 row mem)

omit [Add H] in
theorem Layer.attention_splits (m : Scalars S) (scale : S) (layer : Layer S H heads dim) :
    Splits EncoderRow.len (Fits bert) fun rows x => layer.attention m scale (contextOf bert rows) x := by
  have tables : Splits EncoderRow.len (Fits bert) fun rows (_ : List H) =>
      if layer.global then (contextOf bert rows).global else (contextOf bert rows).windowed := by
    cases layer.global
    · exact table_splits bert.tables.2
    · exact table_splits bert.tables.1
  have rope := fun part : H → HeadVectors S heads dim => Splits.zipWith (fun rotate t => rotate t) tables (Splits.map part)
  exact (Splits.map layer.out).comp (attend_splits m scale (if layer.global then none else some bert.window)
    (rope layer.query) (rope layer.keys) (Splits.map layer.values))

theorem Layer.forward_splits (m : Scalars S) (scale : S) (layer : Layer S H heads dim) :
    Splits EncoderRow.len (Fits bert) fun rows x => layer.forward m scale (contextOf bert rows) x := by
  have whole : Splits EncoderRow.len (Fits bert) fun _ (x : List H) => x := fun _ _ _ lens => ⟨rfl, lens⟩
  have normed : Splits EncoderRow.len (Fits bert) fun _ (x : List H) => layer.attnNorm.elim x fun norm => x.map norm := by
    cases layer.attnNorm with
    | none => exact whole
    | some norm => exact Splits.map norm
  have attended := Splits.zipWith (· + ·) whole ((Layer.attention_splits m scale layer).comp normed)
  have fed := Splits.zipWith (· + ·) whole ((Splits.map layer.mlp).comp (Splits.map layer.mlpNorm))
  exact fed.comp attended

theorem HeadLayer.forward_splits {headHeads headDim : Nat} (m : Scalars S) (scale : S)
    (layer : HeadLayer S H headHeads headDim) :
    Splits EncoderRow.len (Fits bert) fun rows x => layer.forward m scale (contextOf bert rows) x := by
  have whole : Splits EncoderRow.len (Fits bert) fun _ (x : List H) => x := fun _ _ _ lens => ⟨rfl, lens⟩
  have attention : Splits EncoderRow.len (Fits bert) fun rows x => layer.attention m scale (contextOf bert rows) x :=
    (Splits.map layer.outProj).comp (attend_splits m scale none (Splits.map layer.query) (Splits.map layer.keys)
      (Splits.map layer.values))
  have attended := Splits.zipWith (· + ·) whole (attention.comp (Splits.map layer.norm1))
  have fed := Splits.zipWith (· + ·) whole ((Splits.map layer.feedForward).comp (Splits.map layer.norm2))
  exact fed.comp attended

/-- The hidden states of a batch are those of its rows. -/
theorem Laya.hidden_splits {A : Type} {headHeads headDim : Nat} (m : Scalars S)
    (laya : Laya S H A heads dim headHeads headDim) :
    Splits EncoderRow.len (Fits laya.encoder) fun rows tokens =>
      laya.hidden m tokens (rows.map fun row => row.qtype.index) (contextOf laya.encoder rows) := by
  have layer : ∀ layer : Layer S H heads dim, Splits EncoderRow.len (Fits laya.encoder) fun rows x =>
      layer.forward m laya.encoder.scale (contextOf laya.encoder rows) x := Layer.forward_splits m laya.encoder.scale
  have layers := Splits.foldl layer laya.encoder.layers
  have encoded := (Splits.map laya.encoder.finalNorm).comp (layers.comp (Splits.map laya.encoder.embed))
  have types : Splits EncoderRow.len (Fits laya.encoder) fun rows (_ : List Token) =>
      (List.zipWith (fun span qtype => List.replicate span.2 qtype) (contextOf laya.encoder rows).layout.spans
        (rows.map fun row => row.qtype.index)).flatten := by
    have own : Splits EncoderRow.len (Fits laya.encoder) fun rows (_ : List Token) =>
        rows.flatMap fun row => List.replicate row.len row.qtype.index :=
      Splits.const _ fun _ _ row _ => List.length_replicate
    refine Splits.congr (fun rows fits row => fits.one) (fun rows _ fits => ?_) own
    have lens : List.zipWith List.replicate ((Ragged.spans 0 (rows.map EncoderRow.len)).map Prod.snd)
        (rows.map fun row => row.qtype.index) = _ := List.zipWith_map_left
    rw [spans_fit fits, ← lens, spans_snd, List.zipWith_map, List.zipWith_self, List.flatMap_def]
  have typed := Splits.zipWith (· + ·) encoded ((Splits.map laya.typeEmb).comp types)
  have head : ∀ layer : HeadLayer S H headHeads headDim, Splits EncoderRow.len (Fits laya.encoder) fun rows x =>
      layer.forward m laya.headScale (contextOf laya.encoder rows) x := HeadLayer.forward_splits m laya.headScale
  have heads := Splits.foldl head laya.head
  exact heads.comp typed

end Vapi.Backend
