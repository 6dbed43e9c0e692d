import Vapi.Backend.Decoded
import Vapi.Backend.Models

/-!
# As if recomputed

Whatever steps and chunks sequences are run in, whichever others they are run
with, and wherever their blocks are, the logits of every token asked for are
those of the plain decoder for its text. Sequences that begin alike may share
the blocks of their beginning.
-/

namespace Vapi.Backend

open Vapi.Engine Vapi.Cache Slots

variable {ι S : Type} {hidden kvHeads dim vocab : Nat}

/-- A step: the chunks that its batch lays out, and the tokens whose logits it asks for. -/
structure DecoderStep (ι : Type) where
  chunks : List (Chunk ι)
  batch : ForwardBatch
  asked : List (ι × Nat)

/-- A layer's buffers are of its kind, with a row for every slot. -/
def Operator.Fits : Operator S hidden kvHeads dim → LayerBuffers S hidden kvHeads dim → Nat → Prop
  | .attention _, .kv cache, slots => cache.1.length = slots ∧ cache.2.length = slots
  | .conv _, .rows cells, slots => cells.length = slots
  | _, _, _ => False

/-- A cache as `with_layouts` makes it, whatever is in it. -/
def Decoder.Fits (d : Decoder S hidden kvHeads dim vocab) (caches : List (LayerBuffers S hidden kvHeads dim))
    (slots : Nat) :
    Prop :=
  List.Forall₂ (fun b cache => b.operator.Fits cache slots) d.blocks caches

variable [Field S] [LinearOrder S] (f : Numerics S) (d : Decoder S hidden kvHeads dim vocab)

omit [LinearOrder S] in
theorem Operator.mirrors_blank {operator : Operator S hidden kvHeads dim} {cache : LayerBuffers S hidden kvHeads dim}
    {slots : Nat} (fits : operator.Fits cache slots) (x : List Token → HiddenRow S hidden) :
    operator.Mirrors x cache (List.replicate slots none) := by
  match operator, cache, fits with
  | .attention a, .kv cache, ⟨keys, values⟩ => exact ⟨keys ▸ .blank _ cache.1, values ▸ .blank _ cache.2⟩
  | .conv c, .rows cells, size => exact size ▸ .blank _ cells

variable {d} in
/-- A cache that is for no texts yet. -/
theorem Decoder.Fits.mirrors {caches : List (LayerBuffers S hidden kvHeads dim)} {slots : Nat}
    (fits : d.Fits caches slots) :
    d.Mirrors f caches (List.replicate slots none) := by
  unfold Decoder.Mirrors
  generalize d.embedding = x
  replace fits : List.Forall₂ _ d.blocks caches := fits
  generalize d.blocks = blocks at fits
  induction fits generalizing x with
  | nil => trivial
  | cons first _ ih => exact ⟨Operator.mirrors_blank first _, ih _⟩

section Run

variable [DecidableEq ι] {numBlocks blockSize : Nat} {table : ι → List BlockId} {text : ι → List Token}
  {steps : List (DecoderStep ι)} {caches : List (LayerBuffers S hidden kvHeads dim)}

/-- The run: what the earlier steps have left is what the later ones find. -/
theorem Decoder.run_eq (fits : numBlocks * blockSize < 2 ^ 32)
    (placed : Placement numBlocks blockSize table (fun s => (text s).length) fun s p => upTo text (s, p))
    (lays : ∀ s ∈ steps, Lays s.batch blockSize table s.chunks)
    (feeds : ∀ s ∈ steps, d.Feeds s.batch text s.chunks s.asked) {done : ι → Nat} (le : ∀ s, done s ≤ (text s).length)
    (follow : Follow (fun s => (text s).length) done (steps.flatMap DecoderStep.chunks))
    {texts : List (Option (List Token))} (size : texts.length = numBlocks * blockSize)
    (holds : Holds (slotOf blockSize table) (fun s p => some (upTo text (s, p))) texts done)
    (mirrors : d.Mirrors f caches texts) :
    ∃ caches', d.run f numBlocks blockSize (steps.map DecoderStep.batch) caches =
      .ok (steps.map fun s => d.answers f text s.asked, caches') := by
  induction steps generalizing done texts caches with
  | nil => exact ⟨caches, rfl⟩
  | cons s rest ih =>
    rw [List.flatMap_cons, follow_append] at follow
    have coherent : Coherent (slotOf blockSize table) (fun s p => some (upTo text (s, p))) fun s => (text s).length :=
      fun s p t q hp hq same => congrArg some (placed.coherent s p t q hp hq same)
    have next := holds.step coherent (fun s p within => size ▸ slotOf_lt placed.blocks placed.covers within) le follow.1
    have laying : Laying s.batch numBlocks blockSize table text s.chunks texts :=
      ⟨lays s List.mem_cons_self, placed.blocks, fits, size, fun c mem => follow.1.within mem,
        fun c mem p before => next c.seq p (Nat.lt_of_lt_of_le before (follow.1.end_le mem))⟩
    obtain ⟨now, answered, mirrors⟩ := d.forward_eq f laying (feeds s List.mem_cons_self) mirrors
    obtain ⟨caches', later⟩ := ih (fun s' mem => lays s' (List.mem_cons_of_mem s mem))
      (fun s' mem => feeds s' (List.mem_cons_of_mem s mem)) (follow.1.advance_le le) follow.2
      ((setAll_length ..).trans size) next mirrors
    refine ⟨caches', ?_⟩
    rw [List.map_cons, Decoder.run, answered, ok_bind]
    dsimp only
    rw [later]
    rfl

/-- From any cache of the model's layout, every step of a run succeeds, and every token's logits are those of the
plain decoder for its text. -/
theorem decoder_plain (fits : numBlocks * blockSize < 2 ^ 32)
    (placed : Placement numBlocks blockSize table (fun s => (text s).length) fun s p => upTo text (s, p))
    (lays : ∀ s ∈ steps, Lays s.batch blockSize table s.chunks)
    (feeds : ∀ s ∈ steps, d.Feeds s.batch text s.chunks s.asked)
    (follow : Follow (fun s => (text s).length) (fun _ => 0) (steps.flatMap DecoderStep.chunks))
    (layout : d.Fits caches (numBlocks * blockSize)) :
    ∃ caches', d.run f numBlocks blockSize (steps.map DecoderStep.batch) caches =
      .ok (steps.map fun s => d.answers f text s.asked, caches') :=
  d.run_eq f fits placed lays feeds (fun _ => Nat.zero_le _) follow List.length_replicate
    (fun _ p none => absurd none (Nat.not_lt_zero p)) (layout.mirrors f)

end Run

section Example

/-- Functions of a number that stay with fractions. -/
def fractions : Numerics ℚ where
  toScalars := squareExp
  sqrt := id
  cos x := 1 - x
  sin := id
  act := MoeBlock.atZero

def unit : Linear ℚ (Fin 1) (Fin 1) := ⟨fun _ _ => 1, none⟩

def oneHead : Linear ℚ (Fin 1) (Fin 1 × Fin 1) := ⟨fun _ _ => 1, none⟩

def plainNorm : RmsNorm ℚ 1 := ⟨fun _ => 1, 1⟩

def smallMlp : Expert ℚ 1 := ⟨1, fun _ _ => 1, fun _ _ => 1⟩

/-- A convolution of two taps, and attention over what it gives. -/
def smallLfm2 : Lfm2.PagedLfm2 ℚ 1 1 1 1 where
  embed := [fun _ => 0, fun _ => 1, fun _ => 2]
  convKernel := 2
  blocks := [
    ⟨plainNorm, .conv ⟨unit, unit, unit, unit, [fun _ => 3, fun _ => 1], none, ⟨rfl, List.cons_ne_nil _ _⟩⟩, plainNorm,
      smallMlp⟩,
    ⟨plainNorm, .attention ⟨1, oneHead, oneHead, oneHead, ⟨fun _ _ => 1, none⟩, plainNorm, plainNorm,
      ⟨Nat.one_pos, dvd_rfl⟩⟩,
      plainNorm, smallMlp⟩]
  norm := plainNorm
  lmHead := unit
  rope := ⟨0, fun _ => 0, 1, Nat.zero_le _⟩
  maxPositions := 4

/-- Two texts that begin alike. -/
def twoTexts (again : Bool) : List Token := if again then [1, 2, 2] else [1, 2, 1]

/-- They share the block of their beginning. -/
def sharedTables (again : Bool) : List BlockId := if again then [1, 2] else [1, 0]

/-- The one text in two steps, the other with its second. -/
def sharedSteps : List (DecoderStep Bool) :=
  [⟨[⟨false, 0, 2⟩],
      { tokens := [1, 2], positions := [0, 1], cuSeqlensQ := [0, 2], cuSeqlensK := [0, 2], slotMapping := [2, 3],
        blockTables := [[1]] }, []⟩,
    ⟨[⟨false, 2, 1⟩, ⟨true, 0, 3⟩],
      { tokens := [1, 1, 2, 2], positions := [2, 0, 1, 2], cuSeqlensQ := [0, 1, 4], cuSeqlensK := [0, 3, 6],
        slotMapping := [0, 2, 3, 4], blockTables := [[1, 0], [1, 2]], logitsIndices := [0, 3] }, [(false, 2), (true, 2)]⟩]

theorem shared_placed :
    Placement 3 2 sharedTables (fun s => (twoTexts s).length) fun s p => upTo twoTexts (s, p) where
  blocks := by decide
  covers := by decide
  coherent := by
    have all : ∀ s t : Bool, ∀ p < (twoTexts s).length, ∀ q < (twoTexts t).length,
        slotOf 2 sharedTables s p = slotOf 2 sharedTables t q → upTo twoTexts (s, p) = upTo twoTexts (t, q) := by
      decide +kernel
    exact fun s p t q hp hq => all s t p hp q hq

theorem decoder_plain_two : ∃ caches',
    (smallLfm2.decoder fractions).run fractions 3 2 (sharedSteps.map DecoderStep.batch)
    [.rows (List.replicate 6 fun _ => 0), .kv (List.replicate 6 fun _ _ => 0, List.replicate 6 fun _ _ => 0)] =
      .ok ([none, some [(smallLfm2.decoder fractions).plain fractions [1, 2, 1],
        (smallLfm2.decoder fractions).plain fractions [1, 2, 2]]], caches') := by
  have lays : ∀ s ∈ sharedSteps, Lays s.batch 2 sharedTables s.chunks := by
    intro s mem
    rcases List.mem_pair.mp mem with rfl | rfl
    · exact ⟨.inl (by decide), .inl (by decide), by decide, by decide, by decide, .cons ⟨by decide, by decide⟩ .nil⟩
    · exact ⟨.inl (by decide), .inl (by decide), by decide, by decide, by decide,
        .cons ⟨by decide, by decide⟩ (.cons ⟨by decide, by decide⟩ .nil)⟩
  have known : ∀ s, (twoTexts s).all fun token => decide (token.toNat < 3) := by decide
  have feeds : ∀ s ∈ sharedSteps, (smallLfm2.decoder fractions).Feeds s.batch twoTexts s.chunks s.asked := by
    intro s mem
    have embeds : ∀ t ∈ tokensOf s.chunks, ∀ token ∈ twoTexts t.1, token.toNat < 3 := fun t _ token text =>
      of_decide_eq_true (List.all_eq_true.mp (known t.1) token text)
    rcases List.mem_pair.mp mem with rfl | rfl <;> exact ⟨by decide, embeds, by decide, by decide⟩
  have follow : Follow (fun s => (twoTexts s).length) (fun _ => 0) (sharedSteps.flatMap DecoderStep.chunks) := by
    show Follow _ _ [⟨false, 0, 2⟩, ⟨false, 2, 1⟩, ⟨true, 0, 3⟩]
    simp only [Follow]
    decide
  have rows : ∀ d : Decoder ℚ 1 1 1 1, (sharedSteps.map fun s => d.answers fractions twoTexts s.asked) =
      [none, some [d.plain fractions [1, 2, 1], d.plain fractions [1, 2, 2]]] := fun d => rfl
  have layout : (smallLfm2.decoder fractions).Fits
      [.rows (List.replicate 6 fun _ => 0), .kv (List.replicate 6 fun _ _ => 0, List.replicate 6 fun _ _ => 0)]
        (3 * 2) :=
    .cons rfl (.cons ⟨rfl, rfl⟩ .nil)
  obtain ⟨caches', ran⟩ :=
    decoder_plain fractions (smallLfm2.decoder fractions) (by decide) shared_placed lays feeds follow layout
  exact ⟨caches', rows _ ▸ ran⟩

end Example

end Vapi.Backend
