import Vapi.Backend.Modernbert
import Vapi.Cache.Hash

/-!
# The decision head

`vapi-backend-candle/src/models/laya.rs` and the backend around it: a type
embedding, layers of full attention, a score at each option's marker and the
features of the answer distribution that the act head sees.
-/

namespace Vapi

def QuestionType.index : QuestionType → Nat
  | .choice => 0
  | .score => 1
  | .noul => 2

namespace Backend

variable {S H A : Type} [Field S] [LinearOrder S]

/-- Temperature-scaled softmax over one question's markers; an absent one is far below the others. -/
def calibratedProbabilities (m : Scalars S) (logits : List (Option S)) (temperature : S) : List S :=
  if logits = [] then []
  else
    let t := if 0 < temperature then temperature else 1
    let z := logits.map (Option.map (· / t))
    let greatest := (z.filterMap id).max?.getD 0
    let p := z.map fun x => x.elim 0 fun x => m.exp (x - greatest)
    if 0 < p.sum then p.map (· / p.sum) else p.map fun _ => 1 / (p.length : S)

/-- Pre-norm, with a feed-forward that is not gated. -/
structure HeadLayer (S H : Type) (heads dim : Nat) where
  norm1 : H → H
  query : H → HeadVectors S heads dim
  keys : H → HeadVectors S heads dim
  values : H → HeadVectors S heads dim
  outProj : HeadVectors S heads dim → H
  norm2 : H → H
  feedForward : H → H

namespace HeadLayer

variable {heads dim : Nat} [Add H]

/-- Full attention within each row, no rotary. -/
def attention {R : Type} (m : Scalars S) (scale : S) (layer : HeadLayer S H heads dim) (ctx : Context R) (x : List H) :
    List H :=
  (attendReference m scale ctx none (x.map layer.query) (x.map layer.keys) (x.map layer.values)).map layer.outProj

def forward {R : Type} (m : Scalars S) (scale : S) (layer : HeadLayer S H heads dim) (ctx : Context R) (x : List H) :
    List H :=
  let x := List.zipWith (· + ·) x (layer.attention m scale ctx (x.map layer.norm1))
  List.zipWith (· + ·) x ((x.map layer.norm2).map layer.feedForward)

end HeadLayer

/-- One question's answer. -/
structure RowOutput (S A : Type) where
  logits : List S
  act : A

/-- What the act head makes of a row's first token and of its features is left to it. -/
structure Laya (S H A : Type) (heads dim headHeads headDim : Nat) where
  encoder : ModernBert S H heads dim
  typeEmb : Nat → H
  head : List (HeadLayer S H headHeads headDim)
  headScale : S
  scorer : H → S
  actHead : H → List S → A

namespace Laya

variable {heads dim headHeads headDim : Nat}

/-- The features of a row's answer distribution, over as many slots as the widest row has markers. -/
def features (m : Scalars S) (row : List S) (positions : List Nat) (width : Nat) : List S :=
  let k : S := (max positions.length 2 : Nat)
  let masked := (List.range width).map fun i => if i < positions.length then row[i]? else none
  let p := calibratedProbabilities m masked 1
  let entropy := -(p.map fun x => x * m.ln (max x (1 / 10 ^ 9))).sum / m.ln k
  let sorted := p.mergeSort fun a b => b ≤ a
  let top := sorted.head?.getD 0
  let second := sorted[1]?.getD 0
  [top, top - second, entropy, k / 255]

def act (m : Scalars S) (laya : Laya S H A heads dim headHeads headDim) (pooled : List H) (logits : List (List S))
    (markers : List (List Nat)) (width : Nat) : List A :=
  List.zipWith laya.actHead pooled
    (List.zipWith (fun row positions => features m row positions width) logits markers)

/-- The slots of one row: an absent marker is its row's first token. -/
def rowIndex (width row : Nat) (span : Nat × Nat) (positions : List Nat) : Except String (List Nat) :=
  (List.range width).mapM fun slot =>
    let at_ := positions[slot]?.getD 0
    if span.2 ≤ at_ then
      .error ("row " ++ toString row ++ " marker at " ++ toString at_ ++ " is past its " ++ toString span.2 ++ " tokens")
    else .ok (span.1 + at_)

/-- Markers are row-relative; the flat tensor wants them absolute. -/
def markerIndex (spans : List (Nat × Nat)) (markers : List (List Nat)) (width : Nat) : Except String (List Nat) :=
  List.flatten <$> (spans.zip markers).zipIdx.mapM fun entry => rowIndex width entry.2 entry.1.1 entry.1.2

variable [Add H]

/-- The hidden states the head reads, of a batch its layout describes. -/
def hidden (m : Scalars S) (laya : Laya S H A heads dim headHeads headDim) (tokens : List Token) (qtypes : List Nat)
    (ctx : Context (Rotation S heads dim)) : List H :=
  let h := laya.encoder.forward m tokens ctx
  let perToken := (List.zipWith (fun span qtype => List.replicate span.2 qtype) ctx.layout.spans qtypes).flatten
  let h := List.zipWith (· + ·) h (perToken.map laya.typeEmb)
  laya.head.foldl (fun h layer => layer.forward m laya.headScale ctx h) h

/-- Answer a batch. -/
def forward (m : Scalars S) (laya : Laya S H A heads dim headHeads headDim) (tokens : List Token) (lengths : List Nat)
    (markers : List (List Nat)) (qtypes : List Nat) : Except String (List (RowOutput S A)) := do
  let rows := lengths.length
  if markers.length ≠ rows ∨ qtypes.length ≠ rows then
    throw (toString rows ++ " rows, " ++ toString markers.length ++ " markers, " ++ toString qtypes.length ++ " types")
  let layout := Layout.new lengths
  if layout.total ≠ tokens.length then
    throw (toString tokens.length ++ " tokens for rows totalling " ++ toString layout.total)
  let ctx ← laya.encoder.prepare layout
  let h := laya.hidden m tokens qtypes ctx
  let width := (markers.map List.length).max?.getD 0
  if width = 0 then throw "no row has an option marker"
  let flat ← markerIndex layout.spans markers width
  let picked ← gather h flat
  let logits := Cache.chunksExact width rows (picked.map laya.scorer)
  let pooled ← gather h (layout.spans.map Prod.fst)
  let acts := laya.act m pooled logits markers width
  return List.zipWith (fun out positions => ⟨out.1.take positions.length, out.2⟩) (logits.zip acts) markers

end Laya

/-- A loaded checkpoint; its budget is within the positions it has tables for. -/
structure CandleEncoder (S H A : Type) (heads dim headHeads headDim : Nat) where
  model : Laya S H A heads dim headHeads headDim
  maxContext : Nat
  budget : maxContext ≤ model.encoder.maxPositionEmbeddings

open Engine in
def CandleEncoder.forward {heads dim headHeads headDim : Nat} [Add H] (m : Scalars S)
    (encoder : CandleEncoder S H A heads dim headHeads headDim) (batch : EncoderBatch) :
    Except Error (List (RowOutput S A)) := do
  batch.validate encoder.maxContext
  if batch.rows = [] then return []
  let tokens := batch.rows.flatMap EncoderRow.tokens
  let lengths := batch.rows.map EncoderRow.len
  (encoder.model.forward m tokens lengths (batch.rows.map EncoderRow.markers)
    (batch.rows.map fun row => row.qtype.index)).mapError .engine

end Backend

end Vapi
