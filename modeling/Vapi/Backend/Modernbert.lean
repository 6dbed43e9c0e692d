import Vapi.Lib.Ragged
import Vapi.Engine.Encoder
import Mathlib.Algebra.BigOperators.Fin
import Mathlib.Algebra.Field.Defs
import Mathlib.Algebra.Order.Ring.Defs

/-!
# The encoder

`vapi-backend-candle/src/models/modernbert.rs` on its reference path, over a
flat batch: every row's tokens end to end. Numbers are exact; what happens to
one token by itself (embeddings, norms, projections, the feed-forward) is a
function.
-/

namespace Vapi.Backend

open Ragged (slice)

/-- Where each row sits in the flat batch. The offsets are 32-bit numbers. -/
structure Layout where
  cuSeqlens : List UInt32

namespace Layout

def cumulative (at_ : UInt32) : List Nat → List UInt32
  | [] => []
  | len :: lengths => (at_ + UInt32.ofNat len) :: cumulative (at_ + UInt32.ofNat len) lengths

def new (lengths : List Nat) : Layout := ⟨0 :: cumulative 0 lengths⟩

def rows (l : Layout) : Nat := l.cuSeqlens.length - 1

def total (l : Layout) : Nat := (l.cuSeqlens.getLast?.getD 0).toNat

/-- The start and the length of each row. -/
def spans (l : Layout) : List (Nat × Nat) :=
  l.cuSeqlens.zipWith (fun a b => (a.toNat, (b - a).toNat)) l.cuSeqlens.tail

/-- The position of every token within its own row. -/
def positions (l : Layout) : List Nat := l.spans.flatMap fun span => List.range span.2

end Layout

/-- `index_select`: the rows of a table, in the order asked for. -/
def gather {α : Type} (table : List α) (index : List Nat) : Except String (List α) :=
  index.mapM fun i => (table[i]?).elim (.error "index out of range") .ok

theorem mapM_ok {α β ε : Type} {f : α → Except ε β} {g : α → β} {l : List α} (each : ∀ x ∈ l, f x = .ok (g x)) :
    l.mapM f = .ok (l.map g) := by
  induction l with
  | nil => rfl
  | cons x l ih =>
    rw [List.mapM_cons, each x (by simp), ih fun y hy => each y (by simp [hy])]
    rfl

/-- The exponential and the logarithm. -/
structure Scalars (S : Type) [Zero S] [LT S] where
  exp : S → S
  ln : S → S
  exp_pos : ∀ x, 0 < exp x

variable {S H : Type} [Field S] [LinearOrder S]

/-- The weight of each position; a masked one has none. -/
def softmax (m : Scalars S) (scores : List (Option S)) : List S :=
  let weights := scores.map fun score => score.elim 0 m.exp
  weights.map (· / weights.sum)

/-- A token's vectors, one for each head. -/
abbrev HeadVectors (S : Type) (heads dim : Nat) := Fin heads → Fin dim → S

/-- Positions of a row that do not see each other. -/
abbrev Mask := Nat → Nat → Bool

/-- What a layer needs that does not vary by layer. -/
structure Context (R : Type) where
  layout : Layout
  /-- The rotations of the batch's positions, under either theta. -/
  global : List R
  windowed : List R
  window : Nat
  masks : List Mask

section Attend

variable {heads dim : Nat} (m : Scalars S) (scale : S)

/-- Attention within one row. -/
def attendRow (mask : Option Mask) (q k v : List (HeadVectors S heads dim)) : List (HeadVectors S heads dim) :=
  q.mapIdx fun i qi head c =>
    let att := k.mapIdx fun j kj => if mask.any (· i j) then none else some ((∑ e, qi head e * kj head e) * scale)
    (List.zipWith (fun w vj => w * vj head c) (softmax m att) v).sum

/-- One row at a time; a layer without a window has no mask. -/
def attendReference {R : Type} (ctx : Context R) (window : Option Nat) (q k v : List (HeadVectors S heads dim)) :
    List (HeadVectors S heads dim) :=
  (List.zipWith (fun span mask =>
    attendRow m scale (window.map fun _ => mask) (slice q span) (slice k span) (slice v span))
    ctx.layout.spans ctx.masks).flatten

end Attend

/-- A rotation of a token's vectors. -/
abbrev Rotation (S : Type) (heads dim : Nat) := HeadVectors S heads dim → HeadVectors S heads dim

structure Layer (S H : Type) (heads dim : Nat) where
  /-- The first layer has none. -/
  attnNorm : Option (H → H)
  query : H → HeadVectors S heads dim
  keys : H → HeadVectors S heads dim
  values : H → HeadVectors S heads dim
  out : HeadVectors S heads dim → H
  mlpNorm : H → H
  mlp : H → H
  global : Bool

structure ModernBert (S H : Type) (heads dim : Nat) where
  /-- A token's embedding, normalised. -/
  embed : Token → H
  layers : List (Layer S H heads dim)
  finalNorm : H → H
  globalRotary : List (Rotation S heads dim)
  localRotary : List (Rotation S heads dim)
  window : Nat
  scale : S
  /-- Both tables have a row for each position there can be. -/
  maxPositionEmbeddings : Nat
  tables : globalRotary.length = maxPositionEmbeddings ∧ localRotary.length = maxPositionEmbeddings

namespace Layer

variable {heads dim : Nat} [Add H]

def attention (m : Scalars S) (scale : S) (layer : Layer S H heads dim) (ctx : Context (Rotation S heads dim))
    (x : List H) : List H :=
  let rope := List.zipWith (fun rotate t => rotate t) (if layer.global then ctx.global else ctx.windowed)
  let q := rope (x.map layer.query)
  let k := rope (x.map layer.keys)
  let v := x.map layer.values
  let window := if layer.global then none else some ctx.window
  (attendReference m scale ctx window q k v).map layer.out

def forward (m : Scalars S) (scale : S) (layer : Layer S H heads dim) (ctx : Context (Rotation S heads dim))
    (x : List H) : List H :=
  let normed := layer.attnNorm.elim x fun norm => x.map norm
  let x := List.zipWith (· + ·) x (layer.attention m scale ctx normed)
  List.zipWith (· + ·) x ((x.map layer.mlpNorm).map layer.mlp)

end Layer

namespace ModernBert

variable {heads dim : Nat} [Add H]

/-- Positions further apart than the window. -/
def windowMask (bert : ModernBert S H heads dim) (_len : Nat) : Mask := fun i j => bert.window < max i j - min i j

def prepare (bert : ModernBert S H heads dim) (layout : Layout) : Except String (Context (Rotation S heads dim)) := do
  let global ← gather bert.globalRotary layout.positions
  let windowed ← gather bert.localRotary layout.positions
  return { layout, global, windowed, window := bert.window, masks := layout.spans.map fun span => bert.windowMask span.2 }

def forward (m : Scalars S) (bert : ModernBert S H heads dim) (ids : List Token) (ctx : Context (Rotation S heads dim)) :
    List H :=
  (bert.layers.foldl (fun x layer => layer.forward m bert.scale ctx x) (ids.map bert.embed)).map bert.finalNorm

end ModernBert

end Vapi.Backend
