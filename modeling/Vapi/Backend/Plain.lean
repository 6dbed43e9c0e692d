import Vapi.Lib.Mirror
import Vapi.Backend.Dense
import Vapi.Backend.Causal
import Vapi.Backend.Decoder

/-!
# The plain decoder

What a model makes of the last token of a text, from nothing but the text: each
layer has the rows of the layer below for all the text's beginnings at hand. A
cache that has what a layer stores for the texts it was given for its slots is
as good as that, whatever batch they were computed in.
-/

namespace Vapi.Backend

open Vapi.Engine Vapi.Cache Slots

variable {ι S : Type} {hidden kvHeads dim vocab : Nat}

section Plain

variable [Field S] [LinearOrder S] (f : Numerics S)

/-- No window is so small that a token does not see itself. -/
def Attention.plain (a : Attention S hidden kvHeads dim) (x : List Token → HiddenRow S hidden) (text : List Token) :
    HiddenRow S hidden :=
  a.output (x text) (dense f.toScalars (1 / f.sqrt dim) (a.slidingWindow.map (max 1)) a.grouped.2
    (fun k => a.project k (x (text.take (k + 1)))) (text.length - 1))

def Operator.plain : Operator S hidden kvHeads dim → (List Token → HiddenRow S hidden) → List Token → HiddenRow S hidden
  | .attention a, x, text => a.plain f x text
  | .conv c, x, text => c.plain (fun q => x (text.take (q + 1))) text.length (text.length - 1)

def FeedForward.plain : FeedForward S hidden → HiddenRow S hidden → HiddenRow S hidden
  | .dense mlp => mlp
  | .sparse moe _ => moe.row f.act (Expert.forward f.act)

def Block.plain (b : Block S hidden kvHeads dim) (x : List Token → HiddenRow S hidden) (text : List Token) :
    HiddenRow S hidden :=
  let h := x text + b.operator.plain f (fun text => b.operatorNorm (x text)) text
  h + b.feedForward.plain f (b.ffnNorm h)

/-- The embedding of a text's last token. -/
def Decoder.embedding (d : Decoder S hidden kvHeads dim vocab) (text : List Token) : HiddenRow S hidden :=
  text.getLast?.elim 0 fun token => d.embed.getD token.toNat 0

def plainBlocks : List (Block S hidden kvHeads dim) → (List Token → HiddenRow S hidden) → List Token →
    HiddenRow S hidden
  | [], x => x
  | b :: blocks, x => plainBlocks blocks (b.plain f x)

/-- The logits for what comes after a text. -/
def Decoder.plain (d : Decoder S hidden kvHeads dim vocab) (text : List Token) : Fin vocab → S :=
  d.lmHead (d.norm (plainBlocks f d.blocks d.embedding text))

end Plain

section Stored

variable [Field S] [LinearOrder S] (f : Numerics S)

/-- A layer's cells have what it stores for the texts they are for. -/
def Attention.Mirrors (a : Attention S hidden kvHeads dim) (x : List Token → HiddenRow S hidden)
    (cache : KvLayer S kvHeads dim) (texts : List (Option (List Token))) : Prop :=
  Slots.Mirrors (fun text => (a.project (text.length - 1) (x text)).k) cache.1 texts ∧
    Slots.Mirrors (fun text => (a.project (text.length - 1) (x text)).v) cache.2 texts

def Operator.Mirrors : Operator S hidden kvHeads dim →
    (List Token → HiddenRow S hidden) → LayerBuffers S hidden kvHeads dim →
    List (Option (List Token)) → Prop
  | .attention a, x, .kv cache, texts => a.Mirrors x cache texts
  | .conv c, x, .rows cells, texts => Slots.Mirrors (fun text => c.gated (x text)) cells texts
  | _, _, _, _ => False

/-- Layer upon layer, each over the rows of the one below. -/
def BlocksMirror : List (Block S hidden kvHeads dim) → (List Token → HiddenRow S hidden) →
    List (LayerBuffers S hidden kvHeads dim) → List (Option (List Token)) → Prop
  | [], _, [], _ => True
  | b :: blocks, x, cache :: caches, texts =>
    b.operator.Mirrors (fun text => b.operatorNorm (x text)) cache texts ∧ BlocksMirror blocks (b.plain f x) caches texts
  | _, _, _, _ => False

def Decoder.Mirrors (d : Decoder S hidden kvHeads dim vocab) (caches : List (LayerBuffers S hidden kvHeads dim))
    (texts : List (Option (List Token))) : Prop :=
  BlocksMirror f d.blocks d.embedding caches texts

end Stored

section Beginnings

/-- A sequence's text up to a token and with it. -/
def upTo (text : ι → List Token) (t : ι × Nat) : List Token := (text t.1).take (t.2 + 1)

variable {text : ι → List Token} {t : ι × Nat}

theorem upTo_length (inside : t.2 < (text t.1).length) : (upTo text t).length - 1 = t.2 := by
  rw [upTo, List.length_take, Nat.min_eq_left inside]
  rfl

theorem upTo_take {k : Nat} (le : k ≤ t.2) : (upTo text t).take (k + 1) = upTo text (t.1, k) := by
  rw [upTo, upTo, List.take_take, Nat.min_eq_left (Nat.succ_le_succ le)]

theorem upTo_getLast? (inside : t.2 < (text t.1).length) : (upTo text t).getLast? = (text t.1)[t.2]? := by
  rw [upTo, List.getLast?_take, Nat.add_sub_cancel, List.getElem?_eq_getElem inside]
  simp

end Beginnings

section Congr

/-- Only what a query sees matters. -/
theorem dense_congr [Field S] [LinearOrder S] (m : Scalars S) (scale : S) (window : Option Nat) {heads p : Nat}
    (divides : kvHeads ∣ heads) {x x' : Nat → Projected S heads kvHeads dim} (same : ∀ k, k ≤ p → x k = x' k) :
    dense m scale window divides x p = dense m scale window divides x' p := by
  have near : ∀ k ∈ seen window p, x k = x' k := fun k mem =>
    same k (Nat.lt_succ_iff.mp (Finset.mem_range.mp (Finset.mem_filter.mp mem).1))
  funext head c
  unfold dense
  dsimp only
  rw [same p (Nat.le_refl p)]
  congr 1
  · exact Finset.sum_congr rfl fun k mem => by rw [near k mem]
  · exact Finset.sum_congr rfl fun k mem => by rw [near k mem]

theorem ShortConv.plain_congr {H : Type} [CommRing S] (conv : ShortConv S H hidden) {x x' : Nat → H} {len len' p : Nat}
    (inside : p < len) (inside' : p < len') (same : ∀ q, q ≤ p → x q = x' q) :
    conv.plain x len p = conv.plain x' len' p := by
  have past_eq : ∀ back, past (fun q => conv.gated (x q)) back p = past (fun q => conv.gated (x' q)) back p := by
    intro back
    simp only [past, same (p - back) (Nat.sub_le p back)]
  have rows : causal conv.taps ((List.range len).map fun q => conv.gated (x q)) p =
      causal conv.taps ((List.range len').map fun q => conv.gated (x' q)) p := by
    funext c
    rw [causal_eq conv.taps inside, causal_eq conv.taps inside']
    simp only [past_eq]
  rw [plain, plain, rows, same p (Nat.le_refl p)]

end Congr

end Vapi.Backend
