import Vapi.Backend.Decoder

/-!
# The text models

`llama.rs`, `qwen.rs`, `lfm2.rs` and `laguna.rs` of
`vapi-backend-candle/src/models`: what each of them makes of one token, and how
it is put together from that. The forward pass is the one they share.
-/

namespace Vapi.Backend

/-- A projection. Inputs and outputs are named by what they are reshaped to. -/
structure Linear (S I O : Type) where
  weight : O → I → S
  bias : Option (O → S) := none

structure RmsNorm (S : Type) (n : Nat) where
  weight : Fin n → S
  eps : S

/-- The rotary tables of a model: of a head, the first `half + half` numbers are rotated. -/
structure RopeTable (S : Type) (dim : Nat) where
  half : Nat
  invFreq : Fin half → S
  /-- Yarn's attention factor. -/
  scaling : S
  within : half + half ≤ dim

variable {S : Type} {hidden heads kvHeads dim vocab : Nat}

section Token

variable [Field S]

def Linear.forward {I O : Type} [Fintype I] (l : Linear S I O) (x : I → S) : O → S := fun o =>
  (∑ i, x i * l.weight o i) + l.bias.elim 0 (· o)

/-- The output of a projection, by heads. -/
def Linear.split (l : Linear S (Fin hidden) (Fin heads × Fin dim)) (x : HiddenRow S hidden) : HeadVectors S heads dim :=
  fun head c => l.forward x (head, c)

/-- A projection of all heads together. -/
def Linear.join (l : Linear S (Fin heads × Fin dim) (Fin hidden)) (y : HeadVectors S heads dim) : HiddenRow S hidden :=
  l.forward fun i => y i.1 i.2

variable [LinearOrder S] (f : Numerics S)

def RmsNorm.forward {n : Nat} (norm : RmsNorm S n) (x : Fin n → S) : Fin n → S := fun i =>
  x i / f.sqrt ((∑ j, x j * x j) / n + norm.eps) * norm.weight i

/-- RMSNorm over every head by itself, where there is one. -/
def headNorm (norm : Option (RmsNorm S dim)) (x : HeadVectors S heads dim) : HeadVectors S heads dim :=
  norm.elim x fun norm head => norm.forward f (x head)

/-- A row of the tables: the cosines and the sines of a position. -/
def RopeTable.row (rope : RopeTable S dim) (p : Nat) : (Fin rope.half → S) × (Fin rope.half → S) :=
  (fun i => f.cos (p * rope.invFreq i) * rope.scaling, fun i => f.sin (p * rope.invFreq i) * rope.scaling)

/-- The two halves of what is rotated turn against each other; what is past them passes. -/
def RopeTable.rotate (rope : RopeTable S dim) (p : Nat) (x : Fin dim → S) : Fin dim → S := fun c =>
  let (cos, sin) := rope.row f p
  if first : c < rope.half then
    x c * cos ⟨c, first⟩ - x ⟨c + rope.half, by have := rope.within; omega⟩ * sin ⟨c, first⟩
  else if second : c < rope.half + rope.half then
    x ⟨c - rope.half, by omega⟩ * sin ⟨c - rope.half, by omega⟩ + x c * cos ⟨c - rope.half, by omega⟩
  else x c

def RopeTable.apply (rope : RopeTable S dim) (p : Nat) (x : HeadVectors S heads dim) : HeadVectors S heads dim :=
  fun head => rope.rotate f p (x head)

/-- `ln(1 + e^x)`, computed as `max(x, 0) + ln(1 + e^-|x|)`. -/
def softplus (x : S) : S := max x 0 + f.ln (f.exp (-(max x (-x))) + 1)

end Token

section Llama

structure CausalSelfAttention (S : Type) (hidden kvHeads dim : Nat) where
  heads : Nat
  qProj : Linear S (Fin hidden) (Fin heads × Fin dim)
  kProj : Linear S (Fin hidden) (Fin kvHeads × Fin dim)
  vProj : Linear S (Fin hidden) (Fin kvHeads × Fin dim)
  oProj : Linear S (Fin heads × Fin dim) (Fin hidden)
  grouped : 0 < kvHeads ∧ kvHeads ∣ heads

structure LlamaBlock (S : Type) (hidden kvHeads dim : Nat) where
  rms1 : RmsNorm S hidden
  attn : CausalSelfAttention S hidden kvHeads dim
  rms2 : RmsNorm S hidden
  mlp : Mlp S hidden

structure PagedLlama (S : Type) (hidden kvHeads dim vocab : Nat) where
  wte : List (HiddenRow S hidden)
  blocks : List (LlamaBlock S hidden kvHeads dim)
  lnF : RmsNorm S hidden
  lmHead : Linear S (Fin hidden) (Fin vocab)
  rope : RopeTable S dim
  maxPositions : Nat

variable [Field S] [LinearOrder S] (f : Numerics S)

def CausalSelfAttention.attention (a : CausalSelfAttention S hidden kvHeads dim) (rope : RopeTable S dim) :
    Attention S hidden kvHeads dim where
  heads := a.heads
  project p x := ⟨rope.apply f p (a.qProj.split x), rope.apply f p (a.kProj.split x), a.vProj.split x⟩
  output _ y := a.oProj.join y
  grouped := a.grouped

def LlamaBlock.block (b : LlamaBlock S hidden kvHeads dim) (rope : RopeTable S dim) : Block S hidden kvHeads dim where
  operatorNorm := b.rms1.forward f
  operator := .attention (b.attn.attention f rope)
  ffnNorm := b.rms2.forward f
  feedForward := .dense (b.mlp.forward f.act)

def PagedLlama.decoder (m : PagedLlama S hidden kvHeads dim vocab) : Decoder S hidden kvHeads dim vocab where
  embed := m.wte
  maxPositions := m.maxPositions
  blocks := m.blocks.map (·.block f m.rope)
  norm := m.lnF.forward f
  lmHead := m.lmHead.forward
  kernels := by simp [LlamaBlock.block]

def PagedLlama.forward (m : PagedLlama S hidden kvHeads dim vocab) := (m.decoder f).forward f

end Llama

namespace Qwen

/-- The projections of Qwen2 have a bias; Qwen3 has the norms. -/
structure Attention (S : Type) (hidden kvHeads dim : Nat) where
  heads : Nat
  qProj : Linear S (Fin hidden) (Fin heads × Fin dim)
  kProj : Linear S (Fin hidden) (Fin kvHeads × Fin dim)
  vProj : Linear S (Fin hidden) (Fin kvHeads × Fin dim)
  oProj : Linear S (Fin heads × Fin dim) (Fin hidden)
  qNorm : Option (RmsNorm S dim)
  kNorm : Option (RmsNorm S dim)
  grouped : 0 < kvHeads ∧ kvHeads ∣ heads

inductive Mlp (S : Type) (hidden : Nat)
  | dense (w13 : Expert S hidden)
  | quantised (mlp : Backend.Mlp S hidden)

structure Block (S : Type) (hidden kvHeads dim : Nat) where
  inputLayernorm : RmsNorm S hidden
  attn : Attention S hidden kvHeads dim
  postAttentionLayernorm : RmsNorm S hidden
  mlp : Mlp S hidden

structure PagedQwen (S : Type) (hidden kvHeads dim vocab : Nat) where
  embed : List (HiddenRow S hidden)
  blocks : List (Block S hidden kvHeads dim)
  norm : RmsNorm S hidden
  lmHead : Linear S (Fin hidden) (Fin vocab)
  rope : RopeTable S dim
  maxPositions : Nat

variable [Field S] [LinearOrder S] (f : Numerics S)

def Attention.attention (a : Attention S hidden kvHeads dim) (rope : RopeTable S dim) :
    Backend.Attention S hidden kvHeads dim where
  heads := a.heads
  -- each head is normalised first, and then rotated
  project p x := ⟨rope.apply f p (headNorm f a.qNorm (a.qProj.split x)),
    rope.apply f p (headNorm f a.kNorm (a.kProj.split x)), a.vProj.split x⟩
  output _ y := a.oProj.join y
  grouped := a.grouped

def Mlp.forward : Mlp S hidden → HiddenRow S hidden → HiddenRow S hidden
  | .dense w13 => w13.forward f.act
  | .quantised mlp => mlp.forward f.act

def Block.block (b : Block S hidden kvHeads dim) (rope : RopeTable S dim) : Backend.Block S hidden kvHeads dim where
  operatorNorm := b.inputLayernorm.forward f
  operator := .attention (b.attn.attention f rope)
  ffnNorm := b.postAttentionLayernorm.forward f
  feedForward := .dense (b.mlp.forward f)

def PagedQwen.decoder (m : PagedQwen S hidden kvHeads dim vocab) : Decoder S hidden kvHeads dim vocab where
  embed := m.embed
  maxPositions := m.maxPositions
  blocks := m.blocks.map (·.block f m.rope)
  norm := m.norm.forward f
  lmHead := m.lmHead.forward
  kernels := by simp [Block.block]

def PagedQwen.forward (m : PagedQwen S hidden kvHeads dim vocab) := (m.decoder f).forward f

end Qwen

namespace Lfm2

structure Attention (S : Type) (hidden kvHeads dim : Nat) where
  heads : Nat
  qProj : Linear S (Fin hidden) (Fin heads × Fin dim)
  kProj : Linear S (Fin hidden) (Fin kvHeads × Fin dim)
  vProj : Linear S (Fin hidden) (Fin kvHeads × Fin dim)
  outProj : Linear S (Fin heads × Fin dim) (Fin hidden)
  qNorm : RmsNorm S dim
  kNorm : RmsNorm S dim
  grouped : 0 < kvHeads ∧ kvHeads ∣ heads

/-- The three row blocks of `in_proj`, and the taps as many as the kernel has. -/
structure ShortConv (S : Type) (hidden convKernel : Nat) where
  bProj : Linear S (Fin hidden) (Fin hidden)
  cProj : Linear S (Fin hidden) (Fin hidden)
  xProj : Linear S (Fin hidden) (Fin hidden)
  outProj : Linear S (Fin hidden) (Fin hidden)
  taps : List (Fin hidden → S)
  bias : Option (Fin hidden → S)
  kernel : taps.length = convKernel ∧ taps ≠ []

inductive Operator (S : Type) (hidden kvHeads dim convKernel : Nat)
  | attention (a : Attention S hidden kvHeads dim)
  | conv (c : ShortConv S hidden convKernel)

structure Block (S : Type) (hidden kvHeads dim convKernel : Nat) where
  operatorNorm : RmsNorm S hidden
  operator : Operator S hidden kvHeads dim convKernel
  ffnNorm : RmsNorm S hidden
  mlp : Expert S hidden

structure PagedLfm2 (S : Type) (hidden kvHeads dim vocab : Nat) where
  embed : List (HiddenRow S hidden)
  convKernel : Nat
  blocks : List (Block S hidden kvHeads dim convKernel)
  norm : RmsNorm S hidden
  lmHead : Linear S (Fin hidden) (Fin vocab)
  rope : RopeTable S dim
  maxPositions : Nat

variable [Field S] [LinearOrder S] {convKernel : Nat} (f : Numerics S)

def Attention.attention (a : Attention S hidden kvHeads dim) (rope : RopeTable S dim) :
    Backend.Attention S hidden kvHeads dim where
  heads := a.heads
  project p x := ⟨rope.apply f p (headNorm f (some a.qNorm) (a.qProj.split x)),
    rope.apply f p (headNorm f (some a.kNorm) (a.kProj.split x)), a.vProj.split x⟩
  indexed := true
  output _ y := a.outProj.join y
  grouped := a.grouped

def ShortConv.conv (c : ShortConv S hidden convKernel) : Backend.ShortConv S (HiddenRow S hidden) hidden where
  bProj := c.bProj.forward
  cProj := c.cProj.forward
  xProj := c.xProj.forward
  outProj := c.outProj.forward
  taps := c.taps
  bias := c.bias

def Operator.operator (rope : RopeTable S dim) : Operator S hidden kvHeads dim convKernel →
    Backend.Operator S hidden kvHeads dim
  | .attention a => .attention (a.attention f rope)
  | .conv c => .conv c.conv

def Block.block (b : Block S hidden kvHeads dim convKernel) (rope : RopeTable S dim) :
    Backend.Block S hidden kvHeads dim where
  operatorNorm := b.operatorNorm.forward f
  operator := b.operator.operator f rope
  ffnNorm := b.ffnNorm.forward f
  feedForward := .dense (b.mlp.forward f.act)

def PagedLfm2.decoder (m : PagedLfm2 S hidden kvHeads dim vocab) : Decoder S hidden kvHeads dim vocab where
  embed := m.embed
  maxPositions := m.maxPositions
  blocks := m.blocks.map (·.block f m.rope)
  norm := m.norm.forward f
  lmHead := m.lmHead.forward
  convKernel := m.convKernel
  kernels := by
    intro block mem conv is
    obtain ⟨b, -, rfl⟩ := List.mem_map.mp mem
    change b.operator.operator f m.rope = _ at is
    cases made : b.operator with
    | attention a => simp [made, Operator.operator] at is
    | conv c =>
      rw [made] at is
      obtain rfl := Backend.Operator.conv.inj is
      exact c.kernel

def PagedLfm2.forward (m : PagedLfm2 S hidden kvHeads dim vocab) := (m.decoder f).forward f

end Lfm2

namespace Laguna

/-- One number for each head, or one for each channel of it. -/
inductive Gating (S : Type) (hidden heads dim : Nat)
  | none
  | perHead (gProj : Linear S (Fin hidden) (Fin heads))
  | perElement (gProj : Linear S (Fin hidden) (Fin heads × Fin dim))

structure Attention (S : Type) (hidden kvHeads dim : Nat) where
  heads : Nat
  qProj : Linear S (Fin hidden) (Fin heads × Fin dim)
  kProj : Linear S (Fin hidden) (Fin kvHeads × Fin dim)
  vProj : Linear S (Fin hidden) (Fin kvHeads × Fin dim)
  oProj : Linear S (Fin heads × Fin dim) (Fin hidden)
  gating : Gating S hidden heads dim
  qNorm : RmsNorm S dim
  kNorm : RmsNorm S dim
  slidingWindow : Option Nat
  grouped : 0 < kvHeads ∧ kvHeads ∣ heads

inductive FeedForward (S : Type) (hidden : Nat)
  | dense (mlp : Mlp S hidden)
  | sparse (moe : MoeBlock S (Expert S hidden) hidden) (enough : moe.topK ≤ moe.router.length)

structure Block (S : Type) (hidden kvHeads dim : Nat) where
  inputNorm : RmsNorm S hidden
  attn : Attention S hidden kvHeads dim
  postNorm : RmsNorm S hidden
  ff : FeedForward S hidden

structure PagedLaguna (S : Type) (hidden kvHeads dim vocab : Nat) where
  embed : List (HiddenRow S hidden)
  blocks : List (Block S hidden kvHeads dim)
  norm : RmsNorm S hidden
  lmHead : Linear S (Fin hidden) (Fin vocab)
  full : RopeTable S dim
  sliding : RopeTable S dim
  maxPositions : Nat

variable [Field S] [LinearOrder S] (f : Numerics S)

/-- What attention gives for a token, through the gate. -/
def Gating.apply (g : Gating S hidden heads dim) (x : HiddenRow S hidden) (y : HeadVectors S heads dim) :
    HeadVectors S heads dim :=
  match g with
  | .none => y
  | .perHead gProj => fun head c => y head c * softplus f (gProj.forward x head)
  | .perElement gProj => fun head c => y head c * softplus f (gProj.split x head c)

/-- A layer with a window has the tables of its own. -/
def Attention.attention (a : Attention S hidden kvHeads dim) (full sliding : RopeTable S dim) :
    Backend.Attention S hidden kvHeads dim :=
  let pair := if a.slidingWindow.isSome then sliding else full
  { heads := a.heads
    project := fun p x => ⟨pair.apply f p (headNorm f (some a.qNorm) (a.qProj.split x)),
      pair.apply f p (headNorm f (some a.kNorm) (a.kProj.split x)), a.vProj.split x⟩
    slidingWindow := a.slidingWindow
    output := fun x y => a.oProj.join (a.gating.apply f x y)
    grouped := a.grouped }

def FeedForward.feedForward : FeedForward S hidden → Backend.FeedForward S hidden
  | .dense mlp => .dense (mlp.forward f.act)
  | .sparse moe enough => .sparse moe enough

def Block.block (b : Block S hidden kvHeads dim) (full sliding : RopeTable S dim) :
    Backend.Block S hidden kvHeads dim where
  operatorNorm := b.inputNorm.forward f
  operator := .attention (b.attn.attention f full sliding)
  ffnNorm := b.postNorm.forward f
  feedForward := b.ff.feedForward f

def PagedLaguna.decoder (m : PagedLaguna S hidden kvHeads dim vocab) : Decoder S hidden kvHeads dim vocab where
  embed := m.embed
  maxPositions := m.maxPositions
  blocks := m.blocks.map (·.block f m.full m.sliding)
  norm := m.norm.forward f
  lmHead := m.lmHead.forward
  kernels := by simp [Block.block]

def PagedLaguna.forward (m : PagedLaguna S hidden kvHeads dim vocab) := (m.decoder f).forward f

end Laguna

end Vapi.Backend
