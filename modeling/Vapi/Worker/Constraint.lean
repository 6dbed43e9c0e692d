import Vapi.Engine.Detokenize
import Vapi.Engine.RowLogprobs
import Vapi.Structured.Budget
import Vapi.Worker.Emission

/-!
# One choice's tokens

What the worker keeps of a choice that is generated: the constraint that masks
its rows, the detokenizer, and what is held back. Each sampled token gives a
delta at most, which carries the log-probability read off the masked row.
-/

namespace Vapi.Worker

open Engine Structured
open Gateway (cut)

/-- The characters `trim_start` takes off. -/
def isWhitespace (c : Char) : Bool :=
  (9 ≤ c.toNat && c.toNat ≤ 13) || c.toNat ∈ [0x20, 0x85, 0xA0, 0x1680, 0x2028, 0x2029, 0x202F, 0x205F, 0x3000] ||
    (0x2000 ≤ c.toNat && c.toNat ≤ 0x200A)

/-- A response-format constraint, before or after it takes effect. -/
inductive Constraint
  | waiting (marker : Text) (closeToken : Option Nat) (tail : Text) (schema : Schema)
  | active (machine : Machine)

/-- What one row's constraint does to its logits. -/
inductive RowConstraint
  | active (machine : Machine) (finishing : Bool)
  | waiting (closeToken : Option Nat) (outOfPatience : Bool)

namespace Constraint

def start (schema : Schema) (startsAfter : Option Text) (tokenId : Text → Option Nat) : Constraint :=
  match startsAfter with
  | some marker => if marker ≠ [] then .waiting marker (tokenId marker) [] schema else .active (.new schema)
  | none => .active (.new schema)

def row (c : Constraint) (outOfPatience finishing : Bool) : RowConstraint :=
  match c with
  | .active m => .active m finishing
  | .waiting _ closeToken _ _ => .waiting closeToken outOfPatience

/-- Advance with the text of one sampled token, unless a machine rejects it. -/
def push (c : Constraint) (text : Text) : Option Constraint :=
  match c with
  | .active m => (m.push text).map .active
  | .waiting marker closeToken tail schema =>
    let tail := tail ++ text
    match cut marker tail with
    | none =>
      -- only what could still be the start of a marker
      let gone := takeBytes (bytes tail - (bytes marker - 1)) tail
      some (.waiting marker closeToken (tail.drop gone.length) schema)
    | some (_, rest) => ((Machine.new schema).push (rest.dropWhile isWhitespace)).map .active

end Constraint

variable {S : Type} [LinearOrder S]

/-- The highest-scoring token of a row. -/
def argmax (row : List (Option S)) : Option Nat :=
  (row.zipIdx.foldl (fun (best : Option (Option S × Nat)) x =>
    best.elim (some x) fun b : Option S × Nat => if RowLogprobs.below b.1 x.1 then some x else some b) none).map
      Prod.snd

/-- Constrained decoding: rule out every token that would break the format. -/
def RowConstraint.mask (masker : TokenMasker) (eos : List Nat) (c : RowConstraint) (row : List (Option S)) :
    List (Option S) :=
  match c with
  | .active m finishing => if finishing then masker.maskFinishing m eos row else masker.mask m eos row
  | .waiting closeToken outOfPatience =>
    match outOfPatience || (argmax row).any (· ∈ eos), closeToken with
    | true, some t => row.mapIdx fun i l => if i ≠ t then none else l
    | _, _ => row.mapIdx fun i l => if i ∈ eos then none else l

/-- What the generation of a choice reads of its request and of the tokenizer. -/
structure Generation where
  decode : List Nat → Text
  vocab : Nat
  eos : List Nat
  stop : StopCondition
  maxTokens : Nat
  /-- How many alternatives are asked for beside each token. -/
  logprobs : Nat

def Generation.masker (g : Generation) : TokenMasker := .new ((List.range g.vocab).map fun id => g.decode [id])

/-- A row the model produced, and the token sampled of it. -/
structure Sampled (S : Type) where
  row : List (Option S)
  token : Nat

/-- What masks the next row. -/
structure Guard where
  constraint : Option Constraint
  numGenerated : Nat := 0

/-- What is told with a token. -/
structure Told where
  text : Text
  tokenId : Nat
  logprob : Option ℚ
  topLogprobs : Option (List Proto.TokenLogprob)

def Told.delta (t : Told) (choice : Nat) : Proto.Delta :=
  .token choice t.text (.ofNat t.tokenId) t.logprob t.topLogprobs

/-- A choice that is generated. -/
structure Choice where
  guard : Guard
  detok : IncrementalDetokenizer
  stream : StreamState := {}
  lastToken : Nat := 0

/-- A request's only choice as it is admitted. -/
def Choice.admitted (prompt : List Nat) (format : Option Schema) (startsAfter : Option Text)
    (tokenId : Text → Option Nat) : Choice where
  guard := { constraint := format.map fun schema => .start schema startsAfter tokenId }
  detok := .withPrompt prompt

variable (g : Generation)

namespace Guard

variable (w : Guard)

/-- The row a token is sampled of. -/
def masked (row : List (Option S)) : List (Option S) :=
  match w.constraint with
  | some c =>
    let outOfPatience := g.maxTokens * 3 ≤ w.numGenerated * 4
    let finishing := g.maxTokens - w.numGenerated ≤ closingBudget
    (c.row outOfPatience finishing).mask g.masker g.eos row
  | none => row

/-- A constraint that rejects what was sampled is dropped. -/
def next (token : Nat) : Guard :=
  { constraint := w.constraint.bind fun c => c.push (g.decode [token]), numGenerated := w.numGenerated + 1 }

end Guard

section Told

variable [Field S] (exp ln : S → S) (wire : Option S → ℚ)

/-- A token's log-probability in a row, and the largest of the row, as numbers are sent. -/
def readRow (row : List (Option S)) (token : Nat) : ℚ × List Proto.TokenLogprob :=
  let lp := RowLogprobs.of exp ln row g.logprobs
  (wire (lp.logprob row[token]?.join), lp.top.map fun t => ⟨.ofNat t.1, wire t.2⟩)

namespace Choice

/-- One sampled token. The end of the sequence is not streamed as content; a slice outside the text is none. -/
def step (c : Choice) (x : Sampled S) : Option (Choice × List Told) :=
  let read := readRow g exp ln wire (c.guard.masked g x.row) x.token
  let guard := c.guard.next g x.token
  if x.token ∈ g.eos then some ({ c with guard }, [])
  else do
    let (text, detok) ← c.detok.push x.token g.decode
    let (stream, out) := emitWithStopStrings c.stream g.stop text
    some (⟨guard, detok, stream, x.token⟩, out.toList.map fun text => ⟨text, x.token, some read.1, some read.2⟩)

/-- All that is told of a choice: a stopped one has no further token, and what is still held goes out at the end. -/
def told (c : Choice) : List (Sampled S) → Option (List Told)
  | [] => some (if c.stream.held = [] then [] else [⟨c.stream.held, c.lastToken, none, none⟩])
  | x :: xs => do
    let (c, out) ← c.step g exp ln wire x
    let rest ← if c.stream.stopped then some [] else c.told xs
    some (out ++ rest)

end Choice

end Told

section Masks

omit [LinearOrder S] in
theorem onlyEos_masks (eos : List Nat) (row : List (Option S)) : Masks (TokenMasker.onlyEos eos row) row :=
  masks_mapIdx _ (fun i l => by split <;> simp) row

omit [LinearOrder S] in
theorem onlyAllowed_masks (eos : List Nat) (allowed : List Bool) (row : List (Option S)) :
    Masks (TokenMasker.onlyAllowed eos allowed row) row :=
  masks_mapIdx _ (fun i l => by split <;> [simp; (split <;> simp)]) row

omit [LinearOrder S] in
theorem masker_masks (k : TokenMasker) (m : Machine) (eos : List Nat) (row : List (Option S)) :
    Masks (k.mask m eos row) row := by
  have of_allowed : ∀ allowed : List Bool,
      Masks (if allowed.any id then TokenMasker.onlyAllowed eos allowed row else TokenMasker.onlyEos eos row) row := by
    intro allowed
    split
    · exact onlyAllowed_masks eos allowed row
    · exact onlyEos_masks eos row
  unfold TokenMasker.mask
  split
  · exact onlyEos_masks eos row
  · exact of_allowed _

omit [LinearOrder S] in
theorem finishing_masks (k : TokenMasker) (m : Machine) (eos : List Nat) (row : List (Option S)) :
    Masks (k.maskFinishing m eos row) row := by
  unfold TokenMasker.maskFinishing
  split
  · exact masker_masks k m eos row
  · simp only
    split
    · exact onlyAllowed_masks eos _ row
    · exact masker_masks k m eos row

/-- A constraint only ever takes logits away. -/
theorem Guard.masked_masks (w : Guard) (row : List (Option S)) : Masks (w.masked g row) row := by
  unfold Guard.masked
  cases w.constraint with
  | none => exact List.forall₂_same.mpr fun _ _ => .inr rfl
  | some c =>
    cases c with
    | active m =>
      simp only [Constraint.row, RowConstraint.mask]
      split
      · exact finishing_masks g.masker m g.eos row
      · exact masker_masks g.masker m g.eos row
    | waiting marker closeToken tail schema =>
      simp only [Constraint.row, RowConstraint.mask]
      split
      · exact masks_mapIdx _ (fun i l => by split <;> simp) row
      · exact masks_mapIdx _ (fun i l => by split <;> simp) row

/-- Without a response format the row is as the model produced it. -/
theorem Guard.masked_none {w : Guard} (none_ : w.constraint = none) (row : List (Option S)) : w.masked g row = row := by
  rw [masked, none_]

end Masks

end Vapi.Worker
