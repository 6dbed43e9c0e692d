import Vapi.Core.Sampling
import Vapi.Lib.Ranking
import Mathlib.Algebra.Field.Defs
import Mathlib.Algebra.BigOperators.Group.List.Defs

/-!
# The sampler

`vapi-engine/src/sampler.rs`: the pick of one token from a row of logits, and
from the candidates a device selected of it. Numbers are exact, and the
exponential is a function; a draw is handed the number its generator returns.
-/

namespace Vapi.Engine

/-- A row cut down on the device: tokens with their raw logits, and the row's maximum and softmax sum. -/
structure RowCandidates (S : Type) where
  entries : List (Nat × S)
  max : S
  sum : S

structure GumbelDraw where
  seed : UInt64
  draw : UInt64
  observed : List (Nat × Nat)
  repetitionPenalty : ℚ
  frequencyPenalty : ℚ
  presencePenalty : ℚ

structure CandidateNeed where
  invTemperature : ℚ
  needed : Nat
  gumbel : Option GumbelDraw
  full : Bool

/-- What the sampler keeps of a sequence: how often each token occurred, once a token. -/
structure SamplerState where
  counts : List (Nat × Nat) := []
  distinct : (counts.map Prod.fst).Nodup := by decide
  deviceSeed : UInt64 := 0
  deviceDraws : UInt64 := 0

/-- `1.0 / temperature.max(1e-5)` -/
def invTemperature (temperature : ℚ) : ℚ := 1 / max temperature (1 / 100000)

namespace SamplerState

/-- Nothing but temperature, which the device draws by itself. -/
def deviceDrawable (p : SamplingParams) : Bool := !p.isGreedy && p.topK.isNone && 1 ≤ p.topP && p.minP ≤ 0

def distinctObserved (s : SamplerState) : Nat := s.counts.length

/-- What a device-side selection must return for the row to be sampled as from the full logits. -/
def need (s : SamplerState) (p : SamplingParams) : CandidateNeed :=
  if p.logprobs.isSome || p.responseFormat.isSome then
    { invTemperature := 1, needed := 0, gumbel := none, full := true }
  else
    let raising := p.repetitionPenalty < 1 || p.frequencyPenalty < 0 || p.presencePenalty < 0
    let k := if p.isGreedy then some 1 else p.topK
    { invTemperature := if p.isGreedy then 1 else invTemperature p.temperature
      needed := if raising then 0 else k.elim 0 fun k => max k 1 + s.distinctObserved
      gumbel := if deviceDrawable p then
          some ⟨s.deviceSeed, s.deviceDraws, s.counts, p.repetitionPenalty, p.frequencyPenalty, p.presencePenalty⟩
        else none
      full := false }

end SamplerState

variable {S : Type} [Field S] [LinearOrder S]

/-- The repetition penalty minds the sign: dividing a negative logit would raise it. -/
def penalise (p : SamplingParams) (l : S) (count : Nat) : S :=
  let rep : S := p.repetitionPenalty
  let l := if p.repetitionPenalty ≠ 1 then (if 0 < l then l / rep else l * rep) else l
  let l := l - p.frequencyPenalty * count
  if 0 < count then l - p.presencePenalty else l

def penalised (p : SamplingParams) : Bool :=
  p.repetitionPenalty ≠ 1 || p.frequencyPenalty ≠ 0 || p.presencePenalty ≠ 0

/-- A token past the end of the row is left out. -/
def applyPenalties (row : List S) (p : SamplingParams) (s : SamplerState) : List S :=
  if penalised p then s.counts.foldl (fun row c => row.modify c.1 fun l => penalise p l c.2) row else row

/-- The lowest of the largest. -/
def argmax (row : List S) : Nat :=
  let best := row.zipIdx.foldl (fun best x =>
    best.elim (some x) fun b : S × Nat => if b.1 < x.1 then some x else some b) none
  best.elim 0 Prod.snd

/-- Tokens further than this below the maximum, after temperature, are left out. -/
def candidateCutoff : Nat := 30

/-- The tokens that can carry mass, each with its probability, sorted. -/
def candidates (exp : S → S) (row : List S) (temperature : ℚ) : List (Nat × S) :=
  let invT : S := invTemperature temperature
  let top := row.max?.getD 0 * invT
  let floor := top - candidateCutoff
  let out := row.zipIdx.filterMap fun x =>
    if floor ≤ x.1 * invT then some (x.2, exp (x.1 * invT - top)) else none
  let sum := (out.map Prod.snd).sum
  let out := if 0 < sum then out.map fun c => (c.1, c.2 / sum) else out
  out.mergeSort Ranking.before

def truncateTopK (c : List (Nat × S)) (k : Nat) : List (Nat × S) := c.take (max k 1)

/-- Keep tokens with at least `minP` of the largest probability. -/
def truncateMinP (c : List (Nat × S)) (minP : S) : List (Nat × S) :=
  match c with
  | [] => []
  | top :: _ => c.take (max (c.takeWhile fun x => minP * top.2 ≤ x.2).length 1)

/-- Keep the smallest prefix whose probability adds up to `topP`. -/
def truncateTopP (topP : S) (acc : S) : List (Nat × S) → List (Nat × S)
  | [] => []
  | c :: cs => if topP ≤ acc + c.2 then [c] else c :: truncateTopP topP (acc + c.2) cs

/-- The three truncations, as far as they are asked for. -/
def truncate (p : SamplingParams) (c : List (Nat × S)) : List (Nat × S) :=
  let c := p.topK.elim c (truncateTopK c)
  let c := if 0 < p.minP then truncateMinP c p.minP else c
  if p.topP < 1 then truncateTopP (p.topP : S) 0 c else c

/-- `r` is what is left of the number drawn. -/
def choose (c : List (Nat × S)) (r : S) : Nat :=
  match c with
  | [] => 0
  | [x] => x.1
  | x :: cs => if r - x.2 ≤ 0 then x.1 else choose cs (r - x.2)

def weightedChoice (c : List (Nat × S)) (random : S) : Nat :=
  let total := (c.map Prod.snd).sum
  if total ≤ 0 then (c.head?.map Prod.fst).getD 0 else choose c (random * total)

/-- The tokens a row is drawn from. -/
def survivors (exp : S → S) (row : List S) (p : SamplingParams) (s : SamplerState) : List (Nat × S) :=
  truncate p (candidates exp (applyPenalties row p s) p.temperature)

/-- Pick one token from a row of logits. -/
def sample (exp : S → S) (row : List S) (p : SamplingParams) (s : SamplerState) (random : S) : Nat :=
  if p.isGreedy then argmax (applyPenalties row p s) else weightedChoice (survivors exp row p s) random

namespace RowCandidates

variable (exp : S → S) (row : RowCandidates S) (p : SamplingParams) (s : SamplerState)

def invT : S := if p.isGreedy then 1 else invTemperature p.temperature

/-- The entries after the penalties, and the sum corrected for what they moved. -/
def penalties : List (Nat × S) × S :=
  if penalised p then
    (row.entries.map fun x => (x.1, (s.counts.lookup x.1).elim x.2 (penalise p x.2)),
      row.entries.foldl (fun sum x => (s.counts.lookup x.1).elim sum fun count =>
        sum + (exp ((penalise p x.2 count - row.max) * invT p) - exp ((x.2 - row.max) * invT p))) row.sum)
  else (row.entries, row.sum)

/-- The tokens the candidates are drawn from. -/
def survivors : List (Nat × S) :=
  let moved := row.penalties exp p s
  let cands := moved.1.map fun x => (x.1, exp ((x.2 - row.max) * invT p))
  let here := (cands.map Prod.snd).sum
  let denom := if 0 < moved.2 then Max.max moved.2 here else here
  let cands := if 0 < denom then cands.map fun c => (c.1, c.2 / denom) else cands
  truncate p (cands.mergeSort Ranking.before)

/-- `sample` over a row's device-selected candidates. -/
def sample (random : S) : Nat :=
  if p.isGreedy then ((Ranking.first (row.penalties exp p s).1).map Prod.fst).getD 0
  else weightedChoice (row.survivors exp p s) random

end RowCandidates

end Vapi.Engine
