import Mathlib.Algebra.Ring.Nat
import Mathlib.Data.Rat.Defs
import Mathlib.Algebra.Order.Ring.Unbundled.Rat

/-!
# Requests and sampling parameters

The shared vocabulary of `vapi-core`: identifiers, errors, sampling
parameters and finish reasons. An `f32` parameter is the rational it denotes.
-/

namespace Vapi

abbrev Token := UInt32

structure RequestId where
  value : String
  deriving DecidableEq, Repr

/-- Engine-local sequence handle. -/
abbrev SeqId := Nat

inductive Error
  | invalidRequest (message : String)
  | contextLengthExceeded (tokens limit : Nat)
  | engine (message : String)
  deriving DecidableEq, Repr

/-- JSON as the client sends it; a number is kept as written. -/
inductive Json
  | null
  | bool (b : Bool)
  | number (text : String)
  | string (s : String)
  | array (items : List Json)
  | object (fields : List (String × Json))

inductive ResponseFormat
  | jsonObject
  | jsonSchema (schema : Json)

inductive FinishReason
  | stop
  | length
  | toolCalls
  | cancelled
  | error
  deriving DecidableEq, Repr

structure StopCondition where
  stopTokenIds : List Token := []
  stopStrings : List (List Char) := []
  includeStopStr : Bool := false
  deriving DecidableEq, Repr

structure SamplingParams where
  temperature : ℚ := 1
  topP : ℚ := 1
  topK : Option Nat := none
  minP : ℚ := 0
  repetitionPenalty : ℚ := 1
  frequencyPenalty : ℚ := 0
  presencePenalty : ℚ := 0
  maxTokens : Nat := 256
  n : Nat := 1
  seed : Option UInt64 := none
  logprobs : Option Nat := none
  responseFormat : Option ResponseFormat := none
  constraintStartsAfter : Option String := none
  stop : StopCondition := {}

namespace SamplingParams

def f32Epsilon : ℚ := 1 / 8388608

/-- Greedy decoding: take the argmax and skip the sampling pipeline. -/
def isGreedy (p : SamplingParams) : Bool := p.temperature ≤ f32Epsilon

/-- Running the request again gives the same tokens. -/
def isDeterministic (p : SamplingParams) : Bool := p.temperature ≤ f32Epsilon || p.seed.isSome

def maxChoices : Nat := 8

def validate (p : SamplingParams) : Except String Unit :=
  if ¬(0 ≤ p.temperature ∧ p.temperature ≤ 2) then .error "temperature must be in [0, 2]"
  else if ¬(0 ≤ p.topP ∧ p.topP ≤ 1) ∨ p.topP = 0 then .error "top_p must be in (0, 1]"
  else if ¬(0 ≤ p.minP ∧ p.minP ≤ 1) then .error "min_p must be in [0, 1]"
  else if p.topK = some 0 then .error "top_k must be >= 1"
  else if p.maxTokens = 0 then .error "max_tokens must be >= 1"
  else if p.n = 0 ∨ maxChoices < p.n then .error s!"n must be in [1, {maxChoices}]"
  else if p.repetitionPenalty ≤ 0 then .error "repetition_penalty must be > 0"
  else if p.logprobs.any (20 < ·) then .error "logprobs must be <= 20"
  else .ok ()

end SamplingParams

end Vapi
