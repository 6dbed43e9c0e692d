import Vapi.Core.Sampling
import Vapi.Cache.Pool
import Mathlib.Tactic.Simps.Basic

/-!
# Sequences

One in-flight generation, `vapi-engine/src/sequence.rs`. The source's field
`namespace`, the caller's tenant, is `tenant` here.
-/

namespace Vapi.Engine

open Vapi.Cache (BlockId)

inductive SeqStatus
  | waiting
  | prefilling
  | decoding
  | preempted
  | finished (reason : FinishReason)
  deriving DecidableEq, Repr

def SeqStatus.isFinished : SeqStatus → Bool
  | .finished _ => true
  | _ => false

/-- The known text, `prefillTarget`, reaches at least to the end of the
prompt and never past the tokens there are, so both cut the tokens safely. -/
structure Sequence where
  requestId : RequestId
  params : SamplingParams
  status : SeqStatus
  tokens : List Token
  promptLen : Nat
  numComputed : Nat
  prefillTarget : Nat
  blocks : List BlockId
  cachedPrefixTokens : Nat
  numCachedBlocks : Nat
  tenant : String
  promptLen_le : promptLen ≤ prefillTarget
  target_le : prefillTarget ≤ tokens.length

namespace Sequence

@[simps]
def new (requestId : RequestId) (prompt : List Token) (params : SamplingParams)
    (tenant : String) : Sequence where
  requestId := requestId
  params := params
  status := .waiting
  tokens := prompt
  promptLen := prompt.length
  numComputed := 0
  prefillTarget := prompt.length
  blocks := []
  cachedPrefixTokens := 0
  numCachedBlocks := 0
  tenant := tenant
  promptLen_le := Nat.le_refl _
  target_le := Nat.le_refl _

def prompt (seq : Sequence) : List Token := seq.tokens.take seq.promptLen

def totalLen (seq : Sequence) : Nat := seq.tokens.length

def generated (seq : Sequence) : List Token := seq.tokens.drop seq.promptLen

def numGenerated (seq : Sequence) : Nat := seq.tokens.length - seq.promptLen

/-- Known tokens still needing a forward pass before decoding can start. -/
def remainingPrefill (seq : Sequence) : Nat := seq.prefillTarget - seq.numComputed

def needsPrefill (seq : Sequence) : Bool := 0 < seq.remainingPrefill

@[simps]
def adoptPrefilled (seq : Sequence) (blocks : List BlockId) (numComputed numCachedBlocks : Nat) :
    Sequence :=
  { seq with blocks, numComputed, numCachedBlocks, status := .decoding }

@[simps]
def adoptCachedPrefix (seq : Sequence) (blocks : List BlockId) (tokens : Nat) : Sequence :=
  { seq with
    numCachedBlocks := blocks.length, blocks, cachedPrefixTokens := tokens, numComputed := tokens }

@[simps]
def advanceComputed (seq : Sequence) (n : Nat) : Sequence :=
  { seq with numComputed := seq.numComputed + n }

@[simps]
def pushToken (seq : Sequence) (t : Token) : Sequence :=
  { seq with
    tokens := seq.tokens ++ [t]
    target_le := by simpa using Nat.le_succ_of_le seq.target_le }

/-- Drop all cache state. Generated tokens are kept, as known text. -/
@[simps]
def resetForRecompute (seq : Sequence) : Sequence :=
  { seq with
    blocks := [], numComputed := 0, numCachedBlocks := 0, cachedPrefixTokens := 0
    prefillTarget := seq.tokens.length, status := .preempted
    promptLen_le := Nat.le_trans seq.promptLen_le seq.target_le
    target_le := Nat.le_refl _ }

@[simps]
def withBlocks (seq : Sequence) (blocks : List BlockId) : Sequence := { seq with blocks }

@[simps]
def withStatus (seq : Sequence) (status : SeqStatus) : Sequence := { seq with status }

@[simps]
def withCached (seq : Sequence) (numCachedBlocks : Nat) : Sequence := { seq with numCachedBlocks }

/-- A sequence that starts on a cached prefix and fresh blocks after it. -/
@[simps!]
def startOn (seq : Sequence) (matched : List BlockId) (cachedTokens : Nat) (taken : List BlockId) :
    Sequence :=
  ((seq.adoptCachedPrefix matched cachedTokens).withBlocks (matched ++ taken)).withStatus .prefilling

/-- Whether generation should stop, given the model's end-of-sequence ids. -/
def checkFinished (seq : Sequence) (eos : List Token) (maxContext : Nat) : Option FinishReason :=
  match seq.tokens.getLast? with
  | none => none
  | some last =>
    if 0 < seq.numGenerated ∧ last ∈ eos then some .stop
    else if last ∈ seq.params.stop.stopTokenIds ∧ 0 < seq.numGenerated then some .stop
    else if seq.params.maxTokens ≤ seq.numGenerated then some .length
    else if maxContext ≤ seq.totalLen then some .length
    else none

end Sequence

end Vapi.Engine
