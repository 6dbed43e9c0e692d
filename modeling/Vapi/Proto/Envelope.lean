import Vapi.Core.Sampling
import Mathlib.Data.Rat.Defs

/-!
# What a worker sends a gateway

Deltas, their numbers in a request's stream, and the gateway's check that none
went missing.
-/

namespace Vapi

/-- A string as its characters. -/
abbrev Text := List Char

/-- What a question asks for. -/
inductive QuestionType
  | choice
  | score
  | noul
  deriving DecidableEq, Repr

namespace Proto

inductive JobKind
  | chat
  | completion
  | decision
  | transcription
  deriving DecidableEq, Repr

def JobKind.debug : JobKind → String
  | .chat => "Chat"
  | .completion => "Completion"
  | .decision => "Decision"
  | .transcription => "Transcription"

/-- One question within a decision job: how many of the job's tokens are its own, and where its option
markers stand among them. -/
structure DecisionRow where
  len : Nat
  markers : List Nat
  qtype : QuestionType
  deriving DecidableEq

structure Job where
  requestId : RequestId
  kind : JobKind
  promptTokens : List Token
  rows : List DecisionRow := []

namespace Job

/-- The loop of `decision_rows`, from the token at `start` on. -/
def decisionRowsFrom (job : Job) (start : Nat) : List DecisionRow → Except String (List (List Token × DecisionRow))
  | [] =>
    if start ≠ job.promptTokens.length then
      .error (toString (job.promptTokens.length - start) ++ " tokens left over after " ++
        toString job.rows.length ++ " decision rows")
    else .ok []
  | row :: rest =>
    let stop := start + row.len
    if job.promptTokens.length < stop then
      .error ("decision row needs tokens " ++ toString start ++ ".." ++ toString stop ++ " of " ++
        toString job.promptTokens.length)
    else do
      let rest ← job.decisionRowsFrom stop rest
      return ((job.promptTokens.drop start).take row.len, row) :: rest

/-- The rows of a decision job, each with its tokens. -/
def decisionRows (job : Job) : Except String (List (List Token × DecisionRow)) := job.decisionRowsFrom 0 job.rows

end Job

/-- One question's uncalibrated scores. -/
structure RowScores where
  logits : List ℚ
  act : ℚ
  deriving DecidableEq

structure TokenLogprob where
  tokenId : Token
  logprob : ℚ
  deriving DecidableEq

inductive Delta
  | started (workerId : String) (cachedPrefixTokens : Nat)
  | token (choice : Nat) (text : Text) (tokenId : Token) (logprob : Option ℚ)
      (topLogprobs : Option (List TokenLogprob))
  | done (choice : Nat) (reason : FinishReason) (promptTokens completionTokens : Nat)
  | decided (rows : List RowScores) (promptTokens : Nat)
  | transcribed (text : String) (positions : Nat) (audioSeconds : ℚ)
  | failed (message : String)
  deriving DecidableEq

namespace Delta

/-- Whether this delta ends the stream. -/
def isTerminal : Delta → Bool
  | .done .. | .decided .. | .transcribed .. | .failed .. => true
  | _ => false

def isStarted : Delta → Bool
  | .started .. => true
  | _ => false

def isDecided : Delta → Bool
  | .decided .. => true
  | _ => false

end Delta

/-- A delta and its position in the request's stream. -/
structure DeltaMsg where
  seq : Nat
  delta : Delta
  deriving DecidableEq

/-- The number the next delta of a request gets. -/
structure DeltaSeq where
  value : Nat := 0

def DeltaSeq.next (s : DeltaSeq) (delta : Delta) : DeltaSeq × DeltaMsg := (⟨s.value + 1⟩, ⟨s.value, delta⟩)

/-- The gateway's account of what it has seen of a stream. -/
structure DeltaSeqCheck where
  expected : Nat := 0
  gaps : Nat := 0

namespace DeltaSeqCheck

/-- How many messages were skipped before this one. -/
def observe (c : DeltaSeqCheck) (seq : Nat) : DeltaSeqCheck × Option Nat :=
  let missing := seq - c.expected
  if 0 < missing then (⟨seq + 1, c.gaps + missing⟩, some missing) else (⟨seq + 1, c.gaps⟩, none)

variable {c : DeltaSeqCheck} {seq : Nat}

end DeltaSeqCheck

/-- The subject a request's deltas are published on. -/
def Subjects.stream (id : RequestId) : String := "vapi.stream." ++ id.value

theorem Subjects.stream_injective : Function.Injective Subjects.stream := by
  intro a b same
  obtain ⟨x⟩ := a
  obtain ⟨y⟩ := b
  exact congrArg RequestId.mk ((String.append_right_inj _).mp same)

end Proto

end Vapi
