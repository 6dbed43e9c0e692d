import Vapi.Proto.Envelope

/-!
# One request's stream

The worker's numbering of what it publishes, and the gateway's reading of the
messages of one subject.
-/

namespace Vapi

open Proto

namespace Worker

/-- The numbering of every request a worker serves (`delta_seq`). -/
abbrev Numbering := RequestId → Option DeltaSeq

inductive Numbered
  /-- The engine enters a request. -/
  | register (rid : RequestId)
  | sequence (rid : RequestId) (delta : Delta)
  | forget (rid : RequestId)

/-- What is on the wire: a subject and the message published on it. -/
abbrev Published := String × DeltaMsg

namespace Numbering

def sequence (n : Numbering) (rid : RequestId) (delta : Delta) : Numbering × DeltaMsg :=
  let (seq, msg) := ((n rid).getD {}).next delta
  (Function.update n rid (some seq), msg)

def forget (n : Numbering) (rid : RequestId) : Numbering := Function.update n rid none

def register (n : Numbering) (rid : RequestId) : Numbering := Function.update n rid (some {})

def exec (n : Numbering) : Numbered → Numbering × List Published
  | .register rid => (n.register rid, [])
  | .sequence rid delta =>
    let (n, msg) := n.sequence rid delta
    (n, [(Subjects.stream rid, msg)])
  | .forget rid => (n.forget rid, [])

/-- Everything a worker publishes, in order. -/
def publish (n : Numbering) : List Numbered → List Published
  | [] => []
  | op :: ops => (n.exec op).2 ++ (n.exec op).1.publish ops

end Numbering

end Worker

namespace Gateway

/-- What the gateway should do with one received delta. -/
inductive StreamEvent
  | started (cachedPrefixTokens : Nat)
  | token (choice : Nat) (text : Text) (logprob : Option ℚ) (topLogprobs : Option (List TokenLogprob))
  | done (choice : Nat) (reason : FinishReason) (promptTokens completionTokens : Nat)
  | decided (rows : List RowScores) (promptTokens : Nat)
  | transcribed (text : String) (positions : Nat) (audioSeconds : ℚ)
  | failed (message : String)
  deriving DecidableEq

def StreamEvent.ofDelta : Delta → StreamEvent
  | .started _ cached => .started cached
  | .token choice text _ logprob top => .token choice text logprob top
  | .done choice reason prompt completion => .done choice reason prompt completion
  | .decided rows prompt => .decided rows prompt
  | .transcribed text positions seconds => .transcribed text positions seconds
  | .failed message => .failed message

structure TransportError where
  message : String
  deriving DecidableEq

/-- A subscription to one request's subject. -/
structure TokenStream where
  seqCheck : DeltaSeqCheck := {}
  requestId : RequestId
  started : Bool := false

namespace TokenStream

/-- The answer to one message of the subject. -/
def next (s : TokenStream) (parsed : DeltaMsg) : TokenStream × Except TransportError StreamEvent :=
  let (check, gap) := s.seqCheck.observe parsed.seq
  match gap with
  | some missing =>
    ({ s with seqCheck := check }, .error ⟨toString missing ++ " token delta(s) lost in transit"⟩)
  | none => ({ s with seqCheck := check, started := true }, .ok (.ofDelta parsed.delta))

/-- The messages the subscription is given of all that is on the bus. -/
def received (s : TokenStream) (bus : List Worker.Published) : List DeltaMsg :=
  (bus.filter (·.1 = Subjects.stream s.requestId)).map Prod.snd

/-- A stream read to its end. -/
def listen (s : TokenStream) : List DeltaMsg → TokenStream × List (Except TransportError StreamEvent)
  | [] => (s, [])
  | msg :: rest =>
    let (t, answer) := s.next msg
    let (u, answers) := t.listen rest
    (u, answer :: answers)

end TokenStream

end Gateway

end Vapi
