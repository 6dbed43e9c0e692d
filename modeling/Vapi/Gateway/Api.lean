import Vapi.Gateway.Output
import Vapi.Gateway.Stream

/-!
# Answering a chat request

The two ways an answer is delivered, as one body or as a stream of chunks, and
the replay of an answer that was remembered.
-/

namespace Vapi.Gateway

open OpenAi Proto

/-- The parsed answer of one request. -/
structure ParsedOutput where
  content : Text := []
  reasoning : Option Text := none
  toolCalls : List ToolCall := []
  deriving DecidableEq

namespace ParsedOutput

def take (out : ParsedOutput) : Piece → ParsedOutput
  | .reasoning r => { out with reasoning := some (out.reasoning.getD [] ++ r) }
  | .content c => { out with content := out.content ++ c }
  | .toolCalls calls => { out with toolCalls := out.toolCalls ++ calls }

def takeAll (out : ParsedOutput) (pieces : List Piece) : ParsedOutput := pieces.foldl take out

end ParsedOutput

/-- Runs deltas through the model's output parser when there is one, and through nothing when there is not. -/
structure Parsed where
  parser : Option OutputParser
  out : ParsedOutput := {}

def chunkOf : Piece → StreamChunk
  | .reasoning r => .reasoning r
  | .content c => .content c
  | .toolCalls calls => .toolCalls calls

namespace Parsed

variable (reader : CallReader)

/-- Accumulate one delta. -/
def push (p : Parsed) (text : Text) : Parsed :=
  match p.parser with
  | some parser =>
    let (parser, pieces) := parser.push reader text
    { parser := some parser, out := p.out.takeAll pieces }
  | none => { p with out := { p.out with content := p.out.content ++ text } }

def finish (p : Parsed) (reason : FinishReason) : ParsedOutput × FinishReason :=
  match p.parser with
  | none => (p.out, reason)
  | some parser =>
    let (parser, pieces) := parser.finish
    (p.out.takeAll pieces, if parser.sawToolCalls then .toolCalls else reason)

/-- One delta as the chunks to stream for it. -/
def stream (p : Parsed) (text : Text) : Parsed × List StreamChunk :=
  match p.parser with
  | some parser =>
    let (parser, pieces) := parser.push reader text
    ({ p with parser := some parser }, pieces.map chunkOf)
  | none => (p, [.content text])

def finishStream (p : Parsed) (reason : FinishReason) : Parsed × FinishReason × List StreamChunk :=
  match p.parser with
  | none => (p, reason, [])
  | some parser =>
    let (parser, pieces) := parser.finish
    ({ p with parser := some parser }, if parser.sawToolCalls then .toolCalls else reason, pieces.map chunkOf)

def pushAll (p : Parsed) (texts : List Text) : Parsed := texts.foldl (fun p text => p.push reader text) p

def streamAll (p : Parsed) : List Text → Parsed × List StreamChunk
  | [] => (p, [])
  | text :: texts =>
    let (p, chunks) := p.stream reader text
    let (p, more) := p.streamAll texts
    (p, chunks ++ more)

end Parsed

/-- A finished completion, as the response cache stores it. -/
structure CachedResponse where
  tokens : List Text
  finish : FinishReason
  promptTokens : Nat
  completionTokens : Nat
  deriving DecidableEq

/-- What the delivery of an answer reads of a request. -/
structure Prepared where
  /-- `n` of the request's parameters. -/
  n : Nat
  promptTokens : Nat
  /-- The request has a key in the response cache. -/
  cacheKey : Bool

namespace Prepared

/-- Completions that are waited for. -/
def choices (p : Prepared) : Nat := max p.n 1

/-- A finished answer for later requests, when it qualifies. -/
def remember (p : Prepared) (tokens : List Text) (finish : FinishReason) (usage : Usage) : Option CachedResponse :=
  if p.cacheKey ∧ (finish = .stop ∨ finish = .length) then
    some ⟨tokens, finish, usage.promptTokens, usage.completionTokens⟩
  else none

end Prepared

/-- One frame of a streamed answer. -/
inductive Frame
  | data (chunk : StreamChunk)
  | done
  deriving DecidableEq

section Deliver

variable (reader : CallReader) (decode : List Token → Text)

def logprobEntry (text : Text) (logprob : ℚ) (top : List TokenLogprob) : LogprobEntry :=
  ⟨text, logprob, top.map fun t => (decode [t.tokenId], t.logprob)⟩

/-- Answer from the response cache in one body. -/
def replayChat (hit : CachedResponse) (parser : Option OutputParser) (id model : String) : ChatCompletionResponse :=
  let (out, finish) := (({ parser } : Parsed).pushAll reader hit.tokens).finish hit.finish
  (ChatCompletionResponse.new id model out.content finish (.new hit.promptTokens hit.completionTokens)).withParsed
    out.reasoning out.toolCalls

/-- The cached deltas replayed as chunks. -/
def replayStream (hit : CachedResponse) (parser : Option OutputParser) (includeUsage : Bool) : List Frame :=
  let (acc, chunks) := ({ parser } : Parsed).streamAll reader hit.tokens
  let (_, finish, tail) := acc.finishStream hit.finish
  let usage := Usage.new hit.promptTokens hit.completionTokens
  [.data .role] ++ chunks.map .data ++ tail.map .data ++ [.data (.finish finish)] ++
    (if includeUsage then [.data (.usageOnly usage)] else []) ++ [.done]

/-- What `collect` keeps while it drains a stream. -/
structure Collecting where
  accs : List Parsed
  finishes : List (Option FinishReason)
  usage : Usage
  logprobs : Option (List LogprobEntry) := none
  deltas : List Text := []
  done : Nat := 0
  remembered : Option CachedResponse := none

/-- The whole answer, as `collect` returns it: the first choice in full, the text and the finish reason of each
further one. -/
structure Collected where
  out : ParsedOutput
  finish : FinishReason
  usage : Usage
  logprobs : Option (List LogprobEntry)
  rest : List (Text × FinishReason)
  remembered : Option CachedResponse

def Collecting.start (prepared : Prepared) (parser : Option OutputParser) : Collecting :=
  { accs := List.replicate prepared.choices { parser }, finishes := List.replicate prepared.choices none,
    usage := .new prepared.promptTokens 0 }

/-- The answers of the choices, once the stream is drained. -/
def Collecting.finish (c : Collecting) : Collected :=
  let outs := c.accs.zipIdx.map fun (acc, i) => acc.finish ((c.finishes[i]?.join).getD .stop)
  let first := outs.head?.getD ({}, .stop)
  ⟨first.1, first.2, c.usage, c.logprobs, outs.tail.map fun (o, f) => (o.content, f), c.remembered⟩

/-- One event. `none` ends the drain. -/
def Collecting.event (prepared : Prepared) (c : Collecting) : StreamEvent → Except Error (Collecting × Bool)
  | .started _ => .ok (c, true)
  | .decided .. | .transcribed .. =>
    .error (.engine "a worker of the wrong kind answered a generation request; this model's queue has the wrong kind of worker on it")
  | .token choice text logprob top =>
    let logprobs := match logprob with
      | some lp => some (c.logprobs.getD [] ++ [logprobEntry decode text lp (top.getD [])])
      | none => c.logprobs
    .ok ({ c with
      logprobs, accs := c.accs.modify choice fun acc => acc.push reader text,
      deltas := if choice = 0 then c.deltas ++ [text] else c.deltas }, true)
  | .done choice reason promptTokens completionTokens =>
    let fresh := c.finishes[choice]? = some none
    let finishes := if fresh then c.finishes.set choice (some reason) else c.finishes
    let done := if fresh then c.done + 1 else c.done
    -- the prompt is shared and counted once
    let usage := Usage.new promptTokens (c.usage.completionTokens + completionTokens)
    let c := { c with finishes, done, usage }
    let c := if choice = 0 then
        { c with remembered := (prepared.remember c.deltas reason usage).or c.remembered, deltas := [] }
      else c
    .ok (c, done < prepared.choices)
  | .failed message => .error (.engine message)

def Collecting.drain (prepared : Prepared) : List StreamEvent → Collecting → Except Error Collecting
  | [], c => .ok c
  | event :: events, c =>
    match c.event reader decode prepared event with
    | .error e => .error e
    | .ok (c, true) => c.drain prepared events
    | .ok (c, false) => .ok c

/-- Drain the whole stream into one answer. -/
def collect (prepared : Prepared) (parser : Option OutputParser) (events : List StreamEvent) : Except Error Collected :=
  (Collecting.start prepared parser).drain reader decode prepared events |>.map Collecting.finish

/-- The body of a collected answer. Several completions are reported as plain text. -/
def Collected.response (c : Collected) (id model : String) : ChatCompletionResponse :=
  if c.rest ≠ [] then .withChoices id model ((c.out.content, c.finish) :: c.rest) c.usage
  else
    let resp := (ChatCompletionResponse.new id model c.out.content c.finish c.usage).withParsed c.out.reasoning
      c.out.toolCalls
    match c.logprobs with
    | some lp => resp.withLogprobs lp
    | none => resp

/-- What `sse_stream` keeps between two frames. -/
structure Streaming where
  accs : List Parsed
  completionTokens : Nat := 0
  promptTokens : Nat
  deltas : List Text := []
  choicesLeft : Nat
  remembered : Option CachedResponse := none
  /-- The usage written down when the last choice is done. -/
  recorded : Option Usage := none

def Streaming.start (prepared : Prepared) (parser : Option OutputParser) : Streaming :=
  { accs := List.replicate prepared.choices { parser }, promptTokens := prepared.promptTokens,
    choicesLeft := prepared.choices }

/-- The first chunk of a delta carries its token's log-probability. -/
def labelFirst (text : Text) (logprob : Option ℚ) (top : Option (List TokenLogprob)) :
    List StreamChunk → List StreamChunk
  | [] => []
  | chunk :: rest =>
    match logprob with
    | some lp => chunk.withLogprobs (logprobEntry decode text lp (top.getD [])) :: rest
    | none => chunk :: rest

/-- The first choice's last word sets the counts. -/
def Streaming.count (prepared : Prepared) (s : Streaming) (choice : Nat) (reason : FinishReason) (p c : Nat) : Streaming :=
  if choice = 0 then
    { s with
      promptTokens := p, completionTokens := c, deltas := [],
      remembered := (prepared.remember s.deltas reason (.new p c)).or s.remembered }
  else s

/-- One event: the frames it yields, and whether the stream goes on. -/
def Streaming.event (prepared : Prepared) (s : Streaming) : Except TransportError StreamEvent → Streaming × List Frame × Bool
  | .ok (.started _) => (s, [], true)
  | .ok (.decided ..) | .ok (.transcribed ..) | .ok (.failed _) | .error _ => (s, [.data (.finish .error)], false)
  | .ok (.token choice text logprob top) =>
    let s := { s with
      completionTokens := s.completionTokens + 1,
      deltas := if choice = 0 ∧ prepared.cacheKey then s.deltas ++ [text] else s.deltas }
    match s.accs[choice]? with
    | none => (s, [], true)
    | some acc =>
      let (acc, chunks) := acc.stream reader text
      ({ s with accs := s.accs.set choice acc },
        (labelFirst decode text logprob top chunks).map fun c => .data (c.setChoiceIndex choice), true)
  | .ok (.done choice reason p c) =>
    let s := s.count prepared choice reason p c
    let (accs, reason, tail) := match s.accs[choice]? with
      | some acc =>
        let (acc, reason, tail) := acc.finishStream reason
        (s.accs.set choice acc, reason, tail)
      | none => (s.accs, reason, [])
    let frames := (tail.map fun c => Frame.data (c.setChoiceIndex choice)) ++ [.data (.finishFor choice reason)]
    let s := { s with accs, choicesLeft := s.choicesLeft - 1 }
    if 0 < s.choicesLeft then (s, frames, true)
    else ({ s with recorded := some (.new s.promptTokens s.completionTokens) }, frames, false)

def Streaming.drain (prepared : Prepared) : List (Except TransportError StreamEvent) → Streaming → Streaming × List Frame
  | [], s => (s, [])
  | event :: events, s =>
    match s.event reader decode prepared event with
    | (s, frames, true) =>
      let (s, more) := s.drain prepared events
      (s, frames ++ more)
    | (s, frames, false) => (s, frames)

/-- The frames of a streamed answer. -/
def sseStream (prepared : Prepared) (parser : Option OutputParser) (includeUsage : Bool)
    (events : List (Except TransportError StreamEvent)) : Streaming × List Frame :=
  let (s, frames) := (Streaming.start prepared parser).drain reader decode prepared events
  let usage := Usage.new s.promptTokens s.completionTokens
  (s, [.data .role] ++ frames ++ (if includeUsage then [.data (.usageOnly usage)] else []) ++ [.done])

end Deliver

end Vapi.Gateway
