import Vapi.Proto.Envelope

/-!
# The wire format of answers

The parts of an OpenAI response and of its streamed chunks.
-/

namespace Vapi.OpenAi

structure Usage where
  promptTokens : Nat
  completionTokens : Nat
  totalTokens : Nat
  deriving DecidableEq, Repr

def Usage.new (promptTokens completionTokens : Nat) : Usage :=
  ⟨promptTokens, completionTokens, promptTokens + completionTokens⟩

theorem Usage.new_inj {a b c d : Nat} : Usage.new a b = Usage.new c d ↔ a = c ∧ b = d := by
  constructor
  · intro same
    injection same with prompt completion
    exact ⟨prompt, completion⟩
  · rintro ⟨rfl, rfl⟩
    rfl

structure FunctionCall where
  name : Text
  arguments : Text
  deriving DecidableEq, Repr

structure ToolCall where
  id : String
  kind : String
  function : FunctionCall
  deriving DecidableEq, Repr

def ToolCall.ofFunction (id : String) (name arguments : Text) : ToolCall := ⟨id, "function", ⟨name, arguments⟩⟩

/-- One tool call in a streaming delta. -/
structure ToolCallDelta where
  index : Nat
  id : String
  kind : String
  function : FunctionCall
  deriving DecidableEq, Repr

/-- What an assistant message says. -/
structure ChatMessage where
  content : Option Text := none
  toolCalls : Option (List ToolCall) := none
  reasoningContent : Option Text := none
  deriving DecidableEq

def ChatMessage.assistant (content : Text) : ChatMessage := { content := some content }

structure LogprobEntry where
  token : Text
  logprob : ℚ
  topLogprobs : List (Text × ℚ)
  deriving DecidableEq

structure ChatChoice where
  index : Nat
  message : ChatMessage
  finishReason : Option String
  logprobs : Option (List LogprobEntry) := none
  deriving DecidableEq

/-- The string OpenAI clients expect. -/
def asOpenai : FinishReason → String
  | .stop => "stop"
  | .length => "length"
  | .toolCalls => "tool_calls"
  | .cancelled | .error => "stop"

structure ChatCompletionResponse where
  id : String
  model : String
  choices : List ChatChoice
  usage : Usage
  deriving DecidableEq

namespace ChatCompletionResponse

def new (id model : String) (content : Text) (finish : FinishReason) (usage : Usage) : ChatCompletionResponse :=
  ⟨id, model, [{ index := 0, message := .assistant content, finishReason := some (asOpenai finish) }], usage⟩

def withChoices (id model : String) (choices : List (Text × FinishReason)) (usage : Usage) : ChatCompletionResponse :=
  ⟨id, model, choices.zipIdx.map fun ((content, finish), index) =>
    { index, message := .assistant content, finishReason := some (asOpenai finish) }, usage⟩

/-- Attach parsed tool calls and reasoning to a choice's message. -/
def parsedChoice (reasoning : Option Text) (toolCalls : List ToolCall) (c : ChatChoice) : ChatChoice :=
  let c := { c with message := { c.message with reasoningContent := reasoning.filter (· ≠ []) } }
  if toolCalls = [] then c
  else
    let content := if c.message.content = some [] then none else c.message.content
    { c with
      message := { c.message with content, toolCalls := some toolCalls },
      finishReason := some (asOpenai .toolCalls) }

def withParsed (r : ChatCompletionResponse) (reasoning : Option Text) (toolCalls : List ToolCall) :
    ChatCompletionResponse :=
  { r with choices := r.choices.modifyHead (parsedChoice reasoning toolCalls) }

def withLogprobs (r : ChatCompletionResponse) (content : List LogprobEntry) : ChatCompletionResponse :=
  { r with choices := r.choices.modifyHead fun c => { c with logprobs := some content } }

end ChatCompletionResponse

structure ChunkDelta where
  /-- Whether the chunk announces the assistant's role. -/
  role : Bool := false
  content : Option Text := none
  reasoningContent : Option Text := none
  toolCalls : Option (List ToolCallDelta) := none
  deriving DecidableEq

structure ChunkChoice where
  index : Nat := 0
  delta : ChunkDelta := {}
  finishReason : Option String := none
  logprobs : Option (List LogprobEntry) := none
  deriving DecidableEq

/-- One frame of an SSE stream; what every frame of a request repeats is left out. -/
structure StreamChunk where
  choices : List ChunkChoice
  usage : Option Usage := none
  deriving DecidableEq

namespace StreamChunk

def role : StreamChunk := { choices := [{ delta := { role := true } }] }

def content (text : Text) : StreamChunk := { choices := [{ delta := { content := some text } }] }

def reasoning (text : Text) : StreamChunk := { choices := [{ delta := { reasoningContent := some text } }] }

/-- A chunk carrying whole tool calls. -/
def toolCalls (calls : List ToolCall) : StreamChunk :=
  { choices := [{ delta := { toolCalls := some (calls.zipIdx.map fun (c, index) => ⟨index, c.id, c.kind, c.function⟩) } }] }

def finish (reason : FinishReason) : StreamChunk := { choices := [{ finishReason := some (asOpenai reason) }] }

/-- Point a chunk at the completion it belongs to. -/
def setChoiceIndex (index : Nat) (c : StreamChunk) : StreamChunk :=
  { c with choices := c.choices.modifyHead fun choice => { choice with index } }

def finishFor (index : Nat) (reason : FinishReason) : StreamChunk := (finish reason).setChoiceIndex index

def withLogprobs (c : StreamChunk) (entry : LogprobEntry) : StreamChunk :=
  { c with choices := c.choices.modifyHead fun choice => { choice with logprobs := some [entry] } }

/-- Trailing usage-only chunk. -/
def usageOnly (usage : Usage) : StreamChunk := { choices := [], usage := some usage }

end StreamChunk

end Vapi.OpenAi
