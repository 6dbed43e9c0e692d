import Vapi.Gateway.Api

/-!
# What a client makes of an answer

A client of the streaming API puts the chunks of a choice together again: it
concatenates the texts and merges the tool calls by their index.
-/

namespace Vapi.Gateway

open OpenAi Proto

/-- An answer as a client has it in the end. -/
structure Answer where
  content : Text := []
  reasoning : Text := []
  /-- The name and the arguments of each call, in order. -/
  calls : List (Text × Text) := []
  finish : Option String := none
  deriving DecidableEq

/-- A choice's message, read in one piece. -/
def Answer.ofChoice (c : ChatChoice) : Answer where
  content := c.message.content.getD []
  reasoning := c.message.reasoningContent.getD []
  calls := (c.message.toolCalls.getD []).map fun call => (call.function.name, call.function.arguments)
  finish := c.finishReason

/-- The chunks of a choice taken so far; the calls under their indices. -/
structure Assembly where
  content : Text := []
  reasoning : Text := []
  calls : List (Nat × Text × Text) := []
  finish : Option String := none

namespace Assembly

/-- An entry joins the one with its index, or is a new one. -/
def mergeCall (calls : List (Nat × Text × Text)) (d : ToolCallDelta) : List (Nat × Text × Text) :=
  if calls.any (·.1 = d.index) then
    calls.map fun c => if c.1 = d.index then (c.1, c.2.1, c.2.2 ++ d.function.arguments) else c
  else calls ++ [(d.index, d.function.name, d.function.arguments)]

def takeChoice (a : Assembly) (choice : ChunkChoice) : Assembly where
  content := a.content ++ choice.delta.content.getD []
  reasoning := a.reasoning ++ choice.delta.reasoningContent.getD []
  calls := (choice.delta.toolCalls.getD []).foldl mergeCall a.calls
  finish := choice.finishReason.or a.finish

def take (a : Assembly) : Frame → Assembly
  | .data chunk => chunk.choices.foldl takeChoice a
  | .done => a

def answer (a : Assembly) : Answer := ⟨a.content, a.reasoning, a.calls.map Prod.snd, a.finish⟩

end Assembly

/-- The frames of a stream of one choice put together. -/
def assemble (frames : List Frame) : Answer := (frames.foldl Assembly.take {}).answer

end Vapi.Gateway
