import Vapi.Gateway.Chat

/-!
# Parsing a model's output

A model answers inside a fixed frame of markers: its reasoning, its answer and
its tool calls. The parser turns the stream of text into those parts.
-/

namespace Vapi.Gateway

open OpenAi

/-- How a model writes a tool call between its markers. -/
inductive ToolSyntax
  | pythonCall
  | json
  deriving DecidableEq, Repr

/-- The marker strings of a model's output format. -/
structure OutputFormat where
  thinkOpen : Option Text
  thinkClose : Option Text
  toolStart : Text
  toolEnd : Text
  callSyntax : ToolSyntax
  /-- A model that opens its reasoning closes it, and no marker is empty. -/
  closes : thinkOpen.isSome → thinkClose.isSome
  marked : thinkOpen ≠ some [] ∧ thinkClose ≠ some [] ∧ toolStart ≠ [] ∧ toolEnd ≠ []
  deriving DecidableEq

namespace OutputFormat

/-- A marker the model has when it thinks. -/
def marker (thinks : Bool) (text : String) : Option Text := if thinks then some text.toList else none

theorem marker_isSome (thinks : Bool) (text : String) : (marker thinks text).isSome = thinks := by
  cases thinks <;> rfl

theorem marker_ne_nil {thinks : Bool} {text : String} (some_ : text ≠ "") : marker thinks text ≠ some [] := by
  cases thinks with
  | false => nofun
  | true =>
    intro empty
    exact some_ (String.toList_eq_nil_iff.mp (Option.some.inj empty))

/-- LFM2: the prompt opens the reasoning block for the model. -/
def lfm2 (thinks : Bool) : OutputFormat where
  thinkOpen := none
  thinkClose := marker thinks "</think>"
  toolStart := "<|tool_call_start|>".toList
  toolEnd := "<|tool_call_end|>".toList
  callSyntax := .pythonCall
  closes := nofun
  marked := ⟨nofun, marker_ne_nil (by decide), String.toList_eq_nil_iff.not.mpr (by decide),
    String.toList_eq_nil_iff.not.mpr (by decide)⟩

/-- Qwen: the model writes both markers itself. -/
def qwen (thinks : Bool) : OutputFormat where
  thinkOpen := marker thinks "<think>"
  thinkClose := marker thinks "</think>"
  toolStart := "<tool_call>".toList
  toolEnd := "</tool_call>".toList
  callSyntax := .json
  closes := fun opens => by rwa [marker_isSome] at opens ⊢
  marked := ⟨marker_ne_nil (by decide), marker_ne_nil (by decide), String.toList_eq_nil_iff.not.mpr (by decide),
    String.toList_eq_nil_iff.not.mpr (by decide)⟩

/-- The format of whichever model is loaded, read off its vocabulary. -/
def detect (hasToken : String → Bool) : Option OutputFormat :=
  let thinks := hasToken "<think>" && hasToken "</think>"
  if hasToken "<|tool_call_start|>" && hasToken "<|tool_call_end|>" then some (lfm2 thinks)
  else if hasToken "<tool_call>" && hasToken "</tool_call>" then some (qwen thinks)
  else none

end OutputFormat

/-- What a piece of model output turned out to be. -/
inductive Piece
  | reasoning (text : Text)
  | content (text : Text)
  | toolCalls (calls : List ToolCall)
  deriving DecidableEq

/-- What the parser leaves to others: the name and the arguments of each call a block's text spells, if it
spells calls, and the digits a call's id is made of. -/
structure CallReader where
  read : ToolSyntax → Text → Option (List (Text × Text))
  digits : String → String

/-- A text split at the first occurrence of a marker. -/
def cut (marker : Text) : Text → Option (Text × Text)
  | [] => if marker = [] then some ([], []) else none
  | c :: rest =>
    if marker.isPrefixOf (c :: rest) then some ([], (c :: rest).drop marker.length)
    else (cut marker rest).map fun p => (c :: p.1, p.2)

structure OutputParser where
  fmt : OutputFormat
  inThink : Bool
  /-- Just left the reasoning block: line breaks are not content yet. -/
  trimLeading : Bool := false
  toolBuf : Option Text := none
  callsMade : Nat := 0
  callIdSeed : String

namespace OutputParser

variable (reader : CallReader)

def new (fmt : OutputFormat) (callIdSeed : String) : OutputParser :=
  { fmt, inThink := fmt.thinkClose.isSome && fmt.thinkOpen.isNone, callIdSeed }

def sawToolCalls (p : OutputParser) : Bool := 0 < p.callsMade

def isBreak (c : Char) : Bool := c = '\n' || c = '\r'

/-- Content, with the blank line after the reasoning block dropped. -/
def content (p : OutputParser) (text : Text) : OutputParser × List Piece :=
  if p.trimLeading then
    let t := text.dropWhile isBreak
    ({ p with trimLeading := t.isEmpty }, if t = [] then [] else [.content t])
  else (p, if text = [] then [] else [.content text])

def callId (p : OutputParser) (idx : Nat) : String :=
  "call_" ++ String.ofList ((reader.digits (p.callIdSeed ++ ":" ++ toString idx)).toList.take 16)

/-- The calls of a block, each with its number. -/
def makeCalls (p : OutputParser) : List (Text × Text) → OutputParser × List ToolCall
  | [] => (p, [])
  | (name, args) :: rest =>
    let call := ToolCall.ofFunction (p.callId reader p.callsMade) name args
    let (q, calls) := makeCalls { p with callsMade := p.callsMade + 1 } rest
    (q, call :: calls)

def finishToolText (p : OutputParser) (text : Text) : OutputParser × Piece :=
  match reader.read p.fmt.callSyntax text with
  | some (first :: rest) =>
    let (q, calls) := p.makeCalls reader (first :: rest)
    (q, .toolCalls calls)
  | _ => (p, .content (p.fmt.toolStart ++ text ++ p.fmt.toolEnd))

/-- One turn of the loop of `push`: what is left of the text. -/
def turn (p : OutputParser) (rest : Text) : OutputParser × List Piece × Text :=
  if p.inThink then
    match cut (p.fmt.thinkClose.getD []) rest with
    | some (before, after) =>
      ({ p with inThink := false, trimLeading := true }, if before = [] then [] else [.reasoning before], after)
    | none => (p, [.reasoning rest], [])
  else match p.toolBuf with
    | some buf =>
      match cut p.fmt.toolEnd rest with
      | some (before, after) =>
        let (q, piece) := { p with toolBuf := none }.finishToolText reader (buf ++ before)
        (q, [piece], after)
      | none => ({ p with toolBuf := some (buf ++ rest) }, [], [])
    | none =>
      match cut p.fmt.toolStart rest, p.fmt.thinkOpen.bind (cut · rest) with
      | some (before, after), think =>
        -- whichever comes first
        match think with
        | some (before', after') =>
          if before.length < before'.length then
            let (q, pieces) := p.content before
            ({ q with toolBuf := some [] }, pieces, after)
          else
            let (q, pieces) := p.content before'
            ({ q with inThink := true }, pieces, after')
        | none =>
          let (q, pieces) := p.content before
          ({ q with toolBuf := some [] }, pieces, after)
      | none, some (before, after) =>
        let (q, pieces) := p.content before
        ({ q with inThink := true }, pieces, after)
      | none, none =>
        let (q, pieces) := p.content rest
        (q, pieces, [])

/-- The loop of `push`. Every turn takes a marker or all that is left, so the text's length bounds the turns. -/
def pushFrom : Nat → OutputParser → Text → OutputParser × List Piece
  | 0, p, _ => (p, [])
  | fuel + 1, p, rest =>
    if rest = [] then (p, [])
    else
      let (q, pieces, rest) := p.turn reader rest
      let (r, more) := pushFrom fuel q rest
      (r, pieces ++ more)

def push (p : OutputParser) (delta : Text) : OutputParser × List Piece := pushFrom reader delta.length p delta

/-- End of stream: an unterminated tool call is handed back as text. -/
def finish (p : OutputParser) : OutputParser × List Piece :=
  match p.toolBuf with
  | some text => ({ p with toolBuf := none }, if text = [] then [] else [.content (p.fmt.toolStart ++ text)])
  | none => (p, [])

end OutputParser

end Vapi.Gateway
