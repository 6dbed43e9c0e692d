import Vapi.Proto.Envelope

/-!
# Batches of an encoder

The rows a single-pass backend is given.
-/

namespace Vapi.Engine

/-- One question: the sequence it became, and where its option markers sit. -/
structure EncoderRow where
  tokens : List Token
  markers : List Nat
  qtype : QuestionType
  deriving DecidableEq

def EncoderRow.len (r : EncoderRow) : Nat := r.tokens.length

def EncoderRow.options (r : EncoderRow) : Nat := r.markers.length

/-- What one question's markers scored, before calibration. -/
structure RowScores where
  logits : List ℚ
  act : ℚ
  deriving DecidableEq

structure EncoderBatch where
  rows : List EncoderRow

namespace EncoderBatch

def numRows (b : EncoderBatch) : Nat := b.rows.length

def numTokens (b : EncoderBatch) : Nat := (b.rows.map EncoderRow.len).sum

/-- Longest row. -/
def maxLen (b : EncoderBatch) : Nat := (b.rows.map EncoderRow.len).max?.getD 0

@[simp] theorem maxLen_nil : maxLen ⟨[]⟩ = 0 := rfl

theorem maxLen_concat (rows : List EncoderRow) (row : EncoderRow) :
    maxLen ⟨rows ++ [row]⟩ = max (maxLen ⟨rows⟩) row.len := by
  cases rows with
  | nil => simp [maxLen]
  | cons first rows => simp only [maxLen, List.cons_append, List.map_cons, List.map_append, List.max?_cons',
      List.foldl_append, List.map_nil, List.foldl_cons, List.foldl_nil, Option.getD_some]

def maxOptions (b : EncoderBatch) : Nat := (b.rows.map EncoderRow.options).max?.getD 0

/-- The markers of row `i`, `last` being the one before them. -/
def validateMarkers (i : Nat) (row : EncoderRow) (last : Option Nat) : List Nat → Except Error Unit
  | [] => .ok ()
  | m :: rest =>
    if row.tokens.length ≤ m then
      .error (.engine ("row " ++ toString i ++ " marker at " ++ toString m ++ " is past its " ++
        toString row.tokens.length ++ " tokens"))
    else if last.any (m ≤ ·) then
      .error (.engine ("row " ++ toString i ++ " markers are not strictly increasing"))
    else validateMarkers i row (some m) rest

def validateRow (maxContext i : Nat) (row : EncoderRow) : Except Error Unit :=
  if row.tokens = [] then .error (.engine ("row " ++ toString i ++ " has no tokens"))
  else if maxContext < row.tokens.length then
    .error (.engine ("row " ++ toString i ++ " is " ++ toString row.tokens.length ++ " tokens, over the " ++
      toString maxContext ++ " the encoder accepts"))
  else if row.markers.length < 2 then
    .error (.engine ("row " ++ toString i ++ " has " ++ toString row.markers.length ++
      " option markers; every question has at least two"))
  else validateMarkers i row none row.markers

def validateFrom (maxContext i : Nat) : List EncoderRow → Except Error Unit
  | [] => .ok ()
  | row :: rest => do
    validateRow maxContext i row
    validateFrom maxContext (i + 1) rest

/-- Check what a backend would otherwise trust silently. -/
def validate (b : EncoderBatch) (maxContext : Nat) : Except Error Unit := validateFrom maxContext 0 b.rows

end EncoderBatch

end Vapi.Engine
