import Vapi.Proto.Envelope
import Mathlib.Algebra.Ring.Nat
import Mathlib.Data.List.Infix

/-!
# The sequence a decision model reads

`vapi-tokenize/src/decision.rs`: a question, its options behind a mask each,
and the state, laid out as the checkpoint was trained on them. The tokenizer is
left to others.
-/

namespace Vapi

def QuestionType.asStr : QuestionType → Text
  | .choice => "choice".toList
  | .score => "score".toList
  | .noul => "noul".toList

namespace Tokenize

structure DecisionConfig where
  /-- Longest sequence, in tokens. -/
  maxLen : Nat
  /-- Of that, the share the question and its options may spend. -/
  headMaxLen : Nat

structure DecisionFormat where
  cls : UInt32
  sep : UInt32
  mask : UInt32
  maskText : Text
  config : DecisionConfig
  /-- Keep the end of an over-long state. -/
  truncateLeft : Bool := false

structure BuiltSequence where
  tokens : List UInt32
  markers : List UInt32
  optionTokens : Option Nat
  deriving DecidableEq

/-- Longest an option's own text may be, before its marker. -/
def optionTokenCap : Nat := 48

/-- Below this much room left for the question itself, every option is shrunk. -/
def minOptionBudget : Nat := 16

/-- The question text never shrinks below this. -/
def minHeadTokens : Nat := 8

def minTokensPerOption : Nat := 4

/-- A text with what matches replaced, from the left. What is skipped belongs to the match before it. -/
def replaceFrom (pattern new : Text) : Nat → Text → Text
  | _, [] => []
  | skip + 1, _ :: rest => replaceFrom pattern new skip rest
  | 0, c :: rest =>
    if pattern <+: c :: rest then new ++ replaceFrom pattern new (pattern.length - 1) rest
    else c :: replaceFrom pattern new 0 rest

/-- `str::replace`. Nothing is found before every character, and at the end. -/
def replace (pattern new text : Text) : Text :=
  if pattern = [] then new ++ text.flatMap (· :: new) else replaceFrom pattern new 0 text

def total (rows : List (List UInt32)) : Nat := (rows.map List.length).sum

/-- Options that crowd the question out are cut, all to one length. -/
def shrink (headMax : Nat) (rows : List (List UInt32)) : Except Error (List (List UInt32) × Option Nat) :=
  if headMax - total rows < minOptionBudget then
    let room := (headMax - minOptionBudget) / rows.length
    if room < minTokensPerOption then
      .error (.invalidRequest (toString rows.length ++ " options leave " ++ toString room ++
        " tokens each within head_max_len=" ++ toString headMax ++ ", below the " ++ toString minTokensPerOption ++
        " an option needs to exist at all; raise head_max_len, shorten the option texts, or split the question " ++
        "into a coarse choice followed by a fine one"))
    else .ok (rows.map (List.take room), some room)
  else .ok (rows, none)

/-- The loop that lays the options, and marks where. -/
def place (tokens markers : List UInt32) : List (List UInt32) → List UInt32 × List UInt32
  | [] => (tokens, markers)
  | row :: rest => place (tokens ++ row) (markers ++ [UInt32.ofNat tokens.length]) rest

namespace DecisionFormat

variable (f : DecisionFormat)

/-- Strip the mask token out of text that came from a request. -/
def scrub (text : Text) : Text := if f.maskText <:+: text then replace f.maskText " ".toList text else text

def question (qtype : QuestionType) (instructions : Text) : Text :=
  qtype.asStr ++ " question: ".toList ++ f.scrub instructions

def optionText (opt : Text) : Text := " ".toList ++ f.scrub opt

def optionRow (ids : List UInt32) : List UInt32 := f.mask :: ids.take optionTokenCap

/-- What of the state fits. -/
def kept (room : Nat) (stateIds : List UInt32) : List UInt32 :=
  if stateIds.length ≤ room then stateIds
  else if f.truncateLeft then stateIds.drop (stateIds.length - room)
  else stateIds.take room

/-- Build one question's sequence. -/
def build (encode : Text → Except Error (List UInt32)) (qtype : QuestionType) (instructions : Text)
    (options : List Text) (state : Text) : Except Error BuiltSequence :=
  if options.length < 2 then .error (.invalidRequest "a question needs at least two options")
  else do
    let maxLen := f.config.maxLen
    let headMax := min f.config.headMaxLen maxLen
    let head ← encode (f.question qtype instructions)
    let optionIds ← options.mapM fun opt => encode (f.optionText opt)
    let (rows, optionTokens) ← shrink headMax (optionIds.map f.optionRow)
    let optionBudget := headMax - total rows
    let head := head.take (max optionBudget minHeadTokens)
    let placed := place (f.cls :: head ++ [f.sep]) [] rows
    let markers := placed.2
    let tokens := placed.1 ++ [f.sep]
    -- one slot held back for the closing separator
    let room := maxLen - (tokens.length + 1)
    let stateIds ← encode (f.scrub state)
    let tokens := (tokens ++ f.kept room stateIds ++ [f.sep]).take maxLen
    if markers.any fun m => tokens.length ≤ m.toNat then
      .error (.invalidRequest ("the question and its options do not fit in max_len=" ++ toString maxLen))
    else .ok ⟨tokens, markers, optionTokens⟩

end DecisionFormat

end Tokenize

end Vapi
