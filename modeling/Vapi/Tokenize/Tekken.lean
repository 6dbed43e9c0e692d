import Vapi.Lib.Utf8
import Vapi.Proto.Envelope
import Mathlib.Algebra.BigOperators.Group.List.Basic
import Mathlib.Algebra.Ring.Nat

/-!
# Tekken

`vapi-tokenize/src/tekken.rs`: a byte-level BPE whose vocabulary stands behind
a block of special tokens. JSON, base64 and regular expressions are left to
others.
-/

namespace Vapi.Tokenize

structure VocabEntry where
  tokenBytes : Text

structure SpecialEntry where
  rank : Nat
  tokenStr : Text
  isControl : Bool := false

structure TekkenConfig where
  pattern : Text
  defaultVocabSize : Nat
  defaultNumSpecialTokens : Nat

structure TekkenFile where
  config : TekkenConfig
  vocab : List VocabEntry
  specialTokens : List SpecialEntry

/-- What is left to others: each tells why it fails. Matches come as ranges of bytes, the failed ones left out. -/
structure Libraries (R : Type) where
  json : Text → Except String TekkenFile
  base64 : Text → Except String (List UInt8)
  regex : Text → Except String R
  findIter : R → Text → List (Nat × Nat)

structure Special where
  text : Text
  isControl : Bool

structure Tekken (R : Type) where
  /-- Byte string for every ordinary token, indexed by `id - numSpecial`. -/
  vocab : List (List UInt8)
  ranks : List UInt8 → Option UInt32
  specials : List (Option Special)
  byName : Text → Option UInt32
  numSpecial : Nat
  pattern : R

/-- A map with one more entry, or another one. -/
def insert {K V : Type} [DecidableEq K] (map : K → Option V) (key : K) (v : V) : K → Option V :=
  fun k => if k = key then some v else map k

def utf8 (text : Text) : List UInt8 := text.flatMap String.utf8EncodeChar

namespace Tekken

variable {R : Type} (lib : Libraries R)

/-- The loop over the vocabulary. -/
def readVocab (vocab : List (List UInt8)) (ranks : List UInt8 → Option UInt32) :
    List VocabEntry → Except String (List (List UInt8) × (List UInt8 → Option UInt32))
  | [] => .ok (vocab, ranks)
  | entry :: rest =>
    match lib.base64 entry.tokenBytes with
    | .error e => .error ("tekken vocab rank " ++ toString vocab.length ++ ": " ++ e)
    | .ok bytes => readVocab (vocab ++ [bytes]) (insert ranks bytes (UInt32.ofNat vocab.length)) rest

/-- The loop over the special tokens. -/
def readSpecials (numSpecial : Nat) (specials : List (Option Special)) (byName : Text → Option UInt32) :
    List SpecialEntry → List (Option Special) × (Text → Option UInt32)
  | [] => (specials, byName)
  | entry :: rest =>
    if numSpecial ≤ entry.rank then readSpecials numSpecial specials byName rest
    else readSpecials numSpecial (specials.set entry.rank (some ⟨entry.tokenStr, entry.isControl⟩))
      (insert byName entry.tokenStr (UInt32.ofNat entry.rank)) rest

def fromJson (text : Text) : Except String (Tekken R) :=
  match lib.json text with
  | .error e => .error ("tekken.json: " ++ e)
  | .ok file =>
    let numSpecial := file.config.defaultNumSpecialTokens
    let keep := file.config.defaultVocabSize - numSpecial
    match readVocab lib [] (fun _ => none) (file.vocab.take keep) with
    | .error e => .error e
    | .ok (vocab, ranks) =>
      let (specials, byName) := readSpecials numSpecial (List.replicate numSpecial none) (fun _ => none) file.specialTokens
      match lib.regex file.config.pattern with
      | .error e => .error ("tekken split pattern: " ++ e)
      | .ok pattern => .ok { vocab, ranks, specials, byName, numSpecial, pattern }

variable (t : Tekken R)

def vocabSize : Nat := t.numSpecial + t.vocab.length

def special (id : UInt32) : Option Special := t.specials[id.toNat]?.join

def isSpecial (id : UInt32) : Bool := id.toNat < t.numSpecial

/-- Raw bytes for one token, or empty for an unused special slot. -/
def bytesOf (id : UInt32) : List UInt8 :=
  if t.isSpecial id then (t.specials[id.toNat]?.join).elim [] fun s => utf8 s.text
  else t.vocab[id.toNat - t.numSpecial]?.getD []

def decodeBytes (ids : List UInt32) (skipSpecial : Bool) : List UInt8 :=
  ids.flatMap fun id =>
    if skipSpecial && (t.special id).any (fun s => s.isControl || t.isSpecial id) then [] else t.bytesOf id

def decode (ids : List UInt32) (skipSpecial : Bool) : Text := Utf8.lossy (t.decodeBytes ids skipSpecial)

/-- A turn of the loop over the pairs of neighbours. -/
def better (parts : List (List UInt8)) (best : Option (Nat × UInt32)) (i : Nat) : Option (Nat × UInt32) :=
  match t.ranks (parts.getD i [] ++ parts.getD (i + 1) []) with
  | some rank => if best.all fun b => rank < b.2 then some (i, rank) else best
  | none => best

/-- The pair of neighbours with the lowest rank, the first of several. -/
def best (parts : List (List UInt8)) : Option (Nat × UInt32) :=
  (List.range (parts.length - 1)).foldl (t.better parts) none

/-- The loop of `encode_piece`. A turn makes one part of two, so their number bounds the turns. -/
def mergeFrom (piece : List UInt8) : Nat → List (List UInt8) → List (List UInt8)
  | 0, parts => parts
  | fuel + 1, parts =>
    match t.best parts with
    | none => parts
    | some (i, _) =>
      let start := ((parts.take i).map List.length).sum
      let len := (parts.getD i []).length + (parts.getD (i + 1) []).length
      mergeFrom piece fuel ((parts.set i ((piece.drop start).take len)).eraseIdx (i + 1))

def idOf (rank : UInt32) : UInt32 := rank + UInt32.ofNat t.numSpecial

/-- Byte-pair merge within one piece, lowest rank first. -/
def encodePiece (piece : List UInt8) : List UInt32 :=
  if piece = [] then []
  else match t.ranks piece with
    | some rank => [t.idOf rank]
    | none => (t.mergeFrom piece piece.length (piece.map ([·]))).map fun part =>
      match t.ranks part with
      | some rank => t.idOf rank
      | none => (t.byName "<unk>".toList).getD 0

/-- The loop of `encode` over the matches, from the byte that comes next. -/
def encodeFrom (bytes : List UInt8) : Nat → List (Nat × Nat) → List UInt32
  | at_, [] => if at_ < bytes.length then t.encodePiece (bytes.drop at_) else []
  | at_, m :: rest =>
    (if at_ < m.1 then t.encodePiece ((bytes.take m.1).drop at_) else []) ++
      t.encodePiece ((bytes.take m.2).drop m.1) ++ encodeFrom bytes m.2 rest

def encode (text : Text) : List UInt32 := t.encodeFrom (utf8 text) 0 (lib.findIter t.pattern text)

end Tekken

end Vapi.Tokenize
