import Vapi.Core.Sampling
import Vapi.Audio.Mel
import Vapi.Backend.PagedCache
import Mathlib.Algebra.BigOperators.Group.List.Basic
import Mathlib.Algebra.Ring.Nat

/-!
# Transcription

`vapi-backend-candle/src/models/voxtral.rs` from a clip's samples to its
tokens: how long everything is, and what is fed to the decoder when. What the
layers make of their rows are functions.
-/

namespace Vapi.Backend.Speech

open Audio

structure PaddingConfig where
  leftTokens : Nat := 32
  bufferTokens : Nat := 10

def PaddingConfig.rightTokens (p : PaddingConfig) (numDelayTokens : Nat) : Nat := numDelayTokens + 1 + p.bufferTokens

structure VoxtralConfig where
  numMelBins : Nat
  audioLengthPerTok : Nat
  downsampleFactor : Nat
  padding : PaddingConfig

namespace VoxtralConfig

variable (c : VoxtralConfig)

/-- Mel frames of one decoder position. -/
def melPerPosition : Nat := c.audioLengthPerTok

def samplesPerPosition (hopLength : Nat) : Nat := c.audioLengthPerTok * hopLength

def prompt (bos streamingPad : Token) (numDelayTokens : Nat) : List Token :=
  bos :: List.replicate (c.padding.leftTokens + numDelayTokens) streamingPad

/-- The clip between its silences, a whole number of positions. -/
def padAudio {S : Type} [Zero S] (samples : List S) (hopLength numDelayTokens : Nat) : Except String (List S) :=
  let per := c.samplesPerPosition hopLength
  if per = 0 then .error "attempt to divide by zero"
  else
    let whole := (samples.length + per - 1) / per * per
    let left := c.padding.leftTokens * per
    let right := c.padding.rightTokens numDelayTokens * per
    .ok (List.replicate left 0 ++ samples ++ List.replicate (whole - samples.length + right) 0)

end VoxtralConfig

/-- The positions of a rotary table, which are 32-bit numbers. -/
def ropeSlice (offset len : Nat) : Except String (List Nat) :=
  let start := (UInt32.ofNat offset).toNat
  let stop := (UInt32.ofNat (offset + len)).toNat
  let pos := List.range' start (stop - start)
  if pos.length = len then .ok pos else .error "shape mismatch in reshape"

section Encoder

variable {S H A : Type}

/-- What a kernel of 3 has of the columns from one on. -/
def tap {α β : Type} (f : α → α → α → β) : List α → Except String β
  | a :: b :: c :: _ => .ok (f a b c)
  | _ => .error "index out of bounds"

/-- A convolution over time. -/
def conv1d {α β : Type} (f : α → α → α → β) (stride : Nat) (cols : List α) : Except String (List β) :=
  if cols.length < 3 then .error "attempt to subtract with overflow"
  else
    (List.range ((cols.length - 3) / stride + 1)).mapM fun o => tap f (cols.drop (o * stride))

def leftPad {α : Type} (zero : α) (pad : Nat) (cols : List α) : List α := List.replicate pad zero ++ cols

/-- The convolutional stem, each convolution with its activation. -/
structure Embedder (S H : Type) where
  conv1 : List S → List S → List S → H
  conv2 : H → H → H → H

/-- From the mel bins of each frame to half as many rows. -/
def Embedder.forward [Zero S] [Zero H] (e : Embedder S H) (bins : Nat) (mel : List (List S)) :
    Except String (List H) := do
  let x ← conv1d e.conv1 1 (leftPad (List.replicate bins 0) 2 mel)
  conv1d e.conv2 2 (leftPad 0 1 x)

structure AudioLayer (H : Type) where
  attnNorm : H → H
  /-- What a row has of all of them, at their positions. -/
  attn : List Nat → List H → Nat → H
  mlpNorm : H → H
  mlp : H → H

def AudioLayer.forward [Add H] (l : AudioLayer H) (rope : List Nat) (x : List H) : List H :=
  let h := x.mapIdx fun i row => row + l.attn rope (x.map l.attnNorm) i
  h.map fun row => row + l.mlp (l.mlpNorm row)

structure AudioEncoder (S H : Type) where
  embedder : Embedder S H
  layers : List (AudioLayer H)
  norm : H → H

def AudioEncoder.forward [Zero S] [Zero H] [Add H] (e : AudioEncoder S H) (bins : Nat) (mel : List (List S)) :
    Except String (List H) := do
  let x ← e.embedder.forward bins mel
  let rope ← ropeSlice 0 x.length
  return (e.layers.foldl (fun x layer => layer.forward rope x) x).map e.norm

/-- Encoder frames grouped into decoder positions. -/
structure Projector (H A : Type) where
  group : Nat
  linear : List H → A

def Projector.forward (p : Projector H A) (x : List H) : Except String (List A) :=
  let frames := x.length
  if frames % p.group ≠ 0 then
    .error (toString frames ++ " encoder frames do not group into " ++ toString p.group ++
      "s; the audio must be a whole number of positions")
  else .ok ((List.range (frames / p.group)).map fun i => p.linear ((x.drop (i * p.group)).take p.group))

end Encoder

/-- A decoder's logits for a position are a function of the steps it was fed. -/
structure Voxtral (S H A L : Type) where
  audio : AudioEncoder S H
  projector : Projector H A
  logits : Nat → List (List (Token × A)) → Nat → L
  argmax : L → Token
  config : VoxtralConfig
  loaded : projector.group = config.downsampleFactor

/-- What a running transcription was fed, step after step. -/
structure Session (A : Type) where
  steps : List (List (Token × A)) := []

def Session.positions {A : Type} (s : Session A) : Nat := s.steps.flatten.length

/-- `narrow` along the first dimension. -/
def narrow {α : Type} (rows : List α) (start len : Nat) : Except String (List α) :=
  if start + len ≤ rows.length then .ok ((rows.drop start).take len) else .error "narrow out of range"

namespace Voxtral

variable {S H A L : Type} [Zero S] [Zero H] [Add H] (v : Voxtral S H A L)

/-- Log-mel frames, by bin, to one embedding for each position. -/
def audioEmbeds (mel : List (List S)) : Except String (List A) := do
  let bins := mel.length
  let frames := (mel.head?.map List.length).getD 0
  let per := v.config.melPerPosition
  let flat := mel.flatten
  if bins ≠ v.config.numMelBins then
    .error (toString bins ++ " mel bins, expected " ++ toString v.config.numMelBins)
  else if frames % per ≠ 0 then
    .error (toString frames ++ " mel frames is not a whole number of " ++ toString per ++ "-frame positions")
  else if flat.length ≠ bins * frames then .error "shape mismatch in from_vec"
  else
    let cols := (List.range frames).map fun t => (List.range bins).map fun m => flat.getD (m * frames + t) 0
    let hidden ← v.audio.forward bins cols
    v.projector.forward hidden

/-- One forward over `tokens`, each with its position's audio. -/
def step (numDelayTokens : Nat) (session : Session A) (tokens : List Token) (audio : List A) :
    Except String (Session A × List L) := do
  let n := tokens.length
  if audio.length ≠ n then
    .error (toString n ++ " tokens against " ++ toString audio.length ++ " audio positions")
  else
    let _ ← ropeSlice session.positions n
    let steps := session.steps ++ [tokens.zip audio]
    return (⟨steps⟩, (List.range n).map fun i => v.logits numDelayTokens steps (session.positions + i))

/-- One token in, one token out. -/
def decodeOne (numDelayTokens : Nat) (audio : List A) (state : List Token × Session A) (p : Nat) :
    Except String (List Token × Session A) := do
  let token ← (state.1[p]?).elim (.error "range end index out of range") .ok
  let here ← narrow audio p 1
  let (session, logits) ← v.step numDelayTokens state.2 [token] here
  let row ← (logits[0]?).elim (.error "index out of range") .ok
  return (state.1 ++ [v.argmax row], session)

/-- The tokens of a clip, and the session behind them. -/
def transcribeIn (mel : List (List S)) (prompt : List Token) (numDelayTokens : Nat) :
    Except String (List Token × Session A) := do
  let audio ← v.audioEmbeds mel
  let positions := audio.length
  if positions < prompt.length then
    .error (toString positions ++ " audio positions is shorter than the " ++ toString prompt.length ++ "-token prompt")
  else
    let before ← narrow audio 0 prompt.length
    let (session, logits) ← v.step numDelayTokens {} prompt before
    let row ← (logits[prompt.length - 1]?).elim (.error "index out of range") .ok
    (List.range' prompt.length (positions - 1 - prompt.length)).foldlM (v.decodeOne numDelayTokens audio)
      (prompt ++ [v.argmax row], session)

def transcribe (mel : List (List S)) (prompt : List Token) (numDelayTokens : Nat) : Except String (List Token) :=
  (v.transcribeIn mel prompt numDelayTokens).map Prod.fst

end Voxtral

section Lengths

theorem ropeSlice_eq {offset len : Nat} (small : offset + len < 2 ^ 32) :
    ropeSlice offset len = .ok (List.range' offset len) := by
  unfold ropeSlice
  dsimp only
  rw [UInt32.toNat_ofNat_of_lt' (Nat.lt_of_le_of_lt (Nat.le_add_right _ _) small), UInt32.toNat_ofNat_of_lt' small,
    Nat.add_sub_cancel_left, if_pos List.length_range']

/-- There is no table of more positions than 32 bits can tell apart. -/
theorem ropeSlice_long {len : Nat} (long : 2 ^ 32 ≤ len) : ropeSlice 0 len = .error "shape mismatch in reshape" := by
  unfold ropeSlice
  dsimp only
  refine if_neg ?_
  rw [List.length_range']
  have small := UInt32.toNat_lt (UInt32.ofNat (0 + len))
  omega

variable {S H A : Type}

theorem tap_total {α β : Type} (f : α → α → α → β) {cols : List α} (long : 3 ≤ cols.length) :
    ∃ y, tap f cols = .ok y := by
  rcases cols with _ | ⟨a, _ | ⟨b, _ | ⟨c, cols⟩⟩⟩
  iterate 3 exact absurd long (by simp)
  exact ⟨f a b c, rfl⟩

theorem conv1d_total {α β : Type} (f : α → α → α → β) (stride : Nat) {cols : List α} (long : 3 ≤ cols.length) :
    ∃ out, conv1d f stride cols = .ok out ∧ out.length = (cols.length - 3) / stride + 1 := by
  rw [conv1d, if_neg (Nat.not_lt.mpr long)]
  have each : ∀ o ∈ List.range ((cols.length - 3) / stride + 1), ∃ y, tap f (cols.drop (o * stride)) = .ok y := by
    intro o mem
    -- the last of them is the last that has three columns
    have last : o * stride ≤ cols.length - 3 :=
      (Nat.mul_le_mul_right stride (Nat.lt_succ_iff.mp (List.mem_range.mp mem))).trans (Nat.div_mul_le_self _ _)
    exact tap_total f (by rw [List.length_drop]; omega)
  obtain ⟨out, made, length⟩ := MelSpectrogram.mapM_total each
  exact ⟨out, made, length.trans List.length_range⟩

/-- The stem halves an even number of frames. -/
theorem Embedder.forward_total [Zero S] [Zero H] (e : Embedder S H) (bins : Nat) {mel : List (List S)} {m : Nat}
    (some_ : 0 < m) (even : mel.length = 2 * m) : ∃ x, e.forward bins mel = .ok x ∧ x.length = m := by
  have first : (leftPad (List.replicate bins (0 : S)) 2 mel).length = 2 * m + 2 := by
    rw [leftPad, List.length_append, List.length_replicate, even, Nat.add_comm]
  obtain ⟨x, made, length⟩ := conv1d_total e.conv1 1 (show 3 ≤ _ by rw [first]; omega)
  have second : (leftPad (0 : H) 1 x).length = 2 * m + 1 := by
    rw [leftPad, List.length_append, List.length_replicate, length, first, Nat.div_one]
    omega
  obtain ⟨y, made', length'⟩ := conv1d_total e.conv2 2 (show 3 ≤ _ by rw [second]; omega)
  refine ⟨y, ?_, by rw [length', second]; omega⟩
  rw [Embedder.forward, made]
  exact made'

theorem AudioLayer.forward_length [Add H] (l : AudioLayer H) (rope : List Nat) (x : List H) :
    (l.forward rope x).length = x.length := by
  rw [AudioLayer.forward, List.length_map, List.length_mapIdx]

theorem layers_length [Add H] (layers : List (AudioLayer H)) (rope : List Nat) (x : List H) :
    (layers.foldl (fun x layer => layer.forward rope x) x).length = x.length := by
  induction layers generalizing x with
  | nil => rfl
  | cons l layers ih => rw [List.foldl_cons, ih, AudioLayer.forward_length]

theorem Projector.forward_total (p : Projector H A) (some_ : 0 < p.group) {x : List H} {n : Nat}
    (whole : x.length = n * p.group) : ∃ y, p.forward x = .ok y ∧ y.length = n := by
  rw [Projector.forward, whole, Nat.mul_mod_left, if_neg (not_not_intro rfl), Nat.mul_div_cancel _ some_]
  exact ⟨_, rfl, by rw [List.length_map, List.length_range]⟩

theorem VoxtralConfig.padAudio_eq [Zero S] (c : VoxtralConfig) (samples : List S) {hopLength : Nat}
    (some_ : 0 < c.samplesPerPosition hopLength) (numDelayTokens : Nat) :
    ∃ padded, c.padAudio samples hopLength numDelayTokens = .ok padded ∧
      padded.length = (c.padding.leftTokens + (samples.length + c.samplesPerPosition hopLength - 1) /
        c.samplesPerPosition hopLength + c.padding.rightTokens numDelayTokens) * c.samplesPerPosition hopLength := by
  refine ⟨_, if_neg some_.ne', ?_⟩
  generalize c.samplesPerPosition hopLength = per at *
  have fits : samples.length ≤ (samples.length + per - 1) / per * per := by
    have below := Nat.lt_mul_div_succ (samples.length + per - 1) some_
    rw [Nat.mul_succ, Nat.mul_comm] at below
    omega
  simp only [List.length_append, List.length_replicate, Nat.add_mul]
  omega

variable [Zero S] [Zero H] [Add H]

/-- The encoder takes an even number of frames whose half are positions of 32
bits. -/
theorem AudioEncoder.forward_total (e : AudioEncoder S H) (bins : Nat) {mel : List (List S)} {m : Nat} (some_ : 0 < m)
    (even : mel.length = 2 * m) :
    (m < 2 ^ 32 → ∃ x, e.forward bins mel = .ok x ∧ x.length = m) ∧
      (2 ^ 32 ≤ m → e.forward bins mel = .error "shape mismatch in reshape") := by
  obtain ⟨x, made, length⟩ := e.embedder.forward_total bins some_ even
  constructor
  · intro small
    refine ⟨(e.layers.foldl (fun x layer => layer.forward (List.range' 0 m) x) x).map e.norm, ?_, ?_⟩
    · rw [AudioEncoder.forward, made]
      change (ropeSlice 0 x.length >>= fun rope => _) = _
      rw [length, ropeSlice_eq (by rwa [Nat.zero_add])]
      rfl
    · rw [List.length_map, layers_length, length]
  · intro long
    rw [AudioEncoder.forward, made]
    change (ropeSlice 0 x.length >>= fun rope => _) = _
    rw [length, ropeSlice_long long]
    rfl

/-- Mel frames of `n` positions give `n` rows, as long as the positions of the
encoder's frames fit 32 bits. -/
theorem Voxtral.audioEmbeds_total {L : Type} (v : Voxtral S H A L)
    (twice : v.config.audioLengthPerTok = 2 * v.config.downsampleFactor) (factor : 0 < v.config.downsampleFactor)
    {mel : List (List S)} (bins : mel.length = v.config.numMelBins) (some_ : mel ≠ []) {n : Nat} (positive : 0 < n)
    (rows : ∀ row ∈ mel, row.length = n * v.config.audioLengthPerTok) :
    (n * v.config.downsampleFactor < 2 ^ 32 → ∃ audio, v.audioEmbeds mel = .ok audio ∧ audio.length = n) ∧
      (2 ^ 32 ≤ n * v.config.downsampleFactor → v.audioEmbeds mel = .error "shape mismatch in reshape") := by
  have frames : (mel.head?.map List.length).getD 0 = n * v.config.audioLengthPerTok := by
    obtain ⟨row, rest, rfl⟩ := List.exists_cons_of_ne_nil some_
    exact rows row List.mem_cons_self
  have flat : mel.flatten.length = mel.length * (n * v.config.audioLengthPerTok) := by
    rw [List.length_flatten, List.map_congr_left rows, List.map_const', List.sum_replicate_nat]
  have cols : ((List.range (n * v.config.audioLengthPerTok)).map fun t => (List.range mel.length).map fun m =>
      mel.flatten.getD (m * (n * v.config.audioLengthPerTok) + t) 0).length = 2 * (n * v.config.downsampleFactor) := by
    rw [List.length_map, List.length_range, twice, Nat.mul_left_comm]
  have encoded := v.audio.forward_total mel.length (Nat.mul_pos positive factor) cols
  have checked : v.audioEmbeds mel =
      (v.audio.forward mel.length ((List.range (n * v.config.audioLengthPerTok)).map fun t =>
        (List.range mel.length).map fun m => mel.flatten.getD (m * (n * v.config.audioLengthPerTok) + t) 0) >>=
        v.projector.forward) := by
    unfold Voxtral.audioEmbeds
    simp only [frames]
    rw [if_neg (not_not_intro bins),
      if_neg (by rw [VoxtralConfig.melPerPosition, Nat.mul_mod_left]; exact not_not_intro rfl),
      if_neg (not_not_intro flat)]
  constructor
  · intro small
    obtain ⟨x, made, length⟩ := encoded.1 small
    obtain ⟨audio, grouped, length'⟩ := v.projector.forward_total (v.loaded ▸ factor) (length.trans (by rw [v.loaded]))
    exact ⟨audio, by rw [checked, made]; exact grouped, length'⟩
  · intro long
    rw [checked, encoded.2 long]
    rfl

end Lengths

section Decoding

variable {S H A L : Type} (v : Voxtral S H A L) (numDelayTokens : Nat) {audio : List A} {prompt : List Token}

/-- The session is at position `p`: every position before it was fed with its
token, the prompt's at once and the others one by one, and each token past the
prompt is what the decoder gave for the position before. -/
structure Going (audio : List A) (prompt : List Token) (p : Nat) (state : List Token × Session A) : Prop where
  tokens : state.1.length = p + 1
  begins : prompt <+: state.1
  fed : state.2.steps.flatten = (state.1.zip audio).take p
  turns : state.2.steps.length + prompt.length = p + 1
  made : ∀ k, k < state.2.steps.length → state.1[prompt.length + k]? =
    some (v.argmax (v.logits numDelayTokens (state.2.steps.take (k + 1)) (prompt.length + k - 1)))

theorem step_eq (session : Session A) {tokens : List Token} {here : List A} (same : here.length = tokens.length)
    (small : session.positions + tokens.length < 2 ^ 32) :
    v.step numDelayTokens session tokens here = .ok (⟨session.steps ++ [tokens.zip here]⟩,
      (List.range tokens.length).map fun i =>
        v.logits numDelayTokens (session.steps ++ [tokens.zip here]) (session.positions + i)) := by
  unfold Voxtral.step
  dsimp only
  rw [if_neg (not_not_intro same), ropeSlice_eq small]
  rfl

theorem narrow_one {p : Nat} {here : A} (at_ : audio[p]? = some here) : narrow audio p 1 = .ok [here] := by
  obtain ⟨inside, rfl⟩ := List.getElem?_eq_some_iff.mp at_
  rw [narrow, if_pos (Nat.succ_le_of_lt inside), List.drop_eq_getElem_cons inside, List.take_succ_cons, List.take_zero]

/-- A token put behind changes nothing before it. -/
theorem zip_snoc {tokens : List Token} {p : Nat} (within : p ≤ tokens.length) (next : Token) :
    ((tokens ++ [next]).zip audio).take p = (tokens.zip audio).take p := by
  simp only [List.zip_eq_zipWith, List.take_zipWith, List.take_append_of_le_length within]

variable {v numDelayTokens}

/-- The next position. -/
theorem decodeOne_going {p : Nat} {state : List Token × Session A} (going : Going v numDelayTokens audio prompt p state)
    (inside : p < audio.length) (small : p + 1 < 2 ^ 32) :
    ∃ state', v.decodeOne numDelayTokens audio state p = .ok state' ∧
      Going v numDelayTokens audio prompt (p + 1) state' := by
  obtain ⟨tokens, session⟩ := state
  obtain ⟨length, known, fed, turns, made⟩ := going
  dsimp only at length known fed turns made
  have at_ : tokens[p]? = some tokens[p] := List.getElem?_eq_getElem _
  have here : audio[p]? = some audio[p] := List.getElem?_eq_getElem _
  generalize tokens[p] = token at at_
  generalize audio[p] = row at here
  have position : session.positions = p := by
    rw [Session.positions, fed, List.length_take, List.length_zip]
    omega
  have stepped := step_eq v numDelayTokens session (show [row].length = [token].length from rfl)
    (by rw [position]; exact small)
  let steps := session.steps ++ [[(token, row)]]
  let next := v.argmax (v.logits numDelayTokens steps p)
  refine ⟨(tokens ++ [next], ⟨steps⟩), ?_, ?_⟩
  · unfold Voxtral.decodeOne
    rw [at_, narrow_one here]
    change (v.step numDelayTokens session [token] [row] >>= fun _ => _) = _
    rw [stepped, position]
    rfl
  · refine ⟨by simp [length], known.trans (List.prefix_append _ _), ?_, ?_, fun k before => ?_⟩
    · have pair : ((tokens ++ [next]).zip audio)[p]? = some (token, row) :=
        List.getElem?_zip_eq_some.mpr ⟨by rw [List.getElem?_append_left (by omega), at_], here⟩
      show (session.steps ++ [[(token, row)]]).flatten = _
      rw [List.take_add_one, zip_snoc (by omega), pair, List.flatten_append, fed]
      rfl
    · show (session.steps ++ [[(token, row)]]).length + prompt.length = _
      rw [List.length_append, List.length_singleton]
      omega
    · have count : steps.length = session.steps.length + 1 := List.length_append
      rcases Nat.lt_or_ge k session.steps.length with earlier | last
      · show (tokens ++ [next])[prompt.length + k]? = some (v.argmax (v.logits numDelayTokens (steps.take (k + 1)) _))
        rw [List.getElem?_append_left (by omega), made k earlier, List.take_append_of_le_length earlier]
      · have before : k < steps.length := before
        obtain rfl : k = session.steps.length := by omega
        show (tokens ++ [next])[prompt.length + session.steps.length]? =
          some (v.argmax (v.logits numDelayTokens (steps.take (session.steps.length + 1)) _))
        rw [List.getElem?_append_right (by omega), List.take_of_length_le (by omega),
          show prompt.length + session.steps.length - tokens.length = 0 by omega,
          show prompt.length + session.steps.length - 1 = p by omega]
        rfl

/-- All positions from one on. -/
theorem decode_going {p n : Nat} {state : List Token × Session A} (going : Going v numDelayTokens audio prompt p state)
    (inside : p + n ≤ audio.length) (small : p + n < 2 ^ 32) :
    ∃ state', (List.range' p n).foldlM (v.decodeOne numDelayTokens audio) state = .ok state' ∧
      Going v numDelayTokens audio prompt (p + n) state' := by
  induction n generalizing p state with
  | zero => exact ⟨state, rfl, going⟩
  | succ n ih =>
    obtain ⟨next, stepped, going'⟩ := decodeOne_going going (by omega) (by omega)
    obtain ⟨last, ran, there⟩ := ih going' (by omega) (by omega)
    refine ⟨last, ?_, by rwa [Nat.add_right_comm, Nat.add_assoc] at there⟩
    rw [List.range'_succ, List.foldlM_cons, stepped]
    exact ran

/-- From the prompt on. -/
theorem transcribeIn_going {S H A L : Type} [Zero S] [Zero H] [Add H] {v : Voxtral S H A L} (numDelayTokens : Nat)
    {mel : List (List S)} {audio : List A} {prompt : List Token} (embedded : v.audioEmbeds mel = .ok audio)
    (some_ : prompt ≠ []) (shorter : prompt.length < audio.length) (small : audio.length < 2 ^ 32) :
    ∃ state, v.transcribeIn mel prompt numDelayTokens = .ok state ∧
      Going v numDelayTokens audio prompt (audio.length - 1) state := by
  have positive := List.length_pos_iff.mpr some_
  have before : narrow audio 0 prompt.length = .ok (audio.take prompt.length) := by
    rw [narrow, if_pos (by omega), List.drop_zero]
  have same : (audio.take prompt.length).length = prompt.length := by
    rw [List.length_take]
    omega
  let steps := [prompt.zip (audio.take prompt.length)]
  have stepped : v.step numDelayTokens {} prompt (audio.take prompt.length) = .ok (⟨steps⟩,
      (List.range prompt.length).map fun i => v.logits numDelayTokens steps (0 + i)) :=
    step_eq v numDelayTokens {} same (show 0 + prompt.length < 2 ^ 32 by omega)
  let first := v.argmax (v.logits numDelayTokens steps (0 + (prompt.length - 1)))
  have start : Going v numDelayTokens audio prompt prompt.length (prompt ++ [first], ⟨steps⟩) := by
    refine ⟨by simp, List.prefix_append _ _, ?_, Nat.add_comm _ _, fun k before => ?_⟩
    · show [prompt.zip (audio.take prompt.length)].flatten = _
      rw [List.flatten_singleton, zip_snoc (Nat.le_refl _), List.zip_eq_zipWith, List.zip_eq_zipWith, List.take_zipWith,
        List.take_length]
    · obtain rfl : k = 0 := Nat.lt_one_iff.mp before
      show (prompt ++ [first])[prompt.length + 0]? = _
      rw [Nat.add_zero, List.getElem?_concat_length]
      show some (v.argmax (v.logits numDelayTokens steps (0 + (prompt.length - 1)))) = _
      rw [Nat.zero_add]
      rfl
  obtain ⟨last, ran, there⟩ := decode_going (n := audio.length - 1 - prompt.length) start (by omega) (by omega)
  rw [show prompt.length + (audio.length - 1 - prompt.length) = audio.length - 1 by omega] at there
  refine ⟨last, ?_, there⟩
  have found : ((List.range prompt.length).map fun i => v.logits numDelayTokens steps (0 + i))[prompt.length - 1]? =
      some (v.logits numDelayTokens steps (0 + (prompt.length - 1))) := by
    rw [List.getElem?_map, List.getElem?_range (by omega)]
    rfl
  unfold Voxtral.transcribeIn
  rw [embedded, ok_bind]
  dsimp only
  rw [if_neg (Nat.not_lt.mpr (Nat.le_of_lt shorter)), before, ok_bind, stepped, ok_bind]
  dsimp only
  rw [found]
  exact ran

end Decoding

section Pipeline

variable {S H A L : Type} [Zero S] [Zero H] [Add H] {v : Voxtral S H A L} {mel : MelSpectrogram S}

/-- The positions of a clip of `samples` samples. -/
def positionsOf (c : VoxtralConfig) (hopLength samples numDelayTokens : Nat) : Nat :=
  let per := c.samplesPerPosition hopLength
  c.padding.leftTokens + (samples + per - 1) / per + c.padding.rightTokens numDelayTokens

/-- Padding, frames, encoder and projector of any clip. -/
theorem embeds_total (hop : 0 < mel.settings.hopLength) (factor : 0 < v.config.downsampleFactor)
    (twice : v.config.audioLengthPerTok = 2 * v.config.downsampleFactor)
    (bins : mel.settings.nMels = v.config.numMelBins) (some_ : 0 < v.config.numMelBins) (samples : List S)
    (numDelayTokens : Nat) :
    let n := positionsOf v.config mel.settings.hopLength samples.length numDelayTokens
    ∃ padded frames, v.config.padAudio samples mel.settings.hopLength numDelayTokens = .ok padded ∧
      padded.length = n * v.config.samplesPerPosition mel.settings.hopLength ∧ mel.compute padded = .ok frames ∧
      (n * v.config.downsampleFactor < 2 ^ 32 → ∃ audio, v.audioEmbeds frames = .ok audio ∧ audio.length = n) ∧
      (2 ^ 32 ≤ n * v.config.downsampleFactor → v.audioEmbeds frames = .error "shape mismatch in reshape") := by
  intro n
  have long : 0 < v.config.audioLengthPerTok := by omega
  have positive : 0 < n :=
    Nat.lt_of_lt_of_le (Nat.succ_pos _) (Nat.le_trans (Nat.le_add_right _ _) (Nat.le_add_left _ _))
  obtain ⟨padded, made, length⟩ :=
    v.config.padAudio_eq samples (Nat.mul_pos long hop : 0 < v.config.samplesPerPosition _) numDelayTokens
  obtain ⟨frames, computed, rows, columns⟩ := MelSpectrogram.compute_eq hop padded
  have each : ∀ row ∈ frames, row.length = n * v.config.audioLengthPerTok := by
    intro row mem
    rw [columns row mem, length, VoxtralConfig.samplesPerPosition, ← Nat.mul_assoc, Nat.mul_div_cancel _ hop]
    rfl
  have filters : frames ≠ [] := List.ne_nil_of_length_pos (by rw [rows, bins]; exact some_)
  obtain ⟨fits, exceeds⟩ := v.audioEmbeds_total twice factor (rows.trans bins) filters positive each
  exact ⟨padded, frames, made, length, computed, fits, exceeds⟩

/-- Every clip whose encoder frames have positions of 32 bits is transcribed:
its positions but the last are fed once each and in order, with tokens that are
already there, and each has its token. -/
theorem transcribes_all (hop : 0 < mel.settings.hopLength) (factor : 0 < v.config.downsampleFactor)
    (twice : v.config.audioLengthPerTok = 2 * v.config.downsampleFactor) (buffer : 1 ≤ v.config.padding.bufferTokens)
    (bins : mel.settings.nMels = v.config.numMelBins) (some_ : 0 < v.config.numMelBins) (samples : List S)
    (bos streamingPad : Token) (numDelayTokens : Nat)
    (fits : positionsOf v.config mel.settings.hopLength samples.length numDelayTokens * v.config.downsampleFactor <
      2 ^ 32) :
    let n := positionsOf v.config mel.settings.hopLength samples.length numDelayTokens
    let prompt := v.config.prompt bos streamingPad numDelayTokens
    ∃ padded frames audio tokens session,
      v.config.padAudio samples mel.settings.hopLength numDelayTokens = .ok padded ∧
      padded.length = n * v.config.samplesPerPosition mel.settings.hopLength ∧ mel.compute padded = .ok frames ∧
      v.audioEmbeds frames = .ok audio ∧ audio.length = n ∧ prompt.length < n ∧
      v.transcribeIn frames prompt numDelayTokens = .ok (tokens, session) ∧
      v.transcribe frames prompt numDelayTokens = .ok tokens ∧ tokens.length = n ∧ prompt <+: tokens ∧
      session.steps.flatten = (tokens.zip audio).take (n - 1) ∧ session.steps.length = n - prompt.length ∧
      ∀ k, k < session.steps.length → tokens[prompt.length + k]? =
        some (v.argmax (v.logits numDelayTokens (session.steps.take (k + 1)) (prompt.length + k - 1))) := by
  intro n prompt
  obtain ⟨padded, frames, made, length, computed, whole, -⟩ :=
    embeds_total hop factor twice bins some_ samples numDelayTokens
  obtain ⟨audio, embedded, rows⟩ := whole fits
  have shorter : prompt.length < n := by
    show (bos :: List.replicate _ _).length < positionsOf _ _ _ _
    rw [List.length_cons, List.length_replicate, positionsOf, PaddingConfig.rightTokens]
    generalize (samples.length + v.config.samplesPerPosition mel.settings.hopLength - 1) /
      v.config.samplesPerPosition mel.settings.hopLength = whole
    omega
  have some' : prompt ≠ [] := List.cons_ne_nil _ _
  have rows : audio.length = n := rows
  have small : n < 2 ^ 32 := Nat.lt_of_le_of_lt (Nat.le_mul_of_pos_right n factor) fits
  obtain ⟨⟨tokens, session⟩, ran, going⟩ :=
    transcribeIn_going numDelayTokens embedded some' (by rwa [rows]) (by rwa [rows])
  rw [rows] at going
  have count : tokens.length = n := by
    have := going.tokens
    dsimp only at this
    omega
  refine ⟨padded, frames, audio, tokens, session, made, length, computed, embedded, rows, shorter, ran, ?_, count,
    going.begins, going.fed, ?_, going.made⟩
  · rw [Voxtral.transcribe, ran]
    rfl
  · have := going.turns
    dsimp only at this
    omega

/-- A model that counts what it was fed, with `left` positions of silence
before a clip. -/
def counting (left : Nat) : Voxtral Nat Nat Nat Nat where
  audio := ⟨⟨fun a b c => a.sum + b.sum + c.sum, fun a b c => a + b + c⟩, [], id⟩
  projector := ⟨1, List.sum⟩
  logits := fun _ steps p => (steps.flatten.map Prod.snd).sum + p
  argmax := UInt32.ofNat
  config := ⟨1, 2, 1, ⟨left, 1⟩⟩
  loaded := rfl

def everySample : MelSpectrogram Nat := ⟨⟨1, 1, 1⟩, fun frame _ => frame.sum⟩

theorem transcribes_all_three :
    let n := positionsOf (counting 1).config 1 3 1
    let prompt := (counting 1).config.prompt 1 32 1
    ∃ padded frames audio tokens session,
      (counting 1).config.padAudio [5, 6, 7] 1 1 = .ok padded ∧
      padded.length = n * (counting 1).config.samplesPerPosition 1 ∧ everySample.compute padded = .ok frames ∧
      (counting 1).audioEmbeds frames = .ok audio ∧ audio.length = n ∧ prompt.length < n ∧
      (counting 1).transcribeIn frames prompt 1 = .ok (tokens, session) ∧
      (counting 1).transcribe frames prompt 1 = .ok tokens ∧ tokens.length = n ∧ prompt <+: tokens ∧
      session.steps.flatten = (tokens.zip audio).take (n - 1) ∧ session.steps.length = n - prompt.length ∧
      ∀ k, k < session.steps.length → tokens[prompt.length + k]? =
        some ((counting 1).argmax ((counting 1).logits 1 (session.steps.take (k + 1)) (prompt.length + k - 1))) :=
  @transcribes_all Nat Nat Nat Nat _ _ _ (counting 1) everySample (by decide) (by decide) rfl (by decide) rfl
    (by decide) [5, 6, 7] 1 32 1 (by decide)

/-- A clip with more encoder frames than 32 bits can number is refused. -/
theorem frames_unnumbered : 0 < everySample.settings.hopLength ∧ 0 < (counting (2 ^ 32)).config.downsampleFactor ∧
    (counting (2 ^ 32)).config.audioLengthPerTok = 2 * (counting (2 ^ 32)).config.downsampleFactor ∧
    1 ≤ (counting (2 ^ 32)).config.padding.bufferTokens ∧
    ∃ padded frames, (counting (2 ^ 32)).config.padAudio [] 1 0 = .ok padded ∧ everySample.compute padded = .ok frames ∧
      (counting (2 ^ 32)).audioEmbeds frames = .error "shape mismatch in reshape" ∧
      ∀ prompt, (counting (2 ^ 32)).transcribe frames prompt 0 = .error "shape mismatch in reshape" := by
  refine ⟨by decide, by decide, rfl, by decide, ?_⟩
  obtain ⟨padded, frames, made, -, computed, -, exceeds⟩ :=
    @embeds_total Nat Nat Nat Nat _ _ _ (counting (2 ^ 32)) everySample (by decide) (by decide) rfl rfl (by decide) [] 0
  have refused := exceeds (by decide)
  refine ⟨padded, frames, made, computed, refused, fun prompt => ?_⟩
  rw [Voxtral.transcribe, Voxtral.transcribeIn, refused]
  rfl

end Pipeline

end Vapi.Backend.Speech
