import Vapi.Gateway.Pieces

/-!
# Streamed and whole answers

When the chunks of a streamed answer, put together, are the message of the
whole one.
-/

namespace Vapi.Gateway

open OpenAi Proto

/-- Where a text stands in a model's frame: in its reasoning, or in a tool-call block, or in neither. -/
structure Scan where
  inThink : Bool
  block : Option Text := none

/-- One marker, or all that is left: the block it closes, and what is left then. -/
def Scan.turn (fmt : OutputFormat) (s : Scan) (rest : Text) : Scan × List Text × Text :=
  if s.inThink then
    match cut (fmt.thinkClose.getD []) rest with
    | some (_, after) => ({ s with inThink := false }, [], after)
    | none => (s, [], [])
  else match s.block with
    | some block =>
      match cut fmt.toolEnd rest with
      | some (before, after) => ({ s with block := none }, [block ++ before], after)
      | none => ({ s with block := some (block ++ rest) }, [], [])
    | none =>
      match cut fmt.toolStart rest, fmt.thinkOpen.bind (cut · rest) with
      | some (before, after), some (before', after') =>
        if before.length < before'.length then ({ s with block := some [] }, [], after)
        else ({ s with inThink := true }, [], after')
      | some (_, after), none => ({ s with block := some [] }, [], after)
      | none, some (_, after) => ({ s with inThink := true }, [], after)
      | none, none => (s, [], [])

/-- The tool-call blocks a text closes, whatever is in them. -/
def Scan.blocks (fmt : OutputFormat) : Nat → Scan → Text → Scan × List Text
  | 0, s, _ => (s, [])
  | fuel + 1, s, rest =>
    if rest = [] then (s, [])
    else
      let (t, here, rest) := s.turn fmt rest
      let (u, later) := blocks fmt fuel t rest
      (u, here ++ later)

def Scan.blocksOf (fmt : OutputFormat) (s : Scan) : List Text → List Text
  | [] => []
  | text :: texts =>
    let (t, here) := s.blocks fmt text.length text
    here ++ t.blocksOf fmt texts

/-- A block's text spells calls. -/
def spells (reader : CallReader) (fmt : OutputFormat) (block : Text) : Bool :=
  (reader.read fmt.callSyntax block).any (· ≠ [])

/-- The blocks whose text spells calls. -/
def spelled (reader : CallReader) (fmt : OutputFormat) (texts : List Text) : List Text :=
  (({ inThink := fmt.thinkClose.isSome && fmt.thinkOpen.isNone } : Scan).blocksOf fmt texts).filter (spells reader fmt)

variable (reader : CallReader)

namespace OutputParser

def scan (p : OutputParser) : Scan := ⟨p.inThink, p.toolBuf⟩

theorem makeCalls_spec (p : OutputParser) (calls : List (Text × Text)) :
    (p.makeCalls reader calls).2.length = calls.length ∧
      (p.makeCalls reader calls).1 = { p with callsMade := p.callsMade + calls.length } := by
  induction calls generalizing p with
  | nil => exact ⟨rfl, rfl⟩
  | cons call calls ih =>
    obtain ⟨length, is⟩ := ih { p with callsMade := p.callsMade + 1 }
    refine ⟨by simp [makeCalls, length], ?_⟩
    simp only [makeCalls, is, List.length_cons]
    congr 1
    omega

/-- A block gives calls when its text spells some, and else is text. -/
theorem finishToolText_spec (p : OutputParser) (text : Text) :
    ((p.finishToolText reader text).1.scan = p.scan ∧ (p.finishToolText reader text).1.fmt = p.fmt) ∧
    (if spells reader p.fmt text then
      ∃ calls, calls ≠ [] ∧ (p.finishToolText reader text).2 = .toolCalls calls ∧
        (p.finishToolText reader text).1.callsMade = p.callsMade + calls.length
    else (∃ c, (p.finishToolText reader text).2 = .content c) ∧
      (p.finishToolText reader text).1.callsMade = p.callsMade) := by
  unfold finishToolText
  split
  · rename_i first rest spells
    obtain ⟨length, is⟩ := p.makeCalls_spec reader (first :: rest)
    have yes : Vapi.Gateway.spells reader p.fmt text = true := by simp [Vapi.Gateway.spells, spells]
    rw [is]
    refine ⟨⟨rfl, rfl⟩, ?_⟩
    rw [if_pos yes]
    exact ⟨_, List.ne_nil_of_length_pos (by rw [length]; simp), rfl, by rw [length]⟩
  · rename_i silent
    refine ⟨⟨rfl, rfl⟩, ?_⟩
    have none : Vapi.Gateway.spells reader p.fmt text = false := by
      unfold Vapi.Gateway.spells
      cases spells : reader.read p.fmt.callSyntax text with
      | none => rfl
      | some calls =>
        cases calls with
        | nil => rfl
        | cons first rest => exact absurd spells (silent first rest)
    rw [if_neg (by simp [none])]
    exact ⟨⟨_, rfl⟩, rfl⟩

theorem callLists_text (text : Text) (piece : Text → Piece) (quiet : ∀ t, callLists [piece t] = []) :
    callLists (if text = [] then [] else [piece text]) = [] := by
  split
  · rfl
  · exact quiet text

theorem content_spec (p : OutputParser) (text : Text) :
    ((p.content text).1.scan = p.scan ∧ (p.content text).1.fmt = p.fmt) ∧
      (p.content text).1.callsMade = p.callsMade ∧ callLists (p.content text).2 = [] := by
  unfold content
  split
  · exact ⟨⟨rfl, rfl⟩, rfl, callLists_text _ .content fun _ => rfl⟩
  · exact ⟨⟨rfl, rfl⟩, rfl, callLists_text _ .content fun _ => rfl⟩

/-- What the pieces of a text say of its blocks. -/
structure Follows (p q : OutputParser) (pieces : List Piece) (blocks : List Text) (s : Scan) : Prop where
  scan : q.scan = s
  fmt : q.fmt = p.fmt
  lists : (callLists pieces).length = (blocks.filter (spells reader p.fmt)).length
  some_ : ∀ cs ∈ callLists pieces, cs ≠ []
  made : q.callsMade = p.callsMade + (callLists pieces).flatten.length

theorem Follows.refl (p : OutputParser) : Follows reader p p [] [] p.scan :=
  ⟨rfl, rfl, rfl, by simp [callLists], by simp [callLists]⟩

theorem Follows.append {p q r : OutputParser} {xs ys : List Piece} {bs cs : List Text} {s t : Scan}
    (first : Follows reader p q xs bs s) (second : Follows reader q r ys cs t) :
    Follows reader p r (xs ++ ys) (bs ++ cs) t := by
  refine ⟨second.scan, second.fmt.trans first.fmt, ?_, fun l hl => ?_, ?_⟩
  · rw [callLists_append, List.length_append, first.lists, second.lists, first.fmt, List.filter_append, List.length_append]
  · rw [callLists_append, List.mem_append] at hl
    exact hl.elim (first.some_ l) (second.some_ l)
  · rw [second.made, first.made, callLists_append, List.flatten_append, List.length_append, Nat.add_assoc]

/-- Pieces without calls, and no block. -/
theorem Follows.quiet {p q : OutputParser} {pieces : List Piece} {s : Scan} (scan : q.scan = s) (fmt : q.fmt = p.fmt)
    (made : q.callsMade = p.callsMade) (none : callLists pieces = []) : Follows reader p q pieces [] s :=
  ⟨scan, fmt, by rw [none]; rfl, by simp [none], by simp [none, made]⟩

/-- A block that is closed. -/
theorem finishToolText_follows (p : OutputParser) (text : Text) :
    Follows reader p (p.finishToolText reader text).1 [(p.finishToolText reader text).2] [text] p.scan := by
  obtain ⟨⟨scan, fmt⟩, calls⟩ := p.finishToolText_spec reader text
  split at calls
  · rename_i spells
    obtain ⟨calls, some_, is, made⟩ := calls
    rw [is]
    exact ⟨scan, fmt, by rw [List.filter_cons_of_pos spells]; rfl, by simpa [callLists] using some_,
      by simp [callLists, made]⟩
  · rename_i silent
    obtain ⟨⟨c, is⟩, made⟩ := calls
    rw [is]
    exact ⟨scan, fmt, by rw [List.filter_cons_of_neg silent]; rfl, by simp [callLists], by simp [callLists, made]⟩

theorem turn_follows (p : OutputParser) (rest : Text) :
    Follows reader p (p.turn reader rest).1 (p.turn reader rest).2.1 (p.scan.turn p.fmt rest).2.1
        (p.scan.turn p.fmt rest).1 ∧
      (p.turn reader rest).2.2 = (p.scan.turn p.fmt rest).2.2 := by
  unfold turn Scan.turn
  by_cases think : p.inThink = true
  · simp only [scan, think, ↓reduceIte]
    cases cut (p.fmt.thinkClose.getD []) rest with
    | none => exact ⟨.quiet reader (by rw [scan, think]) rfl rfl rfl, rfl⟩
    | some found =>
      obtain ⟨before, after⟩ := found
      exact ⟨.quiet reader rfl rfl rfl (callLists_text _ .reasoning fun _ => rfl), rfl⟩
  · have think := Bool.eq_false_iff.mpr think
    simp only [scan, think, Bool.false_eq_true, ↓reduceIte]
    cases open_ : p.toolBuf with
    | some buf =>
      cases cut p.fmt.toolEnd rest with
      | none => exact ⟨.quiet reader (by rw [scan]) rfl rfl rfl, rfl⟩
      | some found =>
        obtain ⟨before, after⟩ := found
        have closed := finishToolText_follows reader { p with inThink := false, toolBuf := none } (buf ++ before)
        refine ⟨⟨?_, closed.fmt, closed.lists, closed.some_, closed.made⟩, rfl⟩
        exact closed.scan
    | none =>
      have said : ∀ text, (p.content text).1.inThink = false ∧ (p.content text).1.toolBuf = none := fun text => by
        obtain ⟨⟨scan, -⟩, -⟩ := p.content_spec text
        injection scan with think' block
        exact ⟨think'.trans think, block.trans open_⟩
      have spec := p.content_spec
      cases cut p.fmt.toolStart rest with
      | none =>
        cases p.fmt.thinkOpen.bind (cut · rest) with
        | none =>
          refine ⟨.quiet reader ?_ (spec rest).1.2 (spec rest).2.1 (spec rest).2.2, rfl⟩
          rw [scan, (said rest).1, (said rest).2]
        | some found =>
          obtain ⟨before, after⟩ := found
          refine ⟨.quiet reader ?_ (spec before).1.2 (spec before).2.1 (spec before).2.2, rfl⟩
          rw [scan, (said before).2]
      | some found =>
        obtain ⟨before, after⟩ := found
        have opens : Follows reader p { (p.content before).1 with toolBuf := some [] } (p.content before).2 []
            ⟨false, some []⟩ :=
          .quiet reader (by rw [scan, (said before).1]) (spec before).1.2 (spec before).2.1 (spec before).2.2
        cases p.fmt.thinkOpen.bind (cut · rest) with
        | none => exact ⟨opens, rfl⟩
        | some found =>
          obtain ⟨before', after'⟩ := found
          simp only
          split
          · exact ⟨opens, rfl⟩
          · refine ⟨.quiet reader ?_ (spec before').1.2 (spec before').2.1 (spec before').2.2, rfl⟩
            rw [scan, (said before').2]

theorem pushFrom_follows (fuel : Nat) (p : OutputParser) (rest : Text) :
    Follows reader p (pushFrom reader fuel p rest).1 (pushFrom reader fuel p rest).2
      (p.scan.blocks p.fmt fuel rest).2 (p.scan.blocks p.fmt fuel rest).1 := by
  induction fuel generalizing p rest with
  | zero => exact .refl reader p
  | succ fuel ih =>
    rw [pushFrom, Scan.blocks]
    by_cases empty : rest = []
    · rw [if_pos empty, if_pos empty]
      exact .refl reader p
    · rw [if_neg empty, if_neg empty]
      obtain ⟨here, left⟩ := p.turn_follows reader rest
      have later := ih (p.turn reader rest).1 (p.turn reader rest).2.2
      rw [here.scan, here.fmt] at later
      have both := here.append reader later
      simp only [left] at both ⊢
      exact both

theorem pieces_follows (p : OutputParser) (texts : List Text) :
    ∃ s, Follows reader p (p.pieces reader texts).1 (p.pieces reader texts).2 (p.scan.blocksOf p.fmt texts) s := by
  induction texts generalizing p with
  | nil => exact ⟨_, .refl reader p⟩
  | cons text texts ih =>
    have here := pushFrom_follows reader text.length p text
    obtain ⟨s, later⟩ := ih (p.push reader text).1
    rw [push, here.scan, here.fmt] at later
    exact ⟨s, here.append reader later⟩

/-- The end of a stream gives no calls. -/
theorem finish_calls (p : OutputParser) : callLists p.finish.2 = [] ∧ p.finish.1.callsMade = p.callsMade := by
  unfold finish
  split
  · exact ⟨callLists_text _ (fun text => .content (p.fmt.toolStart ++ text)) fun _ => rfl, rfl⟩
  · exact ⟨rfl, rfl⟩

end OutputParser

section Deliver

variable (decode : List Token → Text) {prepared : Prepared}

/-- A token of the only choice. -/
def tokenOf (t : Text × Option ℚ × Option (List TokenLogprob)) : StreamEvent := .token 0 t.1 t.2.1 t.2.2

/-- What one choice's worker sends: its tokens and its end. -/
def delivery (tokens : List (Text × Option ℚ × Option (List TokenLogprob))) (reason : FinishReason) (p c : Nat) :
    List StreamEvent :=
  tokens.map tokenOf ++ [.done 0 reason p c]

/-- What the parser of a choice makes of its deltas and of their end. -/
def allPieces (parser : Option OutputParser) (texts : List Text) : List Piece :=
  match parser with
  | some p => (p.pieces reader texts).2 ++ (p.pieces reader texts).1.finish.2
  | none => texts.map .content

def finishOf (parser : Option OutputParser) (texts : List Text) (reason : FinishReason) : FinishReason :=
  match parser with
  | some p => if (p.pieces reader texts).1.finish.1.sawToolCalls then .toolCalls else reason
  | none => reason

theorem parser_pushAll (p : OutputParser) (out : ParsedOutput) (texts : List Text) :
    ({ parser := some p, out } : Parsed).pushAll reader texts =
      { parser := some (p.pieces reader texts).1, out := out.takeAll (p.pieces reader texts).2 } := by
  induction texts generalizing p out with
  | nil => rfl
  | cons text texts ih =>
    have rest := ih (p.push reader text).1 (out.takeAll (p.push reader text).2)
    rw [Parsed.pushAll] at rest ⊢
    rw [List.foldl_cons]
    refine rest.trans ?_
    simp only [OutputParser.pieces, ParsedOutput.takeAll, List.foldl_append]

theorem pushAll_plain (out : ParsedOutput) (texts : List Text) :
    ({ parser := none, out } : Parsed).pushAll reader texts =
      { parser := none, out := out.takeAll (texts.map .content) } := by
  induction texts generalizing out with
  | nil => rfl
  | cons text texts ih => exact ih _

/-- The accumulated answer is that of the pieces. -/
theorem collected_pieces (parser : Option OutputParser) (texts : List Text) (reason : FinishReason) :
    (({ parser } : Parsed).pushAll reader texts).finish reason =
      (({} : ParsedOutput).takeAll (allPieces reader parser texts), finishOf reader parser texts reason) := by
  cases parser with
  | none =>
    rw [pushAll_plain]
    rfl
  | some p =>
    rw [parser_pushAll]
    simp only [Parsed.finish, allPieces, finishOf, ParsedOutput.takeAll, List.foldl_append]

/-- The chunks of a stream are those of the pieces. -/
theorem streamed_pieces (parser : Option OutputParser) (texts : List Text) (reason : FinishReason) :
    (({ parser } : Parsed).streamAll reader texts).2 ++
        ((({ parser } : Parsed).streamAll reader texts).1.finishStream reason).2.2 =
      (allPieces reader parser texts).map chunkOf ∧
    ((({ parser } : Parsed).streamAll reader texts).1.finishStream reason).2.1 = finishOf reader parser texts reason := by
  cases parser with
  | none =>
    have plain : ∀ texts : List Text, ({ parser := none } : Parsed).streamAll reader texts =
        ({ parser := none }, texts.map .content) := by
      intro texts
      induction texts with
      | nil => rfl
      | cons text texts ih =>
        simp only [Parsed.streamAll, Parsed.stream, ih]
        rfl
    rw [plain]
    exact ⟨by simp [Parsed.finishStream, allPieces, chunkOf, Function.comp_def], rfl⟩
  | some p =>
    have parsed : ∀ (texts : List Text) (p : OutputParser), ({ parser := some p } : Parsed).streamAll reader texts =
        ({ parser := some (p.pieces reader texts).1 }, (p.pieces reader texts).2.map chunkOf) := by
      intro texts
      induction texts with
      | nil => exact fun p => rfl
      | cons text texts ih =>
        intro p
        simp only [Parsed.streamAll, Parsed.stream, ih, OutputParser.pieces, List.map_append]
    rw [parsed]
    exact ⟨List.map_append.symm, rfl⟩

/-- Draining one choice's tokens is accumulating their texts. -/
theorem drain_one (one : prepared.choices = 1) (tokens : List (Text × Option ℚ × Option (List TokenLogprob)))
    (reason : FinishReason) (p n : Nat) (c : Collecting) {acc : Parsed} (accs : c.accs = [acc])
    (finishes : c.finishes = [none]) (done : c.done = 0) :
    ∃ c', c.drain reader decode prepared (delivery tokens reason p n) = .ok c' ∧
      c'.accs = [acc.pushAll reader (tokens.map Prod.fst)] ∧ c'.finishes = [some reason] := by
  induction tokens generalizing c acc with
  | nil =>
    have last : c.event reader decode prepared (.done 0 reason p n) =
        .ok ({ c with
          finishes := [some reason], done := 1, usage := Usage.new p (c.usage.completionTokens + n),
          remembered := (prepared.remember c.deltas reason (Usage.new p (c.usage.completionTokens + n))).or c.remembered,
          deltas := [] }, false) := by
      simp [Collecting.event, finishes, done, one]
    rw [delivery, List.map_nil, List.nil_append, Collecting.drain, last]
    exact ⟨_, rfl, accs, rfl⟩
  | cons t tokens ih =>
    obtain ⟨c₁, here, accs₁, finishes₁, done₁⟩ : ∃ c₁, c.event reader decode prepared (tokenOf t) = .ok (c₁, true) ∧
        c₁.accs = [acc.push reader t.1] ∧ c₁.finishes = [none] ∧ c₁.done = 0 :=
      ⟨_, rfl, by simp [accs], finishes, done⟩
    obtain ⟨c', drained, accs', finishes'⟩ := ih c₁ accs₁ finishes₁ done₁
    refine ⟨c', ?_, accs', finishes'⟩
    change c.drain reader decode prepared (tokenOf t :: delivery tokens reason p n) = .ok c'
    rw [Collecting.drain, here]
    exact drained

theorem foldl_modifyHead (f : ChunkChoice → ChunkChoice) (same : ∀ a c, Assembly.takeChoice a (f c) = a.takeChoice c)
    (a : Assembly) (choices : List ChunkChoice) :
    (choices.modifyHead f).foldl Assembly.takeChoice a = choices.foldl Assembly.takeChoice a := by
  cases choices with
  | nil => rfl
  | cons c choices => rw [List.modifyHead_cons, List.foldl_cons, same, List.foldl_cons]

theorem take_setChoiceIndex (a : Assembly) (i : Nat) (chunk : StreamChunk) :
    a.take (.data (chunk.setChoiceIndex i)) = a.take (.data chunk) :=
  foldl_modifyHead (fun choice => { choice with index := i }) (fun _ _ => rfl) a chunk.choices

theorem take_withLogprobs (a : Assembly) (entry : LogprobEntry) (chunk : StreamChunk) :
    a.take (.data (chunk.withLogprobs entry)) = a.take (.data chunk) :=
  foldl_modifyHead (fun choice => { choice with logprobs := some [entry] }) (fun _ _ => rfl) a chunk.choices

/-- Which choice a chunk is for does not matter to a client of one choice. -/
theorem take_indexed (a : Assembly) (i : Nat) (chunks : List StreamChunk) :
    (chunks.map fun c => Frame.data (c.setChoiceIndex i)).foldl Assembly.take a =
      (chunks.map Frame.data).foldl Assembly.take a := by
  induction chunks generalizing a with
  | nil => rfl
  | cons chunk chunks ih =>
    rw [List.map_cons, List.foldl_cons, take_setChoiceIndex, ih]
    rfl

/-- Nor do the log-probabilities a chunk carries. -/
theorem take_labelled (a : Assembly) (t : Text × Option ℚ × Option (List TokenLogprob)) (i : Nat)
    (chunks : List StreamChunk) :
    ((labelFirst decode t.1 t.2.1 t.2.2 chunks).map fun c => Frame.data (c.setChoiceIndex i)).foldl Assembly.take a =
      (chunks.map Frame.data).foldl Assembly.take a := by
  cases chunks with
  | nil => rfl
  | cons chunk chunks =>
    cases lp : t.2.1 with
    | none => exact take_indexed a i (chunk :: chunks)
    | some lp =>
      simp only [labelFirst]
      rw [List.map_cons, List.foldl_cons, take_setChoiceIndex, take_withLogprobs, take_indexed]
      rfl

theorem token_frames (s : Streaming) {acc : Parsed} (accs : s.accs = [acc]) (t : Text × Option ℚ × Option (List TokenLogprob)) :
    ∃ s', s.event reader decode prepared (.ok (tokenOf t)) =
        (s', (labelFirst decode t.1 t.2.1 t.2.2 (acc.stream reader t.1).2).map fun c => Frame.data (c.setChoiceIndex 0), true) ∧
      s'.accs = [(acc.stream reader t.1).1] ∧ s'.choicesLeft = s.choicesLeft := by
  simp only [Streaming.event, tokenOf, accs, List.getElem?_cons_zero]
  exact ⟨_, rfl, rfl, rfl⟩

theorem done_frames (s : Streaming) {acc : Parsed} (accs : s.accs = [acc]) (left : s.choicesLeft = 1)
    (reason : FinishReason) (p n : Nat) :
    ∃ s', s.event reader decode prepared (.ok (.done 0 reason p n)) =
      (s', ((acc.finishStream reason).2.2.map fun c => Frame.data (c.setChoiceIndex 0)) ++
        [.data (.finishFor 0 (acc.finishStream reason).2.1)], false) := by
  have counted : (s.count prepared 0 reason p n).accs = [acc] ∧ (s.count prepared 0 reason p n).choicesLeft = 1 := by
    simp [Streaming.count, accs, left]
  simp only [Streaming.event, counted.1, counted.2, List.getElem?_cons_zero]
  exact ⟨_, rfl⟩

/-- The frames of one choice are, to a client, the chunks of its texts and the one that ends it. -/
theorem stream_one (tokens : List (Text × Option ℚ × Option (List TokenLogprob))) (reason : FinishReason) (p n : Nat)
    (s : Streaming) {acc : Parsed} (accs : s.accs = [acc]) (left : s.choicesLeft = 1) (a : Assembly) :
    (s.drain reader decode prepared ((delivery tokens reason p n).map .ok)).2.foldl Assembly.take a =
      (((acc.streamAll reader (tokens.map Prod.fst)).2 ++
        ((acc.streamAll reader (tokens.map Prod.fst)).1.finishStream reason).2.2 ++
        [StreamChunk.finish ((acc.streamAll reader (tokens.map Prod.fst)).1.finishStream reason).2.1]).map
          Frame.data).foldl Assembly.take a := by
  induction tokens generalizing s acc a with
  | nil =>
    obtain ⟨s', last⟩ := done_frames reader decode s accs left reason p n
    change (s.drain reader decode prepared [.ok (.done 0 reason p n)]).2.foldl Assembly.take a = _
    rw [Streaming.drain, last, List.foldl_append, take_indexed]
    simp only [List.foldl_cons, List.foldl_nil, StreamChunk.finishFor, take_setChoiceIndex]
    simp [Parsed.streamAll, List.foldl_append]
  | cons t tokens ih =>
    obtain ⟨s', here, accs', left'⟩ := token_frames reader decode s accs t
    change (s.drain reader decode prepared (.ok (tokenOf t) :: (delivery tokens reason p n).map .ok)).2.foldl
      Assembly.take a = _
    rw [Streaming.drain, here]
    simp only [List.foldl_append, take_labelled, ih s' accs' (left'.trans left)]
    simp [Parsed.streamAll, List.foldl_append]

/-- The reason an answer ends with: its calls', if it made any. -/
def endOf (pieces : List Piece) (reason : FinishReason) : FinishReason :=
  if (callLists pieces).flatten ≠ [] then .toolCalls else reason

/-- A parser that made calls says so. -/
theorem finishOf_spec (format : Option OutputFormat) (seed : String) (texts : List Text) (reason : FinishReason) :
    let parser := format.map fun f => OutputParser.new f seed
    finishOf reader parser texts reason = endOf (allPieces reader parser texts) reason := by
  unfold endOf
  cases format with
  | none =>
    have none : callLists (texts.map Piece.content) = [] := by simp [callLists]
    simp [finishOf, allPieces, none]
  | some fmt =>
    obtain ⟨s, follows⟩ := OutputParser.pieces_follows reader (.new fmt seed) texts
    obtain ⟨quiet, made⟩ := ((OutputParser.new fmt seed).pieces reader texts).1.finish_calls
    have begun : (OutputParser.new fmt seed).callsMade = 0 := rfl
    have count := follows.made
    simp only [Option.map_some, finishOf, allPieces, OutputParser.sawToolCalls, made, callLists_append, quiet,
      List.append_nil]
    rw [begun, Nat.zero_add] at count
    rw [count]
    generalize (callLists ((OutputParser.new fmt seed).pieces reader texts).2).flatten = calls
    by_cases none : calls = []
    · simp [none]
    · simp [none, List.length_pos_iff]

/-- Pieces as a whole answer has them. -/
def wholeAnswer (pieces : List Piece) (reason : FinishReason) : Answer :=
  ⟨contentOf pieces, reasoningOf pieces, (callLists pieces).flatten.map fun c => (c.function.name, c.function.arguments),
    some (asOpenai (endOf pieces reason))⟩

/-- Pieces as a client of the stream puts them together. -/
def streamedAnswer (pieces : List Piece) (reason : FinishReason) : Answer :=
  ⟨contentOf pieces, reasoningOf pieces, ((callLists pieces).foldl Assembly.mergeAll []).map Prod.snd,
    some (asOpenai (endOf pieces reason))⟩

/-- The message of a whole answer, as a client reads it. -/
theorem response_answer (pieces : List Piece) (reason : FinishReason) (id model : String) (usage : Usage) :
    ((ChatCompletionResponse.new id model (({} : ParsedOutput).takeAll pieces).content (endOf pieces reason)
        usage).withParsed (({} : ParsedOutput).takeAll pieces).reasoning
          (({} : ParsedOutput).takeAll pieces).toolCalls).choices.map Answer.ofChoice = [wholeAnswer pieces reason] := by
  unfold wholeAnswer endOf
  obtain ⟨content, reasoning, calls⟩ := takeAll_pieces {} pieces
  have filtered : ∀ r : Option Text, (r.filter (· ≠ [])).getD [] = r.getD [] := by
    intro r
    cases r with
    | none => rfl
    | some r => cases r <;> rfl
  simp only [List.nil_append] at content reasoning calls
  rw [content, calls]
  simp only [ChatCompletionResponse.new, ChatCompletionResponse.withParsed, List.modifyHead_cons, List.map_cons,
    List.map_nil, List.cons.injEq, and_true]
  unfold ChatCompletionResponse.parsedChoice
  generalize (callLists pieces).flatten = cs
  by_cases none : cs = []
  · simp only [none, ↓reduceIte, Answer.ofChoice, ChatMessage.assistant, filtered, reasoning]
    simp
  · simp only [none, ↓reduceIte, Answer.ofChoice, ChatMessage.assistant, filtered, reasoning]
    by_cases empty : contentOf pieces = []
    · simp [empty, none]
    · simp [empty, none]

theorem withLogprobs_answer (r : ChatCompletionResponse) (lp : List LogprobEntry) :
    (r.withLogprobs lp).choices.map Answer.ofChoice = r.choices.map Answer.ofChoice := by
  obtain ⟨i, m, choices, usage⟩ := r
  cases choices <;> rfl

/-- The streamed frames of an answer's pieces, put together. -/
theorem assemble_pieces (pieces : List Piece) (reason : FinishReason) {frames rest : List Frame}
    (are : frames.foldl Assembly.take {} =
      ((pieces.map chunkOf ++ [StreamChunk.finish (endOf pieces reason)]).map Frame.data).foldl Assembly.take {})
    (after : ∀ a : Assembly, rest.foldl Assembly.take a = a) :
    assemble ([.data .role] ++ frames ++ rest) = streamedAnswer pieces reason := by
  have chunks := Assembly.take_chunks {} pieces
  have map : (pieces.map chunkOf).map Frame.data = pieces.map fun p => Frame.data (chunkOf p) := List.map_map
  have role : ({} : Assembly).take (.data .role) = {} := rfl
  unfold assemble
  rw [List.foldl_append, after, List.foldl_append, List.foldl_cons, List.foldl_nil, role, are, List.map_append, map,
    List.foldl_append, chunks]
  simp [Assembly.take, Assembly.takeChoice, StreamChunk.finish, Assembly.answer, streamedAnswer]

/-- How many chunks carry calls, and that none carries an empty list of them. -/
theorem callLists_spelled (format : Option OutputFormat) (seed : String) (texts : List Text) :
    let lists := callLists (allPieces reader (format.map fun f => OutputParser.new f seed) texts)
    (lists.length ≤ 1 ↔ ∀ fmt ∈ format, (spelled reader fmt texts).length ≤ 1) ∧ ∀ cs ∈ lists, cs ≠ [] := by
  cases format with
  | none =>
    have none : callLists (texts.map Piece.content) = [] := by simp [callLists]
    simp [allPieces, none]
  | some fmt =>
    obtain ⟨s, follows⟩ := OutputParser.pieces_follows reader (.new fmt seed) texts
    have quiet := ((OutputParser.new fmt seed).pieces reader texts).1.finish_calls.1
    simp only [Option.map_some, allPieces, callLists_append, quiet, List.append_nil, Option.mem_some_iff, forall_eq']
    refine ⟨?_, follows.some_⟩
    rw [follows.lists]
    rfl

/-- Streamed and whole, live and replayed, an answer is the same to a client. -/
def Consistent (prepared : Prepared) (parser : Option OutputParser)
    (tokens : List (Text × Option ℚ × Option (List TokenLogprob))) (reason : FinishReason) (p n : Nat)
    (includeUsage : Bool) (id model : String) : Prop :=
  ∃ out, collect reader decode prepared parser (delivery tokens reason p n) = .ok out ∧
    let whole := (out.response id model).choices.map Answer.ofChoice
    let hit : CachedResponse := ⟨tokens.map Prod.fst, reason, p, n⟩
    whole = [assemble (sseStream reader decode prepared parser includeUsage ((delivery tokens reason p n).map .ok)).2] ∧
      (replayChat reader hit parser id model).choices.map Answer.ofChoice = whole ∧
      [assemble (replayStream reader hit parser includeUsage)] = whole

/-- The deliveries of one choice agree just when its text closes one block at most that spells calls. -/
theorem consistent_iff (format : Option OutputFormat) (seed : String) (one : prepared.choices = 1)
    (tokens : List (Text × Option ℚ × Option (List TokenLogprob))) (reason : FinishReason) (p n : Nat)
    (includeUsage : Bool) (id model : String) :
    Consistent reader decode prepared (format.map fun f => OutputParser.new f seed) tokens reason p n includeUsage id model ↔
      ∀ fmt ∈ format, (spelled reader fmt (tokens.map Prod.fst)).length ≤ 1 := by
  generalize is : format.map (fun f => OutputParser.new f seed) = parser
  have finishes := finishOf_spec reader format seed (tokens.map Prod.fst) reason
  obtain ⟨spelled_, some_⟩ := callLists_spelled reader format seed (tokens.map Prod.fst)
  simp only [is] at finishes spelled_ some_
  have collected := collected_pieces reader parser (tokens.map Prod.fst) reason
  obtain ⟨chunks, last⟩ := streamed_pieces reader parser (tokens.map Prod.fst) reason
  rw [finishes] at collected last
  have merged := Assembly.merged_iff _ some_
  generalize allPieces reader parser (tokens.map Prod.fst) = pieces at *
  -- the whole answer
  have begun : (Collecting.start prepared parser).accs = [({ parser } : Parsed)] ∧
      (Collecting.start prepared parser).finishes = [none] := by simp [Collecting.start, one]
  obtain ⟨c, drained, accs, ends⟩ := drain_one reader decode one tokens reason p n _ begun.1 begun.2 rfl
  have whole : collect reader decode prepared parser (delivery tokens reason p n) = .ok c.finish := by
    rw [collect, drained]
    rfl
  have said : (c.finish.response id model).choices.map Answer.ofChoice = [wholeAnswer pieces reason] := by
    have answer := response_answer pieces reason id model c.usage
    unfold Collected.response Collecting.finish
    simp only [accs, ends, List.zipIdx_singleton, List.map_cons, List.map_nil, List.head?_cons, Option.getD_some,
      List.getElem?_cons_zero, Option.join_some, collected, List.tail_cons, ne_eq, not_true_eq_false, ↓reduceIte]
    cases c.logprobs with
    | none => exact answer
    | some lp => exact (withLogprobs_answer _ lp).trans answer
  -- the streamed one
  have start : (Streaming.start prepared parser).accs = [({ parser } : Parsed)] ∧
      (Streaming.start prepared parser).choicesLeft = 1 := by simp [Streaming.start, one]
  have live : ((Streaming.start prepared parser).drain reader decode prepared
      ((delivery tokens reason p n).map .ok)).2.foldl Assembly.take {} = _ :=
    stream_one reader decode tokens reason p n (Streaming.start prepared parser) start.1 start.2 {}
  rw [chunks, last] at live
  have after : ∀ (u : Usage) (a : Assembly),
      ((if includeUsage then [Frame.data (.usageOnly u)] else []) ++ [Frame.done]).foldl Assembly.take a = a := by
    intro u a
    cases includeUsage <;> rfl
  have streamed : assemble (sseStream reader decode prepared parser includeUsage
      ((delivery tokens reason p n).map .ok)).2 = streamedAnswer pieces reason := by
    simp only [sseStream]
    rw [List.append_assoc _ _ [Frame.done]]
    exact assemble_pieces pieces reason live (after _)
  -- what is replayed
  have replayed : assemble (replayStream reader ⟨tokens.map Prod.fst, reason, p, n⟩ parser includeUsage) =
      streamedAnswer pieces reason := by
    have frames : (({ parser } : Parsed).streamAll reader (tokens.map Prod.fst)).2.map Frame.data ++
        (((({ parser } : Parsed).streamAll reader (tokens.map Prod.fst)).1.finishStream reason).2.2.map Frame.data ++
        [Frame.data (.finish (endOf pieces reason))]) =
        (pieces.map chunkOf ++ [StreamChunk.finish (endOf pieces reason)]).map Frame.data := by
      rw [← chunks]
      simp
    have parts := assemble_pieces pieces reason (congrArg (List.foldl Assembly.take {}) frames) (after (.new p n))
    simp only [replayStream, last]
    simpa only [List.append_assoc] using parts
  have repeated : (replayChat reader ⟨tokens.map Prod.fst, reason, p, n⟩ parser id model).choices.map
      Answer.ofChoice = [wholeAnswer pieces reason] := by
    unfold replayChat
    rw [collected]
    exact response_answer pieces reason id model _
  rw [← spelled_, ← merged]
  unfold Consistent
  simp only [whole, Except.ok.injEq, exists_eq_left', said, streamed, replayed, repeated, List.cons.injEq, and_true,
    true_and]
  constructor
  · rintro ⟨same, -⟩
    exact (congrArg Answer.calls same).symm
  · intro same
    have both : wholeAnswer pieces reason = streamedAnswer pieces reason := by
      unfold wholeAnswer streamedAnswer
      rw [same]
    exact ⟨both, both.symm⟩

end Deliver

section Example

/-- Two calls of a model's, spelled as it spells them. -/
def twoCalls : CallReader where
  read _ text :=
    if text = "[f()]".toList then some [("f".toList, "\x7b\x7d".toList)]
    else if text = "[g()]".toList then some [("g".toList, "\x7b\x7d".toList)]
    else none
  digits := id

def oneChoice : Prepared := ⟨1, 5, false⟩

/-- What a model says when it makes the calls in blocks of their own. -/
def inTwoBlocks : List (Text × Option ℚ × Option (List TokenLogprob)) :=
  ["</think>", "<|tool_call_start|>", "[f()]", "<|tool_call_end|>", "<|tool_call_start|>", "[g()]",
    "<|tool_call_end|>"].map fun text => (text.toList, none, none)

def inOneBlock : List (Text × Option ℚ × Option (List TokenLogprob)) :=
  ["</think>", "<|tool_call_start|>", "[f()]", "<|tool_call_end|>", "done"].map fun text => (text.toList, none, none)

/-- The second block's call joins the first one's in a stream. -/
theorem second_block_merged :
    ¬Consistent twoCalls (fun _ => []) oneChoice (some (OutputParser.new (.lfm2 true) "seed")) inTwoBlocks .stop 5 7
      false "id" "model" := by
  rintro ⟨out, whole, same, -⟩
  have calls := congrArg (List.map fun a : Answer => a.calls.length) same
  have is : (collect twoCalls (fun _ => []) oneChoice (some (OutputParser.new (.lfm2 true) "seed"))
      (delivery inTwoBlocks .stop 5 7)).toOption.map (fun out => (out.response "id" "model").choices.map
        fun c => (Answer.ofChoice c).calls.length) = some [2] := by decide +kernel
  rw [whole] at is
  have two := Option.some.inj is
  rw [List.map_map] at calls
  have absurd_ := two.symm.trans calls
  revert absurd_
  decide +kernel

theorem consistent_iff_one_block :
    Consistent twoCalls (fun _ => []) oneChoice (some (OutputParser.new (.lfm2 true) "seed")) inOneBlock .stop 5 5
      true "id" "model" :=
  (consistent_iff twoCalls (fun _ => []) (some (.lfm2 true)) "seed" rfl inOneBlock .stop 5 5 true "id" "model").mpr
    (by decide +kernel)

end Example

end Vapi.Gateway
