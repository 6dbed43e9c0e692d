import Vapi.Gateway.Agree
import Vapi.Worker.Constraint
import Mathlib.Analysis.SpecialFunctions.Log.Basic

/-!
# Log-probabilities on their way to the client

A log-probability travels with the text of its token. It reaches the client
where the token has text of its own and the parser makes something of it.
-/

namespace Vapi.Worker

open Engine Gateway OpenAi

/-- The texts a detokenizer gives for some tokens. -/
def textsOf (decode : List Nat → Text) (d : IncrementalDetokenizer) : List Nat → Option (List Text)
  | [] => some []
  | token :: tokens => do
    let (text, d) ← d.push token decode
    let texts ← textsOf decode d tokens
    some (text :: texts)

/-- The text a token adds to that of the token before it, none of its own if it ends in the middle of a character. -/
def added (decode : List Nat → Text) (before : List Nat) (token : Nat) : Option Text :=
  let said := decode before
  let now := decode (before ++ [token])
  if byteLength now ≤ byteLength said ∨ now.getLast? = some Utf8.replacement then some []
  else fromByte (byteLength said) now

/-- The texts of tokens none of which is held back. -/
def wordsOf (decode : List Nat → Text) (before : List Nat) : List Nat → Option (List Text)
  | [] => some []
  | token :: tokens => do
    let text ← added decode before token
    let texts ← wordsOf decode [token] tokens
    some (text :: texts)

section Words

variable {decode : List Nat → Text} {d : IncrementalDetokenizer} {token : Nat} {tokens : List Nat} {texts : List Text}

/-- No token is held back. -/
def Level (d : IncrementalDetokenizer) : Prop := d.prefixOffset ≤ d.tokens.length ∧ d.readOffset = d.tokens.length

variable (decode) in
theorem push_level (level : Level d) (token : Nat) :
    (d.push token decode).map Prod.fst = added decode (d.tokens.drop d.prefixOffset) token ∧
      ∀ pushed, d.push token decode = some pushed → pushed.1 ≠ [] →
        Level pushed.2 ∧ pushed.2.tokens.drop pushed.2.prefixOffset = [token] := by
  obtain ⟨start, read⟩ := level
  have said : ((d.tokens ++ [token]).take d.readOffset).drop d.prefixOffset = d.tokens.drop d.prefixOffset := by
    rw [read, List.take_left]
  have now : (d.tokens ++ [token]).drop d.prefixOffset = d.tokens.drop d.prefixOffset ++ [token] :=
    List.drop_append_of_le_length start
  simp only [IncrementalDetokenizer.push, added, said, now]
  split
  · refine ⟨rfl, fun pushed is some_ => ?_⟩
    obtain rfl := Option.some.inj is
    exact absurd rfl some_
  · cases from_ : fromByte (byteLength (decode (d.tokens.drop d.prefixOffset)))
        (decode (d.tokens.drop d.prefixOffset ++ [token])) with
    | none => exact ⟨rfl, nofun⟩
    | some text =>
      refine ⟨rfl, fun pushed is _ => ?_⟩
      obtain rfl := Option.some.inj is
      simp [Level, read]

variable (decode tokens texts) in
/-- No text is empty just when none is held back. -/
theorem textsOf_iff (level : Level d) :
    (textsOf decode d tokens = some texts ∧ ∀ t ∈ texts, t ≠ []) ↔
      (wordsOf decode (d.tokens.drop d.prefixOffset) tokens = some texts ∧ ∀ t ∈ texts, t ≠ []) := by
  induction tokens generalizing d texts with
  | nil => exact Iff.rfl
  | cons token tokens ih =>
    obtain ⟨same, after⟩ := push_level decode level token
    rw [textsOf, wordsOf, ← same]
    cases is : d.push token decode with
    | none => simp
    | some pushed =>
      simp only [Option.map_some, Option.bind_eq_bind, Option.bind_some, Option.bind_eq_some_iff, Option.some.injEq]
      by_cases empty : pushed.1 = []
      · have never : ∀ rest, (pushed.1 :: rest = texts) → ¬∀ t ∈ texts, t ≠ [] := by
          rintro rest rfl some_
          exact some_ _ List.mem_cons_self empty
        constructor <;> rintro ⟨⟨rest, -, is⟩, some_⟩ <;> exact absurd some_ (never rest is)
      · obtain ⟨level', last⟩ := after pushed is empty
        constructor
        · rintro ⟨⟨rest, are, rfl⟩, some_⟩
          have := (ih _ level').mp ⟨are, fun t mem => some_ t (List.mem_cons_of_mem _ mem)⟩
          exact ⟨⟨rest, last ▸ this.1, rfl⟩, some_⟩
        · rintro ⟨⟨rest, are, rfl⟩, some_⟩
          have := (ih _ level').mpr ⟨last.symm ▸ are, fun t mem => some_ t (List.mem_cons_of_mem _ mem)⟩
          exact ⟨⟨rest, this.1, rfl⟩, some_⟩

end Words

/-- Every draw happens at a state where it has the property. -/
def Guard.Along {S : Type} (g : Generation) (P : Guard → Sampled S → Prop) (w : Guard) : List (Sampled S) → Prop
  | [] => True
  | x :: xs => P w x ∧ Along g P (w.next g x.token) xs

section Read

variable {S : Type} [Field S] [LinearOrder S] (exp ln : S → S) (wire : Option S → ℚ) (g : Generation)

/-- The tokens with content. -/
def spoken (xs : List (Sampled S)) : List (Sampled S) := xs.filter (·.token ∉ g.eos)

/-- The log-probabilities of the tokens with content, in the rows the model produced. -/
def modelled (xs : List (Sampled S)) : List ℚ :=
  (spoken g xs).map fun x => (readRow g exp ln wire x.row x.token).1

/-- In the rows the tokens are sampled of. -/
def readings (w : Guard) : List (Sampled S) → List ℚ
  | [] => []
  | x :: xs =>
    let rest := readings (w.next g x.token) xs
    if x.token ∈ g.eos then rest else (readRow g exp ln wire (w.masked g x.row) x.token).1 :: rest

variable {exp ln wire g} {c : Choice} {x : Sampled S}

theorem told_ends (quiet : c.stream = {}) (ends : x.token ∈ g.eos) (xs : List (Sampled S)) :
    c.told g exp ln wire (x :: xs) = Choice.told g exp ln wire { c with guard := c.guard.next g x.token } xs := by
  simp [Choice.told, Choice.step, ends, quiet]

/-- Without stop strings a token's text goes out at once, if it has any. -/
theorem told_speaks (noStop : g.stop.stopStrings = []) (quiet : c.stream = {}) (speaks : x.token ∉ g.eos)
    (xs : List (Sampled S)) :
    c.told g exp ln wire (x :: xs) = (c.detok.push x.token g.decode).bind fun pushed =>
      (Choice.told g exp ln wire ⟨c.guard.next g x.token, pushed.2, {}, x.token⟩ xs).map fun rest =>
        let read := readRow g exp ln wire (c.guard.masked g x.row) x.token
        (if pushed.1 = [] then [] else [⟨pushed.1, x.token, some read.1, some read.2⟩]) ++ rest := by
  simp only [Choice.told, Choice.step, speaks, if_false, emitWithStopStrings, noStop, if_true, quiet]
  cases c.detok.push x.token g.decode with
  | none => rfl
  | some pushed =>
    simp only [Option.bind_eq_bind, Option.bind_some, Bool.false_eq_true, if_false]
    cases Choice.told g exp ln wire ⟨c.guard.next g x.token, pushed.2, {}, x.token⟩ xs with
    | none => rfl
    | some rest =>
      by_cases empty : pushed.1 = []
      · simp [empty]
      · simp [empty]

variable (exp ln wire) in
/-- What is told, by the texts of the tokens. -/
theorem told_spec (noStop : g.stop.stopStrings = []) (xs : List (Sampled S)) (quiet : c.stream = {}) :
    match textsOf g.decode c.detok ((spoken g xs).map Sampled.token) with
    | none => c.told g exp ln wire xs = none
    | some texts => ∃ told, c.told g exp ln wire xs = some told ∧ told.map Told.text = texts.filter (· ≠ []) ∧
        (∀ t ∈ told, t.logprob.isSome) ∧
        ((∀ t ∈ texts, t ≠ []) → told.map Told.logprob = (readings exp ln wire g c.guard xs).map some) := by
  induction xs generalizing c with
  | nil => exact ⟨[], by simp [Choice.told, quiet], rfl, by simp, fun _ => rfl⟩
  | cons x xs ih =>
    by_cases speaks : x.token ∈ g.eos
    · have skip : spoken g (x :: xs) = spoken g xs := List.filter_cons_of_neg (by simpa using speaks)
      have reads : readings exp ln wire g c.guard (x :: xs) = readings exp ln wire g (c.guard.next g x.token) xs :=
        if_pos speaks
      rw [skip, told_ends quiet speaks, reads]
      exact ih (c := { c with guard := c.guard.next g x.token }) quiet
    · have more : spoken g (x :: xs) = x :: spoken g xs := List.filter_cons_of_pos (by simpa using speaks)
      have reads : readings exp ln wire g c.guard (x :: xs) =
          (readRow g exp ln wire (c.guard.masked g x.row) x.token).1 ::
            readings exp ln wire g (c.guard.next g x.token) xs := if_neg speaks
      rw [more, told_speaks noStop quiet speaks, reads, List.map_cons, textsOf]
      cases c.detok.push x.token g.decode with
      | none => rfl
      | some pushed =>
        have rest := ih (c := ⟨c.guard.next g x.token, pushed.2, {}, x.token⟩) rfl
        simp only [Option.bind_eq_bind, Option.bind_some]
        cases is : textsOf g.decode pushed.2 ((spoken g xs).map Sampled.token) with
        | none =>
          simp only [is] at rest
          simp [rest]
        | some texts =>
          simp only [is] at rest
          obtain ⟨told, here, said, labelled, whole⟩ := rest
          simp only [Option.bind_some, here, Option.map_some]
          refine ⟨_, rfl, ?_, ?_, fun some_ => ?_⟩
          · by_cases empty : pushed.1 = [] <;> simp [empty, said]
          · by_cases empty : pushed.1 = [] <;> simpa [empty] using labelled
          · have first := some_ pushed.1 List.mem_cons_self
            simp only [first, if_false, List.map_append, List.map_cons, List.map_nil,
              whole fun t mem => some_ t (List.mem_cons_of_mem _ mem)]
            rfl

/-- Read off the masked rows and off those of the model, the numbers sent differ if the log-probabilities do. -/
def Apart (exp ln : S → S) (wire : Option S → ℚ) (g : Generation) : Guard → List (Sampled S) → Prop :=
  Guard.Along g fun w x =>
    let lp := fun row : List (Option S) => (RowLogprobs.of exp ln row g.logprobs).logprob row[x.token]?.join
    wire (lp (w.masked g x.row)) = wire (lp x.row) → lp (w.masked g x.row) = lp x.row

/-- Each token has a logit left in the row it is sampled of. -/
def Drawn (g : Generation) : Guard → List (Sampled S) → Prop :=
  Guard.Along g fun w x => ∃ l, (w.masked g x.row)[x.token]? = some (some l)

/-- No mask takes a logit away from the row of a token with content. -/
def Spared (g : Generation) : Guard → List (Sampled S) → Prop :=
  Guard.Along g fun w x => x.token ∉ g.eos → w.masked g x.row = x.row

/-- The readings are the model's just when no mask changes a row. -/
theorem readings_iff [IsStrictOrderedRing S] (e : Exponential exp) (inverse : ∀ y, 0 < y → exp (ln y) = y)
    {w : Guard} {xs : List (Sampled S)} (drawn : Drawn g w xs) (apart : Apart exp ln wire g w xs) :
    readings exp ln wire g w xs = modelled exp ln wire g xs ↔ Spared g w xs := by
  induction xs generalizing w with
  | nil => exact ⟨fun _ => trivial, fun _ => rfl⟩
  | cons x xs ih =>
    obtain ⟨⟨l, left⟩, drawn⟩ := drawn
    obtain ⟨here, apart⟩ := apart
    have rest := ih drawn apart
    change _ ↔ (x.token ∉ g.eos → w.masked g x.row = x.row) ∧ Spared g (w.next g x.token) xs
    rw [← rest, readings, modelled, spoken, List.filter_cons]
    by_cases speaks : x.token ∈ g.eos
    · simp [speaks, modelled, spoken]
    · simp only [speaks, if_false, not_false_eq_true, decide_true, if_true, List.map_cons, List.cons.injEq, forall_const]
      refine and_congr_left fun _ => ⟨fun same => ?_, fun same => by rw [same]⟩
      exact e.logprob_masks inverse (w.masked_masks g x.row) left g.logprobs (here same)

end Read

section Deliver

variable (reader : CallReader) (decode : List Token → Text) {prepared : Prepared}

/-- What the client is told of a delta. -/
def entryOf (t : Told) : Option LogprobEntry :=
  t.logprob.map fun lp => logprobEntry decode t.text lp (t.topLogprobs.getD [])

/-- A delta as the gateway reads it. -/
def Told.read (t : Told) : Text × Option ℚ × Option (List Proto.TokenLogprob) := (t.text, t.logprob, t.topLogprobs)

/-- The deltas of a choice and its last, as the gateway reads them. -/
def answer (told : List Told) (reason : FinishReason) (p n : Nat) : List StreamEvent :=
  (told.map fun t => t.delta 0).map StreamEvent.ofDelta ++ [.ofDelta (.done 0 reason p n)]

theorem answer_delivery (told : List Told) (reason : FinishReason) (p n : Nat) :
    answer told reason p n = delivery (told.map Told.read) reason p n := by
  simp only [answer, delivery, List.map_map]
  rfl

/-- Collecting keeps the entry of every delta. -/
theorem drain_logprobs (one : prepared.choices = 1) (told : List Told) (reason : FinishReason) (p n : Nat)
    (c : Collecting) (finishes : c.finishes = [none]) (done : c.done = 0) :
    ∃ c', c.drain reader decode prepared (answer told reason p n) = .ok c' ∧
      c'.logprobs.getD [] = c.logprobs.getD [] ++ told.filterMap (entryOf decode) := by
  induction told generalizing c with
  | nil =>
    have last : ∃ c', c.event reader decode prepared (.done 0 reason p n) = .ok (c', false) ∧ c'.logprobs = c.logprobs := by
      simp only [Collecting.event, finishes, done, one]
      exact ⟨_, rfl, rfl⟩
    obtain ⟨c', last, kept⟩ := last
    refine ⟨c', ?_, by simp [kept]⟩
    change c.drain reader decode prepared [.done 0 reason p n] = .ok c'
    rw [Collecting.drain, last]
  | cons t told ih =>
    obtain ⟨c₁, here, logprobs, finishes₁, done₁⟩ : ∃ c₁,
        c.event reader decode prepared (.token 0 t.text t.logprob t.topLogprobs) = .ok (c₁, true) ∧
          c₁.logprobs.getD [] = c.logprobs.getD [] ++ (entryOf decode t).toList ∧ c₁.finishes = [none] ∧ c₁.done = 0 := by
      refine ⟨_, rfl, ?_, finishes, done⟩
      cases lp : t.logprob <;> simp [entryOf, lp]
    obtain ⟨c', drained, kept⟩ := ih c₁ finishes₁ done₁
    refine ⟨c', ?_, ?_⟩
    · change c.drain reader decode prepared (.token 0 t.text t.logprob t.topLogprobs :: answer told reason p n) = .ok c'
      rw [Collecting.drain, here]
      exact drained
    · rw [kept, logprobs, List.append_assoc, List.filterMap_cons]
      cases entryOf decode t <;> rfl

/-- What the chunks of a stream carry. -/
def logprobsOf (frames : List Frame) : List LogprobEntry :=
  frames.flatMap fun
    | .data chunk => chunk.choices.flatMap fun choice => choice.logprobs.getD []
    | .done => []

theorem logprobsOf_append (xs ys : List Frame) : logprobsOf (xs ++ ys) = logprobsOf xs ++ logprobsOf ys :=
  List.flatMap_append

theorem logprobsOf_index (i : Nat) (chunk : StreamChunk) :
    logprobsOf [.data (chunk.setChoiceIndex i)] = logprobsOf [.data chunk] := by
  obtain ⟨choices, usage⟩ := chunk
  cases choices <;> rfl

theorem logprobsOf_pieces (i : Nat) (pieces : List Piece) :
    logprobsOf ((pieces.map chunkOf).map fun c => Frame.data (c.setChoiceIndex i)) = [] := by
  induction pieces with
  | nil => rfl
  | cons piece pieces ih =>
    have here : logprobsOf [.data ((chunkOf piece).setChoiceIndex i)] = [] := by
      rw [logprobsOf_index]
      cases piece <;> rfl
    rw [List.map_cons, List.map_cons, ← List.singleton_append, logprobsOf_append, here, ih]
    rfl

/-- What the deltas of a stream become: the pieces of the parser. -/
theorem stream_pieces (acc : Parsed) (text : Text) :
    ∃ pieces : List Piece, (acc.stream reader text).2 = pieces.map chunkOf := by
  unfold Parsed.stream
  cases acc.parser with
  | none => exact ⟨[.content text], rfl⟩
  | some parser => exact ⟨_, rfl⟩

theorem finishStream_pieces (acc : Parsed) (reason : FinishReason) :
    ∃ pieces : List Piece, (acc.finishStream reason).2.2 = pieces.map chunkOf := by
  unfold Parsed.finishStream
  cases acc.parser with
  | none => exact ⟨[], rfl⟩
  | some parser => exact ⟨_, rfl⟩

/-- The entries that are sent: those of the deltas the parser makes something of. -/
def streamed (acc : Parsed) : List Told → List LogprobEntry
  | [] => []
  | t :: told =>
    let (acc, chunks) := acc.stream reader t.text
    (if chunks = [] then [] else (entryOf decode t).toList) ++ streamed acc told

/-- The first chunk of a delta carries its entry, if there is a chunk. -/
theorem labelled_logprobs (t : Told) (pieces : List Piece) :
    logprobsOf ((labelFirst decode t.text t.logprob t.topLogprobs (pieces.map chunkOf)).map
      fun c => Frame.data (c.setChoiceIndex 0)) = if pieces.map chunkOf = [] then [] else (entryOf decode t).toList := by
  cases pieces with
  | nil => rfl
  | cons piece pieces =>
    rw [if_neg (by simp), List.map_cons]
    cases is : t.logprob with
    | none =>
      rw [entryOf, is]
      exact logprobsOf_pieces 0 (piece :: pieces)
    | some lp =>
      have here : logprobsOf [.data (((chunkOf piece).withLogprobs (logprobEntry decode t.text lp
          (t.topLogprobs.getD []))).setChoiceIndex 0)] = [logprobEntry decode t.text lp (t.topLogprobs.getD [])] := by
        rw [logprobsOf_index]
        cases piece <;> rfl
      simp only [labelFirst]
      rw [List.map_cons, ← List.singleton_append, logprobsOf_append, here, logprobsOf_pieces, entryOf, is]
      rfl

variable (prepared) in
theorem drain_streamed (told : List Told) (reason : FinishReason) (p n : Nat) (s : Streaming) {acc : Parsed}
    (accs : s.accs = [acc]) (left : s.choicesLeft = 1) :
    logprobsOf (s.drain reader decode prepared ((answer told reason p n).map .ok)).2 = streamed reader decode acc told := by
  induction told generalizing s acc with
  | nil =>
    obtain ⟨s', last⟩ := done_frames reader decode s accs left reason p n
    obtain ⟨pieces, are⟩ := finishStream_pieces acc reason
    change logprobsOf (s.drain reader decode prepared [.ok (.done 0 reason p n)]).2 = []
    rw [Streaming.drain, last, are]
    exact (logprobsOf_append _ _).trans (by rw [logprobsOf_pieces]; rfl)
  | cons t told ih =>
    obtain ⟨s', here, accs', left'⟩ := token_frames reader decode s accs t.read
    obtain ⟨pieces, are⟩ := stream_pieces reader acc t.text
    change logprobsOf (s.drain reader decode prepared (.ok (tokenOf t.read) :: (answer told reason p n).map .ok)).2 = _
    rw [Streaming.drain, here]
    refine (logprobsOf_append _ _).trans ?_
    rw [ih s' accs' (left'.trans left)]
    change logprobsOf ((labelFirst decode t.text t.logprob t.topLogprobs (acc.stream reader t.text).2).map _) ++ _ = _
    rw [are, labelled_logprobs, ← are]
    rfl

/-- The parser makes something of each text. -/
def Hears (acc : Parsed) : List Text → Prop
  | [] => True
  | text :: texts => (acc.stream reader text).2 ≠ [] ∧ Hears (acc.stream reader text).1 texts

theorem entryOf_logprob (t : Told) : (entryOf decode t).map LogprobEntry.logprob = t.logprob := by
  cases is : t.logprob <;> simp [entryOf, is, logprobEntry]

theorem entries_logprob {told : List Told} {lps : List ℚ} (labelled : told.map Told.logprob = lps.map some) :
    (told.filterMap (entryOf decode)).map LogprobEntry.logprob = lps := by
  have each : (fun t => (entryOf decode t).map LogprobEntry.logprob) = Told.logprob := funext (entryOf_logprob decode)
  have through : told.filterMap Told.logprob = (told.map Told.logprob).filterMap id := by rw [List.filterMap_map]; rfl
  rw [List.map_filterMap, each, through, labelled]
  simp

/-- No entry is lost to the parser just when it makes something of each text. -/
theorem streamed_length {told : List Told} (labelled : ∀ t ∈ told, t.logprob.isSome) (acc : Parsed) :
    (streamed reader decode acc told).length ≤ told.length ∧
      ((streamed reader decode acc told).length = told.length → Hears reader acc (told.map Told.text)) ∧
      (Hears reader acc (told.map Told.text) → streamed reader decode acc told = told.filterMap (entryOf decode)) := by
  induction told generalizing acc with
  | nil => exact ⟨Nat.le_refl _, fun _ => trivial, fun _ => rfl⟩
  | cons t told ih =>
    obtain ⟨fewer, hears, all⟩ := ih (fun t mem => labelled t (List.mem_cons_of_mem _ mem)) (acc.stream reader t.text).1
    obtain ⟨lp, is⟩ := Option.isSome_iff_exists.mp (labelled t List.mem_cons_self)
    have entry : entryOf decode t = some (logprobEntry decode t.text lp (t.topLogprobs.getD [])) := by
      rw [entryOf, is, Option.map_some]
    rw [streamed, entry]
    by_cases silent : (acc.stream reader t.text).2 = []
    · simp only [silent, if_true, List.nil_append, List.length_cons]
      refine ⟨by omega, fun same => by omega, fun hears => absurd silent hears.1⟩
    · simp only [silent, if_false, Option.toList_some, List.singleton_append, List.length_cons]
      refine ⟨by omega, fun same => ⟨silent, hears (by omega)⟩, fun hears => ?_⟩
      rw [all hears.2, List.filterMap_cons, entry]

end Deliver

section Reported

variable {S : Type} [Field S] [LinearOrder S] (exp ln : S → S) (wire : Option S → ℚ) (g : Generation)
  (reader : CallReader) (decode : List Token → Text) (prepared : Prepared) (parser : Option OutputParser)

/-- Of each token with content the client is told the log-probability it has in the row the model produced, in one
body and as a stream. -/
def Reported (includeUsage : Bool) (c : Choice) (xs : List (Sampled S)) (reason : FinishReason) (p n : Nat) : Prop :=
  ∃ told, c.told g exp ln wire xs = some told ∧
    ∃ out, collect reader decode prepared parser (answer told reason p n) = .ok out ∧
      (out.logprobs.getD []).map LogprobEntry.logprob = modelled exp ln wire g xs ∧
      (logprobsOf (sseStream reader decode prepared parser includeUsage ((answer told reason p n).map .ok)).2).map
        LogprobEntry.logprob = modelled exp ln wire g xs

variable {exp ln wire g reader decode prepared parser} {includeUsage : Bool} {c : Choice} {xs : List (Sampled S)}
  {reason : FinishReason} {p n : Nat}

theorem textsOf_length {d : IncrementalDetokenizer} {tokens : List Nat} {texts : List Text}
    (are : textsOf g.decode d tokens = some texts) : texts.length = tokens.length := by
  induction tokens generalizing d texts with
  | nil =>
    obtain rfl := Option.some.inj are
    rfl
  | cons token tokens ih =>
    obtain ⟨pushed, -, are⟩ := Option.bind_eq_some_iff.mp are
    obtain ⟨rest, is, are⟩ := Option.bind_eq_some_iff.mp are
    obtain rfl := Option.some.inj are
    exact congrArg Nat.succ (ih is)

variable (reader decode parser reason p n) in
theorem collect_logprobs (one : prepared.choices = 1) (told : List Told) :
    ∃ out, collect reader decode prepared parser (answer told reason p n) = .ok out ∧
      out.logprobs.getD [] = told.filterMap (entryOf decode) := by
  obtain ⟨c', drained, logprobs⟩ := drain_logprobs reader decode one told reason p n (.start prepared parser)
    (by rw [Collecting.start, one]; rfl) rfl
  exact ⟨c'.finish, by rw [collect, drained]; rfl, logprobs⟩

theorem sse_logprobs (one : prepared.choices = 1) (told : List Told) :
    logprobsOf (sseStream reader decode prepared parser includeUsage ((answer told reason p n).map .ok)).2 =
      streamed reader decode { parser } told := by
  have accs : (Streaming.start prepared parser).accs = [{ parser }] := by rw [Streaming.start, one]; rfl
  have drained := drain_streamed reader decode prepared told reason p n (.start prepared parser) accs one
  simp only [sseStream, logprobsOf_append, drained]
  have role : logprobsOf [.data .role] = [] := rfl
  have usage : ∀ u : Usage, logprobsOf (if includeUsage then [.data (.usageOnly u)] else []) = [] := by
    intro u
    split <;> rfl
  rw [role, usage, List.nil_append, List.append_nil]
  exact List.append_nil _

theorem Reported.words (noStop : g.stop.stopStrings = []) (quiet : c.stream = {}) (one : prepared.choices = 1)
    (reported : Reported exp ln wire g reader decode prepared parser includeUsage c xs reason p n) :
    (∃ texts, (textsOf g.decode c.detok ((spoken g xs).map Sampled.token) = some texts ∧ ∀ t ∈ texts, t ≠ []) ∧
        Hears reader { parser } texts) ∧
      readings exp ln wire g c.guard xs = modelled exp ln wire g xs := by
  obtain ⟨told, are, out, collected, whole, parts⟩ := reported
  obtain ⟨out', collected', logprobs⟩ := collect_logprobs reader decode parser reason p n one told
  obtain rfl := Except.ok.inj (collected.symm.trans collected')
  rw [logprobs] at whole
  rw [sse_logprobs one] at parts
  have spec := told_spec exp ln wire noStop xs quiet
  cases is : textsOf g.decode c.detok ((spoken g xs).map Sampled.token) with
  | none =>
    simp only [is] at spec
    cases are.symm.trans spec
  | some texts =>
    simp only [is] at spec
    obtain ⟨told', are', said, labelled, reads⟩ := spec
    obtain rfl := Option.some.inj (are.symm.trans are')
    have asMany : (modelled exp ln wire g xs).length = texts.length := by
      rw [textsOf_length is, modelled, List.length_map, List.length_map]
    have fewer : (told.filterMap (entryOf decode)).length ≤ told.length := List.length_filterMap_le _ _
    have saidLength : told.length = (texts.filter (· ≠ [])).length := by rw [← said, List.length_map]
    have wholeLength := congrArg List.length whole
    rw [List.length_map, asMany] at wholeLength
    have allSaid : ∀ t ∈ texts, t ≠ [] := by
      have atMost := saidLength.le.trans (List.length_filter_le _ _)
      have all := List.length_filter_eq_length_iff.mp (saidLength.symm.trans (by omega))
      exact fun t mem => of_decide_eq_true (all t mem)
    have texts_ : told.map Told.text = texts := by
      rw [said, List.filter_eq_self.mpr fun t mem => decide_eq_true (allSaid t mem)]
    refine ⟨⟨texts, ⟨rfl, allSaid⟩, ?_⟩, ?_⟩
    · have partsLength := congrArg List.length parts
      rw [List.length_map, asMany, ← texts_, List.length_map] at partsLength
      exact texts_ ▸ (streamed_length reader decode labelled { parser }).2.1 partsLength
    · rw [← entries_logprob decode (reads allSaid), whole]

theorem reported_of_words (noStop : g.stop.stopStrings = []) (quiet : c.stream = {}) (one : prepared.choices = 1)
    {texts : List Text} (is : textsOf g.decode c.detok ((spoken g xs).map Sampled.token) = some texts)
    (allSaid : ∀ t ∈ texts, t ≠ []) (hears : Hears reader { parser } texts)
    (same : readings exp ln wire g c.guard xs = modelled exp ln wire g xs) :
    Reported exp ln wire g reader decode prepared parser includeUsage c xs reason p n := by
  have spec := told_spec exp ln wire noStop xs quiet
  simp only [is] at spec
  obtain ⟨told, are, said, labelled, reads⟩ := spec
  obtain ⟨out, collected, logprobs⟩ := collect_logprobs reader decode parser reason p n one told
  have texts_ : told.map Told.text = texts := by
    rw [said, List.filter_eq_self.mpr fun t mem => decide_eq_true (allSaid t mem)]
  have entries := entries_logprob decode (reads allSaid)
  refine ⟨told, are, out, collected, ?_, ?_⟩
  · rw [logprobs, entries, same]
  · rw [sse_logprobs one, (streamed_length reader decode labelled { parser }).2.2 (texts_ ▸ hears), entries, same]

theorem withPrompt_level (prompt : List Nat) : Level (.withPrompt prompt) := ⟨Nat.le_refl _, rfl⟩

/-- What the client is told of each token is its log-probability in the row the model produced, just when each token
adds text to the token before it, of which the parser makes something, and no mask changes its row. -/
theorem reported_iff [IsStrictOrderedRing S] (e : Exponential exp) (inverse : ∀ y, 0 < y → exp (ln y) = y)
    (noStop : g.stop.stopStrings = []) (one : prepared.choices = 1) {prompt : List Nat}
    {format : Option Structured.Schema} {startsAfter : Option Text} {tokenId : Text → Option Nat}
    (drawn : Drawn g (Choice.admitted prompt format startsAfter tokenId).guard xs)
    (apart : Apart exp ln wire g (Choice.admitted prompt format startsAfter tokenId).guard xs) :
    Reported exp ln wire g reader decode prepared parser includeUsage (.admitted prompt format startsAfter tokenId) xs
        reason p n ↔
      (∃ texts, (wordsOf g.decode [] ((spoken g xs).map Sampled.token) = some texts ∧ ∀ t ∈ texts, t ≠ []) ∧
        Hears reader { parser } texts) ∧
      Spared g (Choice.admitted prompt format startsAfter tokenId).guard xs := by
  have words := fun texts =>
    textsOf_iff g.decode ((spoken g xs).map Sampled.token) texts (withPrompt_level prompt)
  have none_ : (IncrementalDetokenizer.withPrompt prompt).tokens.drop
      (IncrementalDetokenizer.withPrompt prompt).prefixOffset = [] := List.drop_length
  simp only [none_] at words
  rw [← readings_iff e inverse drawn apart]
  constructor
  · intro reported
    obtain ⟨⟨texts, are, hears⟩, same⟩ := reported.words noStop rfl one
    exact ⟨⟨texts, (words texts).mp are, hears⟩, same⟩
  · rintro ⟨⟨texts, are, hears⟩, same⟩
    obtain ⟨is, allSaid⟩ := (words texts).mpr are
    exact reported_of_words noStop rfl one is allSaid hears same

end Reported

section Example

/-- The first two tokens are the bytes of one letter. -/
def letters : Generation where
  decode tokens := Utf8.lossy (tokens.map fun token => if token = 0 then 0xC3 else if token = 1 then 0xA9 else 0x61)
  vocab := 3
  eos := []
  stop := {}
  maxTokens := 8
  logprobs := 1

/-- Three tokens, equally likely. -/
noncomputable def evenly (token : Nat) : Sampled ℝ := ⟨[some 0, some 0, some 0], token⟩

noncomputable def thousandths (l : Option ℝ) : ℚ := l.elim 0 fun x => ⌊x * 1000⌋ / 1000

/-- The letter is told once, with its second byte's log-probability. -/
theorem first_byte_unreported :
    Drawn letters (Choice.admitted [] none none fun _ => none).guard [evenly 0, evenly 1] ∧
      ¬Reported Real.exp Real.log thousandths letters ⟨fun _ _ => none, id⟩ (fun _ => []) oneChoice none false
        (.admitted [] none none fun _ => none) [evenly 0, evenly 1] .length 1 2 := by
  refine ⟨⟨⟨0, rfl⟩, ⟨0, rfl⟩, trivial⟩, fun reported => ?_⟩
  obtain ⟨⟨texts, ⟨are, some_⟩, -⟩, -⟩ := reported.words rfl rfl rfl
  have held : textsOf letters.decode (.withPrompt []) [0, 1] = some [[], ['é']] := by decide +kernel
  obtain rfl := Option.some.inj (held.symm.trans are)
  exact some_ [] List.mem_cons_self rfl

theorem reported_iff_even :
    Reported Real.exp Real.log thousandths letters ⟨fun _ _ => none, id⟩ (fun _ => []) oneChoice none true
      (.admitted [] none none fun _ => none) [evenly 2, evenly 2] .length 1 2 := by
  have drawn : Drawn letters (Choice.admitted [] none none fun _ => none).guard [evenly 2, evenly 2] :=
    ⟨⟨0, rfl⟩, ⟨0, rfl⟩, trivial⟩
  have apart : Apart Real.exp Real.log thousandths letters (Choice.admitted [] none none fun _ => none).guard
      [evenly 2, evenly 2] := ⟨fun _ => rfl, fun _ => rfl, trivial⟩
  have words : wordsOf letters.decode [] [2, 2] = some [['a'], ['a']] := by decide +kernel
  refine (reported_iff ⟨Real.exp_pos, Real.exp_add, Real.exp_strictMono⟩ (fun y pos => Real.exp_log pos) rfl rfl drawn
    apart).mpr ⟨⟨[['a'], ['a']], ⟨words, by decide⟩, ?_⟩, fun _ => rfl, fun _ => rfl, trivial⟩
  exact ⟨by simp [Parsed.stream], by simp [Parsed.stream], trivial⟩

end Example

end Vapi.Worker
