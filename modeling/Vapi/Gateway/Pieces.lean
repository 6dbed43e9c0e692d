import Vapi.Gateway.Client

/-!
# One list of pieces, two answers

Both deliveries run a choice's deltas through the same parser. What the parser
makes of them is one list of pieces, which one side accumulates and the other
sends as chunks.
-/

namespace Vapi.Gateway

open OpenAi Proto

variable (reader : CallReader)

/-- What the parser makes of some deltas. -/
def OutputParser.pieces (p : OutputParser) : List Text → OutputParser × List Piece
  | [] => (p, [])
  | text :: texts =>
    let (q, here) := p.push reader text
    let (r, later) := q.pieces texts
    (r, here ++ later)

def contentOf (pieces : List Piece) : Text :=
  (pieces.map fun
    | .content c => c
    | _ => []).flatten

def reasoningOf (pieces : List Piece) : Text :=
  (pieces.map fun
    | .reasoning r => r
    | _ => []).flatten

def callLists (pieces : List Piece) : List (List ToolCall) :=
  pieces.filterMap fun
    | .toolCalls calls => some calls
    | _ => none

theorem contentOf_append (xs ys : List Piece) : contentOf (xs ++ ys) = contentOf xs ++ contentOf ys := by
  simp [contentOf]

theorem reasoningOf_append (xs ys : List Piece) : reasoningOf (xs ++ ys) = reasoningOf xs ++ reasoningOf ys := by
  simp [reasoningOf]

theorem callLists_append (xs ys : List Piece) : callLists (xs ++ ys) = callLists xs ++ callLists ys := by
  simp [callLists]

/-- What is accumulated of a list of pieces. -/
theorem takeAll_pieces (out : ParsedOutput) (pieces : List Piece) :
    (out.takeAll pieces).content = out.content ++ contentOf pieces ∧
    (out.takeAll pieces).reasoning.getD [] = out.reasoning.getD [] ++ reasoningOf pieces ∧
    (out.takeAll pieces).toolCalls = out.toolCalls ++ (callLists pieces).flatten := by
  induction pieces generalizing out with
  | nil => simp [ParsedOutput.takeAll, contentOf, reasoningOf, callLists]
  | cons piece pieces ih =>
    obtain ⟨content, reasoning, calls⟩ := ih (out.take piece)
    change ((out.take piece).takeAll pieces).content = _ ∧ ((out.take piece).takeAll pieces).reasoning.getD [] = _ ∧
      ((out.take piece).takeAll pieces).toolCalls = _
    rw [content, reasoning, calls]
    cases piece <;> simp [ParsedOutput.take, contentOf, reasoningOf, callLists]

namespace Assembly

/-- A chunk's calls, numbered from nought, merged into those there are. -/
def mergeAll (calls : List (Nat × Text × Text)) (cs : List ToolCall) : List (Nat × Text × Text) :=
  (cs.zipIdx.map fun (c, index) => (⟨index, c.id, c.kind, c.function⟩ : ToolCallDelta)).foldl mergeCall calls

/-- What a client assembles from the chunks of a list of pieces. -/
theorem take_chunks (a : Assembly) (pieces : List Piece) :
    (pieces.map fun p => Frame.data (chunkOf p)).foldl take a =
      ⟨a.content ++ contentOf pieces, a.reasoning ++ reasoningOf pieces, (callLists pieces).foldl mergeAll a.calls,
        a.finish⟩ := by
  induction pieces generalizing a with
  | nil => simp [contentOf, reasoningOf, callLists]
  | cons piece pieces ih =>
    rw [List.map_cons, List.foldl_cons, ih]
    cases piece <;>
      simp [take, takeChoice, chunkOf, StreamChunk.reasoning, StreamChunk.content, StreamChunk.toolCalls, contentOf,
        reasoningOf, callLists, mergeAll]

/-- The entry a call becomes. -/
def entryOf (p : ToolCall × Nat) : Nat × Text × Text := (p.2, p.1.function.name, p.1.function.arguments)

theorem mergeCall_keys {calls : List (Nat × Text × Text)} {n : Nat} (keys : calls.map Prod.fst = List.range n)
    (d : ToolCallDelta) (le : d.index ≤ n) :
    (mergeCall calls d).map Prod.fst = List.range (max n (d.index + 1)) := by
  unfold mergeCall
  have known : calls.any (·.1 = d.index) = decide (d.index < n) := by
    rw [Bool.eq_iff_iff, List.any_eq_true, decide_eq_true_iff, ← List.mem_range, ← keys, List.mem_map]
    simp
  rw [known]
  by_cases lt : d.index < n
  · have same : (calls.map fun c => if c.1 = d.index then (c.1, c.2.1, c.2.2 ++ d.function.arguments) else c).map
        Prod.fst = calls.map Prod.fst := by
      rw [List.map_map]
      refine List.map_congr_left fun c _ => ?_
      simp only [Function.comp_apply]
      split <;> rfl
    have more : max n (d.index + 1) = n := by omega
    simp only [lt, decide_true, ↓reduceIte, same, keys, more]
  · have at_ : d.index = n := by omega
    simp [keys, List.range_succ, at_]

/-- Calls numbered from where the entries end are new entries. -/
theorem merge_new (cs : List ToolCall) {calls : List (Nat × Text × Text)} {n : Nat}
    (keys : calls.map Prod.fst = List.range n) :
    ((cs.zipIdx n).map fun (c, index) => (⟨index, c.id, c.kind, c.function⟩ : ToolCallDelta)).foldl mergeCall calls =
      calls ++ (cs.zipIdx n).map entryOf := by
  induction cs generalizing calls n with
  | nil => simp
  | cons c cs ih =>
    have fresh : calls.any (·.1 = n) = false := by
      rw [List.any_eq_false]
      intro x hx
      have lt : x.1 < n := by
        rw [← List.mem_range, ← keys]
        exact List.mem_map_of_mem hx
      simp
      omega
    have first : mergeCall calls ⟨n, c.id, c.kind, c.function⟩ = calls ++ [entryOf (c, n)] := by
      simp [mergeCall, fresh, entryOf]
    have keys' : (calls ++ [entryOf (c, n)]).map Prod.fst = List.range (n + 1) := by
      simp [keys, List.range_succ, entryOf]
    rw [List.zipIdx_cons, List.map_cons, List.foldl_cons, first, ih keys']
    simp

theorem mergeAll_keys (cs : List ToolCall) {calls : List (Nat × Text × Text)} {n : Nat}
    (keys : calls.map Prod.fst = List.range n) :
    (mergeAll calls cs).map Prod.fst = List.range (max n cs.length) := by
  have from_ : ∀ (cs : List ToolCall) (k n : Nat) (calls : List (Nat × Text × Text)), k ≤ n →
      calls.map Prod.fst = List.range n →
      (((cs.zipIdx k).map fun (c, index) => (⟨index, c.id, c.kind, c.function⟩ : ToolCallDelta)).foldl mergeCall
        calls).map Prod.fst = List.range (max n (k + cs.length)) := by
    intro cs
    induction cs with
    | nil =>
      intro k n calls le keys
      have same : max n (k + ([] : List ToolCall).length) = n := Nat.max_eq_left le
      rw [same]
      exact keys
    | cons c cs ih =>
      intro k n calls le keys
      have first := mergeCall_keys keys ⟨k, c.id, c.kind, c.function⟩ le
      rw [List.zipIdx_cons, List.map_cons, List.foldl_cons, ih (k + 1) _ _ (Nat.le_max_right ..) first]
      rw [List.length_cons]
      congr 1
      omega
  simpa [mergeAll] using from_ cs 0 n calls (Nat.zero_le _) keys

/-- Chunks that number their calls from nought share entries: there are only as many as the longest has calls. -/
theorem foldl_mergeAll_length (css : List (List ToolCall)) {calls : List (Nat × Text × Text)} {n : Nat}
    (keys : calls.map Prod.fst = List.range n) :
    (css.foldl mergeAll calls).length ≤ n + css.flatten.length := by
  induction css generalizing calls n with
  | nil =>
    have := congrArg List.length keys
    simp at this
    simp [this]
  | cons cs css ih =>
    have le := ih (mergeAll_keys cs keys)
    simp only [List.foldl_cons, List.flatten_cons, List.length_append]
    omega

/-- The calls come out as they went in just when one chunk at most carried calls. -/
theorem merged_iff (css : List (List ToolCall)) (some_ : ∀ cs ∈ css, cs ≠ []) :
    (css.foldl mergeAll []).map Prod.snd = css.flatten.map (fun c => (c.function.name, c.function.arguments)) ↔
      css.length ≤ 1 := by
  match css, some_ with
  | [], _ => simp
  | [cs], _ =>
    have empty : ([] : List (Nat × Text × Text)).map Prod.fst = List.range 0 := rfl
    have whole := merge_new cs empty
    have same : (cs.zipIdx.map entryOf).map Prod.snd = cs.map fun c => (c.function.name, c.function.arguments) := by
      rw [List.map_map]
      have step : (Prod.snd ∘ entryOf) = (fun c : ToolCall => (c.function.name, c.function.arguments)) ∘ Prod.fst := rfl
      rw [step, ← List.map_map, List.zipIdx_map_fst]
    simp only [List.foldl_cons, List.foldl_nil, mergeAll, whole, List.nil_append, same]
    simp
  | first :: second :: css, some_ =>
    have pos₁ := List.length_pos_iff.mpr (some_ first (by simp))
    have pos₂ := List.length_pos_iff.mpr (some_ second (by simp))
    have empty : ([] : List (Nat × Text × Text)).map Prod.fst = List.range 0 := rfl
    have keys := mergeAll_keys second (mergeAll_keys first empty)
    have le := foldl_mergeAll_length css keys
    constructor
    · intro same
      have length := congrArg List.length same
      simp only [List.foldl_cons, List.length_map, List.flatten_cons, List.length_append] at length
      omega
    · intro short
      simp at short

end Assembly

end Vapi.Gateway
