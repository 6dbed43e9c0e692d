import Vapi.Gateway.CacheKey

/-!
# Which requests a key tells apart

A key runs its fields together, and only some of them say where they end.
-/

namespace Vapi.Gateway.Asked

open Proto Cache

variable {print : Json → String} {r s : Asked}

/-- The numbers are of the source's types. -/
structure Sized (p : SamplingParams) : Prop where
  finite : ∀ f ∈ [p.temperature, p.topP, p.minP, p.repetitionPenalty, p.frequencyPenalty, p.presencePenalty],
    Binary32.Finite f
  topK : ∀ k ∈ p.topK, k ≤ usizeMax
  maxTokens : p.maxTokens ≤ usizeMax
  ids : p.stop.stopTokenIds.length ≤ usizeMax

/-- Everything that can influence an answer is the same. No bound on the candidates is the largest one, and a
marker that is empty is none. -/
structure Agree (r s : Asked) : Prop where
  fingerprint : r.fingerprint = s.fingerprint
  caller : r.caller = s.caller
  kind : r.kind = s.kind
  prompt : r.prompt = s.prompt
  temperature : r.params.temperature = s.params.temperature
  topP : r.params.topP = s.params.topP
  topK : r.params.topK.getD usizeMax = s.params.topK.getD usizeMax
  minP : r.params.minP = s.params.minP
  repetitionPenalty : r.params.repetitionPenalty = s.params.repetitionPenalty
  frequencyPenalty : r.params.frequencyPenalty = s.params.frequencyPenalty
  presencePenalty : r.params.presencePenalty = s.params.presencePenalty
  maxTokens : r.params.maxTokens = s.params.maxTokens
  choices : max r.params.n 1 = max s.params.n 1
  seed : r.params.seed = s.params.seed
  logprobs : r.params.logprobs = s.params.logprobs
  responseFormat : r.params.responseFormat = s.params.responseFormat
  constraintStartsAfter : r.params.constraintStartsAfter.getD "" = s.params.constraintStartsAfter.getD ""
  stop : r.params.stop = s.params.stop

/-- Neither is the beginning of the other and more. -/
def Unbegun (a b : List UInt8) : Prop := a <+: b ∨ b <+: a → a = b

/-- The bytes of the fields that vary in length. -/
def varying (print : Json → String) (r : Asked) : Nat :=
  4 * r.prompt.length + (schemaText print r.params.responseFormat).length +
    (utf8 (r.params.constraintStartsAfter.getD "")).length + (stopBytes r.params.stop.stopStrings).length +
    4 * r.params.stop.stopTokenIds.length

/-- The fields end in both at the same places, or where what is in them says so. -/
structure Marked (print : Json → String) (r s : Asked) : Prop where
  prompt : r.prompt.length = s.prompt.length
  schema : Unbegun (schemaText print r.params.responseFormat) (schemaText print s.params.responseFormat)
  marker : Unbegun (utf8 (r.params.constraintStartsAfter.getD "")) (utf8 (s.params.constraintStartsAfter.getD ""))
  stops : ∀ stop ∈ r.params.stop.stopStrings ++ s.params.stop.stopStrings, 0 ∉ stopText stop
  ids : r.params.stop.stopTokenIds.length = s.params.stop.stopTokenIds.length
  trims : r.params.stop.includeStopStr = s.params.stop.includeStopStr

/-- A key can tell the requests apart: fingerprints and namespaces have no zero byte, and two requests that have
them and the kind in common are marked, or of different sizes. -/
structure Told (print : Json → String) (r s : Asked) : Prop where
  fingerprint : 0 ∉ utf8 r.fingerprint ∧ 0 ∉ utf8 s.fingerprint
  caller : 0 ∉ utf8 r.caller ∧ 0 ∉ utf8 s.caller
  rest : r.fingerprint = s.fingerprint → r.caller = s.caller → r.kind = s.kind →
    Marked print r s ∨ varying print r ≠ varying print s

theorem Sized.topK_lt {p : SamplingParams} (sized : Sized p) : p.topK.getD usizeMax < 256 ^ 8 := by
  cases is : p.topK with
  | none => decide
  | some k => exact Nat.lt_succ_of_le (sized.topK k is)

theorem append_unbegun {a b x y : List UInt8} (unbegun : Unbegun a b) (same : a ++ x = b ++ y) : a = b ∧ x = y := by
  have begun : a <+: b ∨ b <+: a :=
    List.prefix_or_prefix_of_prefix (List.prefix_append a x) (same ▸ List.prefix_append b y)
  obtain rfl := unbegun begun
  exact ⟨rfl, List.append_cancel_left same⟩

theorem append_nul {a b x y : List UInt8} (ha : 0 ∉ a) (hb : 0 ∉ b) (same : a ++ 0 :: x = b ++ 0 :: y) :
    a = b ∧ x = y := by
  induction a generalizing b with
  | nil =>
    cases b with
    | nil => exact ⟨rfl, (List.cons.inj same).2⟩
    | cons c b => exact absurd ((List.cons.inj same).1 ▸ List.mem_cons_self) hb
  | cons c a ih =>
    cases b with
    | nil => exact absurd ((List.cons.inj same).1 ▸ List.mem_cons_self) ha
    | cons d b =>
      obtain ⟨rfl, rest⟩ := List.cons.inj same
      obtain ⟨rfl, tails⟩ := ih (fun mem => ha (.tail _ mem)) (fun mem => hb (.tail _ mem)) rest
      exact ⟨rfl, tails⟩

theorem tokenBytes_length (tokens : List Token) : (tokenBytes tokens).length = 4 * tokens.length := by
  induction tokens with
  | nil => rfl
  | cons t tokens ih =>
    rw [tokenBytes, List.flatMap_cons, List.length_append, leBytes_length, ← tokenBytes, ih, List.length_cons]
    omega

theorem numbers_length (p : SamplingParams) : (numbers p).length = 40 := by
  simp [numbers, leBytes_length]

theorem seedBytes_length (seed : Option UInt64) : (seedBytes seed).length = 9 := by
  simp [seedBytes, leBytes_length]

theorem stopText_inj {a b : Text} (same : stopText a = stopText b) : a = b :=
  String.ofList_inj.mp (utf8_inj same)

/-- Texts that end with the first zero byte. -/
theorem stopBytes_inj {xs ys : List Text} (free : ∀ stop ∈ xs ++ ys, 0 ∉ stopText stop)
    (same : stopBytes xs = stopBytes ys) : xs = ys := by
  induction xs generalizing ys with
  | nil =>
    cases ys with
    | nil => rfl
    | cons y ys => simp [stopBytes] at same
  | cons x xs ih =>
    cases ys with
    | nil => simp [stopBytes] at same
    | cons y ys =>
      simp only [stopBytes, List.flatMap_cons, List.append_assoc, List.singleton_append] at same
      obtain ⟨first, rest⟩ := append_nul (free x (by simp)) (free y (by simp)) same
      have free' : ∀ stop ∈ xs ++ ys, 0 ∉ stopText stop := by
        intro stop mem
        refine free stop ?_
        rw [List.mem_append] at mem
        rcases mem with mem | mem <;> simp [mem]
      rw [stopText_inj first, ih free' rest]

theorem seedBytes_inj {a b : Option UInt64} (same : seedBytes a = seedBytes b) : a = b := by
  obtain ⟨word, flag⟩ := List.append_inj same (by simp [leBytes_length])
  cases a with
  | none =>
    cases b with
    | none => rfl
    | some b => simp at flag
  | some a =>
    cases b with
    | none => simp at flag
    | some b =>
      have flipped := leBytes_inj (w := 8) (a ^^^ 1).toNat_lt (b ^^^ 1).toNat_lt word
      have back := congrArg (· ^^^ 1) (UInt64.toNat_inj.mp flipped)
      simpa [UInt64.xor_assoc] using back

/-- The numbers are told by their bytes. -/
theorem numbers_inj {p q : SamplingParams} (hp : Sized p) (hq : Sized q) (same : numbers p = numbers q) :
    [p.temperature, p.topP, p.minP, p.repetitionPenalty, p.frequencyPenalty, p.presencePenalty] =
        [q.temperature, q.topP, q.minP, q.repetitionPenalty, q.frequencyPenalty, q.presencePenalty] ∧
      p.topK.getD usizeMax = q.topK.getD usizeMax ∧ p.maxTokens = q.maxTokens := by
  have bits : ∀ {a b : ℚ} {x y : List UInt8}, Binary32.Finite a → Binary32.Finite b →
      leBytes 4 (Binary32.bits a) ++ x = leBytes 4 (Binary32.bits b) ++ y → a = b ∧ x = y := by
    intro a b x y ha hb run
    obtain ⟨word, rest⟩ := List.append_inj run (by simp [leBytes_length])
    have spelled := leBytes_inj (w := 4) (Binary32.bits_lt ha) (Binary32.bits_lt hb) word
    exact ⟨Binary32.bits_injOn ha hb spelled, rest⟩
  simp only [numbers, List.flatMap_cons, List.flatMap_nil, List.append_assoc, List.nil_append] at same
  obtain ⟨e₁, same⟩ := bits (hp.finite _ (by simp)) (hq.finite _ (by simp)) same
  obtain ⟨e₂, same⟩ := bits (hp.finite _ (by simp)) (hq.finite _ (by simp)) same
  obtain ⟨e₃, same⟩ := bits (hp.finite _ (by simp)) (hq.finite _ (by simp)) same
  obtain ⟨e₄, same⟩ := bits (hp.finite _ (by simp)) (hq.finite _ (by simp)) same
  obtain ⟨e₅, same⟩ := bits (hp.finite _ (by simp)) (hq.finite _ (by simp)) same
  obtain ⟨e₆, same⟩ := bits (hp.finite _ (by simp)) (hq.finite _ (by simp)) same
  obtain ⟨topK, maxTokens⟩ := List.append_inj same (by simp [leBytes_length])
  rw [e₁, e₂, e₃, e₄, e₅, e₆]
  exact ⟨rfl, leBytes_inj (w := 8) hp.topK_lt hq.topK_lt topK, leBytes_inj (w := 8) (Nat.lt_succ_of_le hp.maxTokens)
    (Nat.lt_succ_of_le hq.maxTokens) maxTokens⟩

theorem format_eq {a b : Option ResponseFormat}
    (printed : ∀ x y, a = some (.jsonSchema x) → b = some (.jsonSchema y) → print x = print y → x = y)
    (tag : formatTag a = formatTag b) (text : schemaText print a = schemaText print b) : a = b := by
  rcases a with _ | ⟨_ | a⟩ <;> rcases b with _ | ⟨_ | b⟩ <;> try first | rfl | cases tag
  rw [printed a b rfl rfl (utf8_inj text)]

theorem kind_eq {a b : JobKind} (same : utf8 a.debug = utf8 b.debug) : a = b := by
  have texts := utf8_inj same
  revert texts
  cases a <;> cases b <;> decide

theorem kind_nul (k : JobKind) : 0 ∉ utf8 k.debug := by
  cases k <;> decide +kernel

theorem stop_eq {a b : StopCondition} (ids : a.stopTokenIds = b.stopTokenIds) (stops : a.stopStrings = b.stopStrings)
    (trims : a.includeStopStr = b.includeStopStr) : a = b := by
  cases a
  cases b
  cases ids
  cases stops
  cases trims
  rfl

/-- What follows the kind in a layout. -/
def tailBytes (print : Json → String) (r : Asked) : List UInt8 :=
  tokenBytes r.prompt ++ 0 :: (numbers r.params ++ formatTag r.params.responseFormat ::
    (schemaText print r.params.responseFormat ++ (utf8 (r.params.constraintStartsAfter.getD "") ++
      (seedBytes r.params.seed ++ (stopBytes r.params.stop.stopStrings ++
        (leBytes 8 r.params.stop.stopTokenIds.length ++ tokenBytes r.params.stop.stopTokenIds))))))

theorem tailBytes_length (r : Asked) : (tailBytes print r).length = varying print r + 59 := by
  simp only [tailBytes, varying, List.length_append, List.length_cons, tokenBytes_length, numbers_length,
    seedBytes_length, leBytes_length]
  omega

/-- The fields of a tail, when they end where the other's do. -/
theorem tail_fields (printed : ∀ x y, r.params.responseFormat = some (.jsonSchema x) →
      s.params.responseFormat = some (.jsonSchema y) → print x = print y → x = y) (marked : Marked print r s) (same : tailBytes print r = tailBytes print s) :
    r.prompt = s.prompt ∧ numbers r.params = numbers s.params ∧
      r.params.responseFormat = s.params.responseFormat ∧
      r.params.constraintStartsAfter.getD "" = s.params.constraintStartsAfter.getD "" ∧
      r.params.seed = s.params.seed ∧ r.params.stop = s.params.stop := by
  obtain ⟨prompt, same⟩ := List.append_inj same (by rw [tokenBytes_length, tokenBytes_length, marked.prompt])
  obtain ⟨numbers_, same⟩ := List.append_inj (List.cons.inj same).2 (by rw [numbers_length, numbers_length])
  obtain ⟨tag, same⟩ := List.cons.inj same
  obtain ⟨schema, same⟩ := append_unbegun marked.schema same
  obtain ⟨marker, same⟩ := append_unbegun marked.marker same
  obtain ⟨seed, same⟩ := List.append_inj same (by rw [seedBytes_length, seedBytes_length])
  obtain ⟨stops, same⟩ := List.append_inj' same
    (by simp only [List.length_append, leBytes_length, tokenBytes_length, marked.ids])
  obtain ⟨-, ids⟩ := List.append_inj same (by rw [leBytes_length, leBytes_length])
  refine ⟨tokenBytes_inj marked.prompt prompt, numbers_, format_eq printed tag schema, utf8_inj marker,
    seedBytes_inj seed, ?_⟩
  exact stop_eq (tokenBytes_inj marked.ids ids) (stopBytes_inj marked.stops stops) marked.trims

/-- Requests a key can tell apart agree when they have one. -/
theorem agree_of_bytes (printed : ∀ x y, r.params.responseFormat = some (.jsonSchema x) →
      s.params.responseFormat = some (.jsonSchema y) → print x = print y → x = y)
    (hr : Sized r.params) (hs : Sized s.params) (cr : cacheable r.params) (cs : cacheable s.params) (told : Told print r s)
    (same : keyBytes print r = keyBytes print s) : Agree r s := by
  obtain ⟨fingerprint, same⟩ := append_nul told.fingerprint.1 told.fingerprint.2 same
  obtain ⟨caller, same⟩ := append_nul told.caller.1 told.caller.2 same
  obtain ⟨kind, same⟩ := append_nul (kind_nul r.kind) (kind_nul s.kind) same
  have fingerprint := utf8_inj fingerprint
  have caller := utf8_inj caller
  have kind := kind_eq kind
  have same : tailBytes print r = tailBytes print s := same
  have size := congrArg List.length same
  rw [tailBytes_length, tailBytes_length] at size
  have marked := (told.rest fingerprint caller kind).resolve_right fun differ => differ (Nat.add_right_cancel size)
  obtain ⟨prompt, numbers_, responseFormat, marker, seed, stop⟩ := tail_fields printed marked same
  obtain ⟨floats, topK, maxTokens⟩ := numbers_inj hr hs numbers_
  simp only [List.cons.injEq, and_true] at floats
  obtain ⟨temperature, topP, minP, repetitionPenalty, frequencyPenalty, presencePenalty⟩ := floats
  -- what is not hashed is what a cacheable request leaves alone
  simp only [cacheable, Bool.and_eq_true, Option.isNone_iff_eq_none, decide_eq_true_eq] at cr cs
  exact ⟨fingerprint, caller, kind, prompt, temperature, topP, topK, minP, repetitionPenalty, frequencyPenalty,
    presencePenalty, maxTokens, by omega, seed, cr.1.2.trans cs.1.2.symm, responseFormat, marker, stop⟩

/-- Requests that a key can tell apart share one only if they agree, and whatever the bucket goes through, an
answer is replayed only to requests that agree with the one it was made for. -/
theorem key_separates {H : Type} [DecidableEq H] (B : Blake3 H) (print : Json → String) {asked : Set Asked}
    (printed : Set.InjOn print {schema | ∃ r ∈ asked, r.params.responseFormat = some (.jsonSchema schema)})
    (free : Set.InjOn B.digest (keyBytes print '' asked))
    (sized : ∀ r ∈ asked, Sized r.params) (cached : ∀ r ∈ asked, cacheable r.params)
    (told : ∀ r ∈ asked, ∀ s ∈ asked, Told print r s) :
    (∀ r ∈ asked, ∀ s ∈ asked, r.key B print = s.key B print → Agree r s) ∧
      ∀ (ops : List (CacheOp H)), (∀ s entry, .put s entry ∈ ops → s ∈ asked) → ∀ r ∈ asked, ∀ entry,
        CacheOp.run B print ops (r.key B print) = some entry → ∃ s, .put s entry ∈ ops ∧ Agree s r := by
  have agree : ∀ r ∈ asked, ∀ s ∈ asked, r.key B print = s.key B print → Agree r s := by
    intro r hr s hs same
    have bytes := free (Set.mem_image_of_mem _ hr) (Set.mem_image_of_mem _ hs) same
    have schemas : ∀ x y, r.params.responseFormat = some (.jsonSchema x) →
        s.params.responseFormat = some (.jsonSchema y) → print x = print y → x = y :=
      fun x y hx hy => printed ⟨r, hr, hx⟩ ⟨s, hs, hy⟩
    exact agree_of_bytes schemas (sized r hr) (sized s hs) (cached r hr) (cached s hs) (told r hr s hs) bytes
  refine ⟨agree, ?_⟩
  intro ops puts r hr entry found
  obtain ⟨s, put, key⟩ := CacheOp.run_put found
  exact ⟨s, put, agree s (puts s entry put) r hr key⟩

section Example

/-- The text of a schema without keys, and of no other. -/
def printEmpty (_ : Json) : String := "\x7b\x7d"

def greedy (stops : List Text) : SamplingParams :=
  { temperature := 0, responseFormat := some (.jsonSchema (.object [])), stop := { stopStrings := stops } }

def askedBy (caller : String) (stops : List Text) : Asked := ⟨"model", caller, .chat, [1, 2, 3], greedy stops⟩

theorem greedy_sized (stops : List Text) : Sized (greedy stops) := by
  refine ⟨?_, nofun, ?_, Nat.zero_le _⟩
  case refine_2 => exact (by decide : 256 ≤ usizeMax)
  have zero : Binary32.Finite 0 := ⟨0, 0, by decide, by decide, by norm_num [Binary32.magnitude, Binary32.hidden]⟩
  have one : Binary32.Finite 1 :=
    ⟨127, 0, by decide, by decide, by norm_num [Binary32.magnitude, Binary32.hidden, Binary32.unit]⟩
  simp [greedy, zero, one]

/-- One stop string with a zero byte in it, and the two it is made of. -/
theorem stops_run_together :
    let one := askedBy "alice" [['a', '\x00', 'b']]
    let two := askedBy "alice" [['a'], ['b']]
    cacheable one.params ∧ cacheable two.params ∧ Sized one.params ∧ Sized two.params ∧
      one.key Blake3.identity printEmpty = two.key Blake3.identity printEmpty ∧ ¬Agree one two :=
  ⟨by decide +kernel, by decide +kernel, greedy_sized _, greedy_sized _, by decide +kernel, fun agree => absurd agree.stop (by decide)⟩

theorem key_separates_callers :
    (askedBy "alice" [['a'], ['b']]).key Blake3.identity printEmpty ≠
      (askedBy "bob" [['a'], ['b']]).key Blake3.identity printEmpty := by
  have told : ∀ r ∈ ({askedBy "alice" [['a'], ['b']], askedBy "bob" [['a'], ['b']]} : Set Asked),
      ∀ s ∈ ({askedBy "alice" [['a'], ['b']], askedBy "bob" [['a'], ['b']]} : Set Asked), Told printEmpty r s := by
    have free : ∀ stop ∈ [['a'], ['b']] ++ [['a'], ['b']], 0 ∉ stopText stop := by decide +kernel
    have marked : ∀ caller, Marked printEmpty (askedBy caller [['a'], ['b']]) (askedBy caller [['a'], ['b']]) :=
      fun _ => ⟨rfl, fun _ => rfl, fun _ => rfl, free, rfl, rfl⟩
    rintro r (rfl | rfl) s (rfl | rfl)
    · exact ⟨by decide +kernel, by decide +kernel, fun _ _ _ => .inl (marked _)⟩
    · exact ⟨by decide +kernel, by decide +kernel, fun _ caller => absurd caller (by decide)⟩
    · exact ⟨by decide +kernel, by decide +kernel, fun _ caller => absurd caller (by decide)⟩
    · exact ⟨by decide +kernel, by decide +kernel, fun _ _ _ => .inl (marked _)⟩
  have schemas : ∀ {x}, (∃ r ∈ ({askedBy "alice" [['a'], ['b']], askedBy "bob" [['a'], ['b']]} : Set Asked),
      r.params.responseFormat = some (.jsonSchema x)) → x = .object [] := by
    rintro x ⟨r, rfl | rfl, is⟩ <;> cases is <;> rfl
  intro same
  have agree := (key_separates Blake3.identity printEmpty (fun x hx y hy _ => (schemas hx).trans (schemas hy).symm)
    (Set.injOn_id _) (by rintro r (rfl | rfl) <;> exact greedy_sized _)
    (by rintro r (rfl | rfl) <;> decide +kernel) told).1 _ (.inl rfl) _ (.inr rfl) same
  exact absurd agree.caller (by decide)

end Example

end Vapi.Gateway.Asked
