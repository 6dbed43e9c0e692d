import Vapi.Structured.Reading

/-!
# What the machine accepts

Undone step by step, an accepted text is one that completes the machine at its
start: a JSON text, but for leading zeros, and one its schema admits wherever
keys and options were read as what they denote.
-/

namespace Vapi.Structured

open JsonGrammar (Value Reads Chars Ws Ends isWs isHex units denoted)
open Document (canonical)

section Nodes

variable {nodes : List Node} {told : Prop} {id : Option Nat} {n : Node} {v : Value}

theorem Fits.none_ : Fits nodes told none v := by
  intro _ n shape e
  cases e

theorem fits_any {k : Nat} (e : nodes[k]? = some .any) : Fits nodes told (some k) v := by
  intro _ n shape same shows_
  obtain rfl := Option.some.inj same
  obtain rfl := shows_.roots e
  exact .any

theorem declared_congr {α β : Type} {ps : List (Text × α)} {qs : List (Text × β)}
    (h : ps.map Prod.fst = qs.map Prod.fst) (k : List Nat) : declared ps k = declared qs k := by
  have onNames := congrArg (List.findIdx? fun name => decide (units name = k)) h
  rw [List.findIdx?_map, List.findIdx?_map] at onNames
  exact onNames

/-- An object that obeys its node from the start is admitted. -/
theorem Obeys.fits {ms : List (List Nat × Value)} {k : Nat} {children : List (Text × Nat)} {required : List Nat}
    {additional : Bool} (e : nodes[k]? = some (.object children required additional))
    (h : Obeys nodes told (some k) [] ms) : Fits nodes told (some k) (.obj ms) := by
  intro hold n shape same shows_
  obtain rfl := Option.some.inj same
  obtain ⟨fits, once, -, present, closed⟩ := h hold k _ _ _ rfl e
  obtain ⟨properties, rfl, names, shown, -⟩ := shows_.roots e
  have same : ∀ key, declared properties key = declared children key := declared_congr names
  have occur : occurring properties ms = occurring children ms := by
    unfold occurring
    simp only [same]
  refine .object (fun m hm i name shape hi hs => ?_) (occur ▸ once) (fun i hi => ?_) (fun none_ m hm => ?_)
  · have named : (children[i]?).map Prod.fst = some name := by
      rw [← List.getElem?_map, ← names, List.getElem?_map, hs]
      rfl
    obtain ⟨⟨_, child⟩, hc, rfl⟩ := Option.map_eq_some_iff.mp named
    exact fits m hm i _ child ((same m.1).symm.trans hi) hc hold child shape rfl (shown i _ child shape hc hs)
  · rw [occur]
    exact (present i hi).resolve_left (by simp)
  · rw [same]
    exact closed none_ m hm

theorem fits_array {k items : Nat} (e : nodes[k]? = some (.array items)) {vs : List Value}
    (h : ∀ v ∈ vs, Fits nodes told (some items) v) : Fits nodes told (some k) (.arr vs) := by
  intro hold n shape same shows_
  obtain rfl := Option.some.inj same
  obtain ⟨inner, rfl, shown⟩ := shows_.roots e
  exact .array fun v hv => h v hv hold _ _ rfl shown

/-- An option read as it is written is one of the listed values. -/
theorem fits_choice {k : Nat} {options : List Text} (e : nodes[k]? = some (.choice options)) {d : Document}
    (listed : canonical d ∈ options) : Fits nodes told (some k) d.value := by
  intro _ n shape same shows_
  obtain rfl := Option.some.inj same
  obtain ⟨docs, rfl, -, rfl⟩ := shows_.roots e
  obtain ⟨d', hd', same⟩ := List.mem_map.mp listed
  have reads := Document.canonical_reads Document.faithful_id d [] (by simp [JsonGrammar.Ends])
  have reads' := Document.canonical_reads Document.faithful_id d' [] (by simp [JsonGrammar.Ends])
  rw [same] at reads'
  rw [Document.value, (reads.unique reads').1]
  exact .choice hd'

end Nodes

section Obeying

variable {nodes : List Node} {children : List (Text × Nat)} {required seen : List Nat} {additional : Bool}
  {ms : List (List Nat × Value)} {k : List Nat} {v : Value}

theorem Obeying.named {i : Nat} (h : Obeying nodes told children required additional (seen ++ [i]) ms)
    (names : declared children k = some i) (fresh : i ∉ seen)
    (fits : ∀ name child, children[i]? = some (name, child) → Fits nodes told (some child) v) :
    Obeying nodes told children required additional seen ((k, v) :: ms) := by
  have occur : occurring children ((k, v) :: ms) = i :: occurring children ms := List.filterMap_cons_some names
  refine ⟨fun m hm j name child hj hc => ?_, ?_, fun j hj => ?_, fun j hj => ?_, fun none_ m hm => ?_⟩
  · rcases List.mem_cons.mp hm with rfl | hm
    · obtain rfl := Option.some.inj (names.symm.trans hj)
      exact fits name child hc
    · exact h.fits m hm j name child hj hc
  · rw [occur, List.nodup_cons]
    exact ⟨fun again => h.fresh i again (by simp), h.once⟩
  · rw [occur] at hj
    rcases List.mem_cons.mp hj with rfl | hj
    · exact fresh
    · exact fun seen_ => h.fresh j hj (by simp [seen_])
  · rw [occur, List.mem_cons]
    rcases h.present j hj with seen_ | later
    · rcases List.mem_append.mp seen_ with seen_ | here
      · exact .inl seen_
      · exact .inr (.inl (List.mem_singleton.mp here))
    · exact .inr (.inr later)
  · rcases List.mem_cons.mp hm with rfl | hm
    · rw [names]
      rfl
    · exact h.closed none_ m hm

theorem Obeying.unnamed (h : Obeying nodes told children required additional seen ms)
    (names : declared children k = none) (free : additional = true) :
    Obeying nodes told children required additional seen ((k, v) :: ms) := by
  have occur : occurring children ((k, v) :: ms) = occurring children ms := List.filterMap_cons_none names
  refine ⟨fun m hm j name child hj hc => ?_, occur ▸ h.once, occur ▸ h.fresh, occur ▸ h.present, fun none_ => ?_⟩
  · rcases List.mem_cons.mp hm with rfl | hm
    · cases names.symm.trans hj
    · exact h.fits m hm j name child hj hc
  · rw [free] at none_
    cases none_

end Obeying

namespace Machine

section Steps

variable {nodes : List Node} {told : Prop} {m m' : Machine} {f : Frame} {rest : List Frame} {c : Char} {t r : Text}

@[simp] theorem setTop_stack (m : Machine) (f : Frame) : (m.setTop f).stack = f :: m.stack.tail := rfl
@[simp] theorem setTop_done (m : Machine) (f : Frame) : (m.setTop f).done = m.done := rfl
@[simp] theorem setTop_schema (m : Machine) (f : Frame) : (m.setTop f).schema = m.schema := rfl

theorem completes_iff (open_ : m.done = false) (e : m.stack = f :: rest) :
    m.Completes nodes told t ↔ ∃ r, f.Finishes nodes told t r ∧ Under nodes told rest r := by
  unfold Completes
  rw [open_, e]
  rfl

theorem setTop_completes (open_ : m.done = false) :
    (m.setTop f).Completes nodes told t ↔ ∃ r, f.Finishes nodes told t r ∧ Under nodes told m.stack.tail r :=
  completes_iff open_ rfl

theorem withStack_completes {fs : List Frame} (open_ : m.done = false) :
    ({ m with stack := f :: fs } : Machine).Completes nodes told t ↔
      ∃ r, f.Finishes nodes told t r ∧ Under nodes told fs r :=
  completes_iff (m := { m with stack := f :: fs }) open_ rfl

theorem finishValue_schema (h : m.finishValue = some m') : m'.schema = m.schema := by
  unfold finishValue at h
  split at h
  · rw [← Option.some.inj h]
  · rw [← Option.some.inj h]
  · rw [← Option.some.inj h]
  · cases h

/-- A finished value leaves what is under it. -/
theorem finishValue_completes (open_ : m.done = false) (h : m.finishValue = some m')
    (completes : m'.Completes nodes told t) : Under nodes told m.stack.tail t := by
  unfold finishValue at h
  split at h
  · rename_i e
    obtain rfl := Option.some.inj h
    rw [e]
    exact completes
  · rename_i o below e
    rw [← Option.some.inj h] at completes
    rw [e]
    exact (withStack_completes open_).mp completes
  · rename_i a below e
    rw [← Option.some.inj h] at completes
    rw [e]
    exact (withStack_completes open_).mp completes
  · cases h

theorem settleWord_schema (h : m.settleWord = some m') : m'.schema = m.schema := by
  unfold settleWord at h
  split at h
  · split at h
    · exact finishValue_schema h
    · rw [← Option.some.inj h]
  · rw [← Option.some.inj h]

theorem settleWord_completes (open_ : m.done = false) (h : m.settleWord = some m')
    (completes : m'.Completes nodes told t) : m.Completes nodes told t := by
  unfold settleWord at h
  split at h
  · rename_i alts matched below e
    split at h
    · rename_i whole
      have under := finishValue_completes open_ h completes
      rw [e] at under
      obtain ⟨a, listed, length⟩ := List.any_eq_true.mp whole
      have ended : (byteChars a).drop matched = [] := by
        rw [← of_decide_eq_true length, ← length_byteChars, List.drop_length]
      refine (completes_iff open_ e).mpr ⟨t, ⟨a, listed, ?_, fun _ => ?_⟩, under⟩
      · rw [ended]
        rfl
      · rw [ended]
        simp
    · rw [Option.some.inj h]
      exact completes
  · rw [Option.some.inj h]
    exact completes

theorem node_eq {id : Option Nat} {n : Node} (h : m.node id = some n) : ∃ k, id = some k ∧ m.schema.nodes[k]? = some n :=
  Option.bind_eq_some_iff.mp h

end Steps

section Start

variable {nodes : List Node} {told : Prop} {k : Nat} {n : Node} {f : Frame} {c : Char} {t r : Text}

/-- A frame that a value's first character begins, finished, is that value. -/
theorem allowed_reads (e : nodes[k]? = some n) (h : allowed n c = some f) (finishes : f.Finishes nodes told t r)
    (ends : Ends r) : ∃ v, Reads false .value (c :: t) v r ∧ Fits nodes told (some k) v := by
  have literal : ∀ {word : Text} {v : Value}, (∀ x ∈ word, x.toNat < 0x80) → f = .word [word] 1 →
      (∀ r, Reads false .value (word ++ r) v r) → word.head? = some c → Reads false .value (c :: t) v r := by
    intro word v ascii word_ reads head
    subst word_
    obtain ⟨a, listed, rfl, -⟩ := finishes
    rw [List.mem_singleton.mp listed, byteChars_ascii ascii]
    obtain ⟨l, rfl⟩ := List.head?_eq_some_iff.mp head
    exact reads r
  unfold allowed at h
  split at h
  · rename_i string
    obtain ⟨kind, rfl⟩ := string
    obtain rfl := Option.some.inj h
    obtain ⟨us, chars⟩ := finishes (Nat.zero_le 5)
    refine ⟨.str us, .str chars, ?_⟩
    rcases kind with rfl | rfl
    · exact fits_any e
    · intro _ _ shape same shows_
      obtain rfl := Option.some.inj same
      obtain rfl := shows_.roots e
      exact .str
  split at h
  · rename_i object
    obtain ⟨rfl, rfl⟩ := object
    obtain rfl := Option.some.inj h
    rcases finishes with ⟨close, -⟩ | ⟨ms, members, -⟩
    · exact ⟨_, .emptyObject close, fits_any e⟩
    · exact ⟨_, .object members, fits_any e⟩
  split at h
  · rename_i array
    obtain ⟨rfl, rfl⟩ := array
    obtain rfl := Option.some.inj h
    rcases finishes with close | ⟨vs, elements, -⟩
    · exact ⟨_, .emptyArray close, fits_any e⟩
    · exact ⟨_, .array elements, fits_any e⟩
  split at h
  · rename_i number
    obtain ⟨kind, first⟩ := number
    obtain rfl := Option.some.inj h
    obtain ⟨lit, rfl, tail⟩ := finishes
    obtain ⟨number, integral⟩ := NumberFrame.start_tail first tail
    refine ⟨.num (c :: lit), .num number ends rfl, ?_⟩
    rcases kind with rfl | kind
    · exact fits_any e
    · intro _ _ shape same shows_
      obtain rfl := Option.some.inj same
      rcases kind with rfl | rfl
      · obtain rfl := shows_.roots e
        exact .number fun _ => integral (by simp)
      · obtain rfl := shows_.roots e
        exact .number fun real => by cases real
  have bool : n = .any ∨ n = .bool → ∀ b, Fits nodes told (some k) (.bool b) := by
    rintro (rfl | rfl) b
    · exact fits_any e
    · intro _ _ shape same shows_
      obtain rfl := Option.some.inj same
      obtain rfl := shows_.roots e
      exact .bool
  split at h
  · rename_i true_
    obtain ⟨kind, rfl⟩ := true_
    exact ⟨_, literal (by simp) (Option.some.inj h).symm (fun _ => .true_) rfl, bool kind _⟩
  split at h
  · rename_i false_
    obtain ⟨kind, rfl⟩ := false_
    exact ⟨_, literal (by simp) (Option.some.inj h).symm (fun _ => .false_) rfl, bool kind _⟩
  split at h
  · rename_i null
    obtain ⟨kind, rfl⟩ := null
    refine ⟨_, literal (by simp) (Option.some.inj h).symm (fun _ => .null) rfl, ?_⟩
    rcases kind with rfl | rfl
    · exact fits_any e
    · intro _ _ shape same shows_
      obtain rfl := Option.some.inj same
      obtain rfl := shows_.roots e
      exact .null
  · cases h

theorem startFrame_reads (e : nodes[k]? = some n) (written : n.Written) (h : startFrame (some k) n c = some f)
    (finishes : f.Finishes nodes told t r) (ends : Ends r) :
    ∃ v, Reads false .value (c :: t) v r ∧ Fits nodes told (some k) v := by
  unfold startFrame at h
  cases n with
  | object children required additional =>
    simp only at h
    split at h
    · rename_i brace
      subst brace
      obtain rfl := Option.some.inj h
      rcases finishes with ⟨close, obeys⟩ | ⟨ms, members, obeys⟩
      · exact ⟨_, .emptyObject close, obeys.fits e⟩
      · exact ⟨_, .object members, obeys.fits e⟩
    · exact allowed_reads e h finishes ends
  | array items =>
    simp only at h
    split at h
    · rename_i bracket
      subst bracket
      obtain rfl := Option.some.inj h
      rcases finishes with close | ⟨vs, elements, fits⟩
      · exact ⟨_, .emptyArray close, fits_array e (by simp)⟩
      · exact ⟨_, .array elements, fits_array e fits⟩
    · exact allowed_reads e h finishes ends
  | choice options =>
    simp only at h
    split at h
    · cases h
    obtain rfl := Option.some.inj h
    obtain ⟨a, listed, rfl, ascii⟩ := finishes
    obtain ⟨option, head⟩ := List.mem_filter.mp listed
    obtain ⟨docs, rfl⟩ := written
    obtain ⟨d, -, rfl⟩ := List.mem_map.mp option
    obtain ⟨first, l, text, starts⟩ := canonical_starts d
    have small := startsValue_ascii starts
    rw [text, List.head?_cons, decide_eq_true_eq, Option.some.injEq] at head
    subst head
    have split : first :: (byteChars (canonical d)).drop 1 = byteChars (canonical d) := by
      rw [byteChars_eq, text, Document.flatMap_cons_ascii faithful_latin small]
      rfl
    rw [← List.cons_append, split]
    by_cases hold : told
    · have all : ∀ c ∈ byteChars (canonical d), c.toNat < 0x80 := by
        rw [← split]
        intro c hc
        rcases List.mem_cons.mp hc with rfl | hc
        · exact small
        · exact ascii hold c hc
      have reads := (Document.canonical_reads Document.faithful_id d r ends).lax
      rw [List.flatMap_singleton'] at reads
      rw [byteChars_ascii (ascii_of_byteChars all)]
      exact ⟨_, reads, fits_choice e option⟩
    · rw [byteChars_eq]
      exact ⟨_, (Document.canonical_reads faithful_latin d r ends).lax, fun yes => absurd yes hold⟩
  | any | str | number | bool | null => exact allowed_reads e h finishes ends

end Start

section Undo

variable {told : Prop} {m m' : Machine} {rest : List Frame} {c : Char} {t : Text}

/-- The step has not changed the schema, and puts its character in front of
what completes the machine. -/
def Undone (told : Prop) (m m' : Machine) (c : Char) : Prop :=
  m'.schema = m.schema ∧ ∀ t, m'.Completes m.schema.nodes told t → m.Completes m.schema.nodes told (c :: t)

theorem startValue_undone {id : Option Nat} (open_ : m.done = false) (e : m.stack = .value id :: rest)
    (written : Written m.schema.nodes) (h : m.startValue id c = some m') : Undone told m m' c := by
  unfold startValue at h
  split at h
  · rename_i ws
    obtain rfl := Option.some.inj h
    refine ⟨rfl, fun t completes => ?_⟩
    obtain ⟨r, ⟨t₁, v, before, reads, fits⟩, under⟩ := (completes_iff open_ e).mp completes
    exact (completes_iff open_ e).mpr ⟨r, ⟨t₁, v, .cons ws before, reads, fits⟩, under⟩
  · obtain ⟨n, node, begun⟩ := Option.bind_eq_some_iff.mp h
    obtain ⟨f, frame, settled⟩ := Option.bind_eq_some_iff.mp begun
    obtain ⟨k, rfl, at_⟩ := node_eq node
    refine ⟨(settleWord_schema settled :), fun t completes => ?_⟩
    obtain ⟨r, finishes, under⟩ := (setTop_completes open_).mp (settleWord_completes open_ settled completes)
    rw [e] at under
    obtain ⟨v, reads, fits⟩ := startFrame_reads at_ (written n (List.mem_of_getElem? at_)) frame finishes under.ends
    exact (completes_iff open_ e).mpr ⟨r, ⟨_, v, .nil, reads, fits⟩, under⟩

theorem nextEscape_le {escape : Nat} (few : escape ≤ 5) : nextEscape escape c ≤ 5 := by
  unfold nextEscape
  split
  · split <;> omega
  · omega

/-- A character allowed in an escape goes on with it. -/
theorem escape_chars {escape : Nat} {us : List Nat} {r : Text} (ok : escapeOk escape c) (some_ : 0 < escape)
    (few : escape ≤ 5) (h : Chars (pending (nextEscape escape c) ++ t) us r) :
    ∃ us, Chars (pending escape ++ c :: t) us r := by
  unfold escapeOk at ok
  unfold nextEscape at h
  by_cases first : escape = 5
  · subst first
    rw [if_pos rfl] at ok h
    by_cases unicode : c = 'u'
    · subst unicode
      exact ⟨us, h⟩
    · rw [if_neg unicode] at h
      have simple : ∃ u, JsonGrammar.simpleEscape c = some u := by
        simp only [List.mem_cons, List.not_mem_nil, or_false, decide_eq_true_eq] at ok
        rcases ok with rfl | rfl | rfl | rfl | rfl | rfl | rfl | rfl | rfl
        all_goals first | exact ⟨_, rfl⟩ | exact absurd rfl unicode
      obtain ⟨u, simple⟩ := simple
      exact ⟨u :: us, .escape simple h⟩
  · rw [if_neg first] at ok h
    -- one of the digits made up is replaced by the one read
    obtain rfl | rfl | rfl | rfl : escape = 4 ∨ escape = 3 ∨ escape = 2 ∨ escape = 1 := by omega
    · cases h with
      | plain p => exact absurd rfl p.2.2
      | escape e => cases e
      | unicode _ hb hc hd rest => exact ⟨_, .unicode ok hb hc hd rest⟩
    · cases h with
      | plain p => exact absurd rfl p.2.2
      | escape e => cases e
      | unicode ha _ hc hd rest => exact ⟨_, .unicode ha ok hc hd rest⟩
    · cases h with
      | plain p => exact absurd rfl p.2.2
      | escape e => cases e
      | unicode ha hb _ hd rest => exact ⟨_, .unicode ha hb ok hd rest⟩
    · exact ⟨_, .unicode (a := '0') (b := '0') (c := '0') rfl rfl rfl ok h⟩

theorem inString_undone {escape len : Nat} (open_ : m.done = false) (e : m.stack = .str escape len :: rest)
    (h : m.inString escape len c = some m') : Undone told m m' c := by
  have goes_on : ∀ e', m' = m.setTop (.str e' (len + 1)) → (escape ≤ 5 → e' ≤ 5) →
      (escape ≤ 5 → ∀ t us r, Chars (pending e' ++ t) us r → ∃ us, Chars (pending escape ++ c :: t) us r) →
      Undone told m m' c := by
    rintro e' rfl few' chars
    refine ⟨rfl, fun t completes => ?_⟩
    obtain ⟨r, finishes, under⟩ := (setTop_completes open_).mp completes
    rw [e] at under
    refine (completes_iff open_ e).mpr ⟨r, fun few => ?_, under⟩
    obtain ⟨us, rest⟩ := finishes (few' few)
    exact chars few t us r rest
  unfold inString at h
  split at h
  · cases h
  split at h
  · rename_i some_
    split at h
    · rename_i ok
      exact goes_on _ (Option.some.inj h).symm nextEscape_le fun few t us r rest => escape_chars ok some_ few rest
    · cases h
  rename_i none_
  obtain rfl : escape = 0 := by omega
  split at h
  · rename_i quote
    subst quote
    refine ⟨finishValue_schema h, fun t completes => ?_⟩
    have under := finishValue_completes open_ h completes
    rw [e] at under
    exact (completes_iff open_ e).mpr ⟨t, fun _ => ⟨[], .close⟩, under⟩
  rename_i noquote
  split at h
  · rename_i backslash
    subst backslash
    exact goes_on _ (Option.some.inj h).symm (fun _ => Nat.le_refl 5) fun _ t us r rest => ⟨us, rest⟩
  rename_i nobackslash
  split at h
  · cases h
  · rename_i printable
    exact goes_on _ (Option.some.inj h).symm (fun _ => Nat.zero_le 5) fun _ t us r rest =>
      ⟨_, .plain ⟨Nat.not_lt.mp printable, noquote, nobackslash⟩ rest⟩

theorem inWord_undone {alts : List Text} {matched : Nat} (open_ : m.done = false) (e : m.stack = .word alts matched :: rest)
    (ascii : told → c.toNat < 0x80) (h : m.inWord alts matched c = some m') : Undone told m m' c := by
  unfold inWord at h
  simp only at h
  split at h
  · cases h
  refine ⟨(settleWord_schema h :), fun t completes => ?_⟩
  obtain ⟨r, ⟨a, listed, rfl, wide⟩, under⟩ := (setTop_completes open_).mp (settleWord_completes open_ h completes)
  rw [e] at under
  obtain ⟨listed, next⟩ := List.mem_filter.mp listed
  have here : (byteChars a)[matched]? = some c := by
    rw [byteChars, List.getElem?_map]
    exact of_decide_eq_true next
  obtain ⟨lt, here⟩ := List.getElem?_eq_some_iff.mp here
  have drop : (byteChars a).drop matched = c :: (byteChars a).drop (matched + 1) := by
    rw [List.drop_eq_getElem_cons lt, here]
  refine (completes_iff open_ e).mpr ⟨r, ⟨a, listed, ?_, fun hold x hx => ?_⟩, under⟩
  · rw [drop]
    rfl
  · rw [drop] at hx
    rcases List.mem_cons.mp hx with rfl | hx
    · exact ascii hold
    · exact wide hold x hx

theorem inNumber_undone {again : Machine → Char → Option Machine} {n : NumberFrame} (open_ : m.done = false)
    (e : m.stack = .number n :: rest)
    (undone : ∀ m₁, m.finishValue = some m₁ → again m₁ c = some m' → Undone told m₁ m' c)
    (h : m.inNumber again n c = some m') : Undone told m m' c := by
  rcases inNumber_cases h with ⟨n', rfl, tail⟩ | ⟨complete, m₁, finished, h⟩
  · refine ⟨rfl, fun t completes => ?_⟩
    obtain ⟨r, ⟨lit, rfl, tail'⟩, under⟩ := (setTop_completes open_).mp completes
    rw [e] at under
    exact (completes_iff open_ e).mpr ⟨r, ⟨c :: lit, rfl, tail lit tail'⟩, under⟩
  · obtain ⟨schema, undo⟩ := undone m₁ finished h
    have same := finishValue_schema finished
    refine ⟨schema.trans same, fun t completes => ?_⟩
    rw [same] at undo
    have under := finishValue_completes open_ finished (undo t completes)
    rw [e] at under
    exact (completes_iff open_ e).mpr ⟨c :: t, ⟨[], rfl, NumberFrame.complete_tail complete⟩, under⟩

theorem inArray_undone {again : Machine → Char → Option Machine} {a : ArrayFrame} (open_ : m.done = false)
    (e : m.stack = .array a :: rest)
    (undone : ∀ m₁, again m₁ c = some m' → m₁.schema = m.schema → m₁.done = false →
      (∃ id below, m₁.stack = .value id :: below) → Undone told m₁ m' c)
    (h : m.inArray again a c = some m') : Undone told m m' c := by
  -- the character that begins an element is read as a value's on top
  have element : ∀ id, (a.items <|> m.anyNode) = some id →
      again { m with stack := .value (some id) :: .array { a with state := .value } :: m.stack.tail } c = some m' →
      m'.schema = m.schema ∧ ∀ t, m'.Completes m.schema.nodes told t →
        ∃ r, a.Finishes m.schema.nodes told .valueExpected (c :: t) r ∧ Under m.schema.nodes told rest r := by
    intro id items h
    obtain ⟨schema, undo⟩ := undone _ h rfl open_ ⟨_, _, rfl⟩
    refine ⟨schema, fun t completes => ?_⟩
    obtain ⟨r, ⟨t₁, v, ws, reads, fits⟩, r', ⟨vs, more, all⟩, under⟩ :=
      (withStack_completes open_).mp (undo t completes)
    rw [e] at under
    refine ⟨r', ⟨v :: vs, more.element ws reads, fun w hw => ?_⟩, under⟩
    rcases List.mem_cons.mp hw with rfl | hw
    · cases hi : a.items with
      | none => exact Fits.none_
      | some i =>
        rw [hi] at items
        obtain rfl := Option.some.inj items
        exact fits
    · exact all w hw
  have skip : isWs c → some m = some m' → Undone told m m' c := by
    intro ws same
    obtain rfl := Option.some.inj same
    refine ⟨rfl, fun t completes => ?_⟩
    obtain ⟨r, finishes, under⟩ := (completes_iff open_ e).mp completes
    exact (completes_iff open_ e).mpr ⟨r, ArrayFrame.Finishes.ws _ _ ws finishes, under⟩
  have close : m.finishValue = some m' → (∀ t, a.Finishes m.schema.nodes told a.state (c :: t) t) → Undone told m m' c := by
    intro finished closes
    refine ⟨finishValue_schema finished, fun t completes => ?_⟩
    have under := finishValue_completes open_ finished completes
    rw [e] at under
    exact (completes_iff open_ e).mpr ⟨t, closes t, under⟩
  unfold inArray at h
  cases hs : a.state with
  | start =>
    rw [hs] at h close
    simp only at h
    split at h
    · exact skip ‹_› h
    split at h
    · rename_i bracket
      obtain ⟨rfl, -⟩ := bracket
      exact close h fun t => .inl .nil
    split at h
    · cases h
    · rename_i id items
      obtain ⟨schema, elements⟩ := element id items h
      refine ⟨schema, fun t completes => (completes_iff open_ e).mpr ?_⟩
      obtain ⟨r, elements, under⟩ := elements t completes
      refine ⟨r, ?_, under⟩
      rw [Frame.Finishes, hs]
      exact .inr elements
  | valueExpected =>
    rw [hs] at h
    simp only at h
    split at h
    · exact skip ‹_› h
    split at h
    · rename_i bracket
      cases bracket.2
    split at h
    · cases h
    · rename_i id items
      obtain ⟨schema, elements⟩ := element id items h
      refine ⟨schema, fun t completes => (completes_iff open_ e).mpr ?_⟩
      obtain ⟨r, elements, under⟩ := elements t completes
      refine ⟨r, ?_, under⟩
      rw [Frame.Finishes, hs]
      exact elements
  | value =>
    rw [hs] at h
    cases h
  | next =>
    rw [hs] at h close
    simp only at h
    split at h
    · exact skip ‹_› h
    split at h
    · rename_i comma
      subst comma
      obtain rfl := Option.some.inj h
      refine ⟨rfl, fun t completes => ?_⟩
      obtain ⟨r, ⟨vs, elements, all⟩, under⟩ := (setTop_completes open_).mp completes
      rw [e] at under
      refine (completes_iff open_ e).mpr ⟨r, ?_, under⟩
      rw [Frame.Finishes, hs]
      exact ⟨vs, .comma .nil elements, all⟩
    split at h
    · rename_i bracket
      subst bracket
      exact close h fun t => ⟨[], .close .nil, by simp⟩
    · cases h

/-- The raw key names what it denotes. -/
def keyTold (m : Machine) (o : ObjectFrame) : Bool :=
  match m.node o.node with
  | some (.object properties _ _) => properties.findIdx? (fun p => p.1 = o.key) = declared properties (denoted o.key)
  | _ => true

/-- A key without escapes names what it denotes. -/
theorem keyTold_plain {o : ObjectFrame} (plain : '\\' ∉ o.key) : m.keyTold o := by
  unfold keyTold
  split
  · rename_i properties _ _ _
    rw [decide_eq_true_eq, declared, JsonGrammar.denoted_of_plain plain]
    congr 1
    funext p
    exact decide_eq_decide.mpr ⟨congrArg units, JsonGrammar.units_injective⟩
  · rfl

/-- Keys and options are read here as what they denote: no character outside
ASCII for a byte of an option, and no key closed that denotes another
property than its raw text names. -/
def Told (m : Machine) (c : Char) : Bool :=
  match m.stack with
  | .word _ _ :: _ => c.toNat < 0x80
  | .object o :: _ => o.state ≠ .key || o.escape ≠ 0 || c ≠ '"' || m.keyTold o
  | _ => true

/-- Every step through the text, as far as it goes, passes. -/
def each (p : Machine → Char → Bool) : Machine → Text → Bool
  | _, [] => true
  | m, c :: text => p m c && (m.pushChar c).all fun m => each p m text

/-- A closed key is one seen for the first time, or one of no property. -/
theorem checkKey_cases {o : ObjectFrame} (h : m.checkKey o = some m') :
    o.node = none ∧ m' = m.setTop (.object o) ∨
      ∃ n children required additional, o.node = some n ∧
        m.schema.nodes[n]? = some (.object children required additional) ∧
        ((∃ i, children.findIdx? (fun p => p.1 = o.key) = some i ∧ i ∉ o.seen ∧
            m' = m.setTop (.object { o with seen := o.seen ++ [i] })) ∨
          children.findIdx? (fun p => p.1 = o.key) = none ∧ additional = true ∧ m' = m.setTop (.object o)) := by
  unfold checkKey at h
  split at h
  · exact .inl ⟨‹_›, (Option.some.inj h).symm⟩
  split at h
  · rename_i children required additional node
    obtain ⟨n, isNode, at_⟩ := node_eq node
    refine .inr ⟨n, children, required, additional, isNode, at_, ?_⟩
    split at h
    · rename_i i found
      split at h
      · cases h
      · exact .inl ⟨i, found, ‹_›, (Option.some.inj h).symm⟩
    · split at h
      · exact .inr ⟨‹_›, ‹_›, (Option.some.inj h).symm⟩
      · cases h
  · cases h

theorem begun_start : Begun [] 0 := ⟨Nat.zero_le 5, fun _ us _ h => ⟨us, h⟩⟩

theorem closeKey_undone {o : ObjectFrame} (open_ : m.done = false) (e : m.stack = .object o :: rest)
    (key : o.state = .key) (out : o.escape = 0) (read : told → m.keyTold o)
    (h : m.checkKey { o with state := .colon } = some m') : Undone told m m' '"' := by
  -- the frame after the key has the properties seen that it has there
  have closes : ∀ seen, m' = m.setTop (.object { o with state := .colon, seen }) →
      (∀ v ms k, denoted o.key = k → Obeys m.schema.nodes told o.node seen ms →
        (∀ n children required additional p, o.node = some n →
          m.schema.nodes[n]? = some (.object children required additional) →
          children.find? (fun p => p.1 = o.key) = some p → Fits m.schema.nodes told (some p.2) v) →
        Obeys m.schema.nodes told o.node o.seen ((k, v) :: ms)) → Undone told m m' '"' := by
    rintro seen rfl obey
    refine ⟨rfl, fun t completes => ?_⟩
    obtain ⟨r, ⟨t₂, t₃, t₄, v, ms, colon, ws, reads, more, obeys, fits⟩, under⟩ := (setTop_completes open_).mp completes
    rw [e] at under
    refine (completes_iff open_ e).mpr ⟨r, ?_, under⟩
    rw [Frame.Finishes, key]
    intro begun
    rw [out] at begun
    obtain ⟨k, chars⟩ := begun.2 _ _ _ (.close (r := t))
    obtain ⟨b, same, denotes⟩ := chars.body
    obtain rfl := List.append_cancel_right same
    exact ⟨t, t₂, t₃, t₄, k, v, ms, chars, colon, ws, reads, more, obey v ms k denotes obeys fits⟩
  rcases checkKey_cases h with ⟨free, same⟩ | ⟨n, children, required, additional, isNode, at_, closed⟩
  · refine closes o.seen same fun v ms k _ _ _ _ n _ _ _ isNode => ?_
    cases isNode.symm.trans free
  have node : m.node o.node = some (.object children required additional) := by
    rw [show o.node = some n from isNode]
    exact at_
  have named : told → children.findIdx? (fun p => p.1 = o.key) = declared children (denoted o.key) := by
    intro hold
    have := read hold
    unfold keyTold at this
    rw [node] at this
    exact of_decide_eq_true this
  rcases closed with ⟨i, found, fresh, same⟩ | ⟨found, free, same⟩
  · refine closes _ same fun v ms k denotes obeys fits hold n' children' required' additional' isNode' at_' => ?_
    have obeying := obeys hold n' _ _ _ isNode' at_'
    obtain rfl := Option.some.inj (isNode.symm.trans isNode')
    obtain ⟨rfl, rfl, rfl⟩ := Node.object.inj (Option.some.inj (at_.symm.trans at_'))
    refine obeying.named ?_ fresh fun name child hc => ?_
    · rw [← denotes, ← named hold]
      exact found
    · obtain ⟨lt, is, first⟩ := List.findIdx?_eq_some_iff_getElem.mp found
      refine fits n children required additional (name, child) isNode at_ ?_
      obtain ⟨lt, here⟩ := List.getElem?_eq_some_iff.mp hc
      rw [here] at is
      exact List.find?_eq_some_iff_getElem.mpr ⟨is, i, lt, here, fun j hj => by simpa using first j hj⟩
  · refine closes _ same fun v ms k denotes obeys fits hold n' children' required' additional' isNode' at_' => ?_
    have obeying := obeys hold n' _ _ _ isNode' at_'
    obtain rfl := Option.some.inj (isNode.symm.trans isNode')
    obtain ⟨rfl, rfl, rfl⟩ := Node.object.inj (Option.some.inj (at_.symm.trans at_'))
    refine obeying.unnamed ?_ free
    rw [← denotes, ← named hold]
    exact found

theorem inKey_undone {o : ObjectFrame} (open_ : m.done = false) (e : m.stack = .object o :: rest)
    (key : o.state = .key) (read : told → m.Told c) (h : m.inKey o c = some m') : Undone told m m' c := by
  have goes_on : ∀ e', m' = m.setTop (.object { o with escape := e', key := o.key ++ [c] }) →
      (Begun o.key o.escape → Begun (o.key ++ [c]) e') → Undone told m m' c := by
    rintro e' rfl begun
    refine ⟨rfl, fun t completes => ?_⟩
    obtain ⟨r, finishes, under⟩ := (setTop_completes open_).mp completes
    rw [e] at under
    refine (completes_iff open_ e).mpr ⟨r, ?_, under⟩
    rw [Frame.Finishes] at finishes ⊢
    rw [key] at finishes ⊢
    intro before
    obtain ⟨t₁, t₂, t₃, t₄, k, v, ms, chars, after⟩ := finishes (begun before)
    rw [List.append_assoc] at chars
    exact ⟨t₁, t₂, t₃, t₄, k, v, ms, chars, after⟩
  unfold inKey at h
  split at h
  · rename_i some_
    split at h
    · rename_i ok
      refine goes_on _ (Option.some.inj h).symm fun begun => ⟨nextEscape_le begun.1, fun t us r rest => ?_⟩
      obtain ⟨us, chars⟩ := escape_chars ok some_ begun.1 rest
      rw [List.append_assoc]
      exact begun.2 _ us r chars
    · cases h
  rename_i none_
  have out : o.escape = 0 := by omega
  split at h
  · rename_i quote
    subst quote
    have told_ : told → m.keyTold o := by
      intro hold
      have := read hold
      unfold Told at this
      rw [e] at this
      simpa [key, out] using this
    exact closeKey_undone open_ e key out told_ h
  rename_i noquote
  split at h
  · rename_i backslash
    subst backslash
    split at h
    · refine goes_on _ (Option.some.inj h).symm fun begun => ⟨Nat.le_refl 5, fun t us r rest => ?_⟩
      rw [List.append_assoc]
      rw [out] at begun
      exact begun.2 _ us r rest
    · cases h
  rename_i nobackslash
  split at h
  · cases h
  rename_i printable
  split at h
  · refine goes_on _ (Option.some.inj h).symm fun begun => ⟨begun.1, fun t us r rest => ?_⟩
    rw [out] at begun rest
    rw [List.append_assoc]
    exact begun.2 _ _ r (.plain ⟨Nat.not_lt.mp printable, noquote, nobackslash⟩ rest)
  · cases h

theorem closeObject_obeys {id : Option Nat} {seen : List Nat} (h : m.closeObject id seen = some m') :
    m.finishValue = some m' ∧ Obeys m.schema.nodes told id seen [] := by
  unfold closeObject at h
  have nothing : ∀ {children : List (Text × Nat)} {required : List Nat} {additional : Bool},
      (∀ i ∈ required, i ∈ seen) → Obeying m.schema.nodes told children required additional seen [] :=
    fun present => ⟨by simp, List.nodup_nil, by simp [occurring], fun i hi => .inl (present i hi), by simp⟩
  split at h
  · rename_i children required additional node
    split at h
    · rename_i all
      refine ⟨h, fun _ n _ _ _ isNode at_ => ?_⟩
      obtain ⟨n', isNode', at_'⟩ := node_eq node
      obtain rfl := Option.some.inj (isNode.symm.trans isNode')
      obtain ⟨rfl, rfl, rfl⟩ := Node.object.inj (Option.some.inj (at_.symm.trans at_'))
      exact nothing fun i hi => of_decide_eq_true (List.all_eq_true.mp all i hi)
    · cases h
  · rename_i other
    refine ⟨h, fun _ n children required additional isNode at_ => ?_⟩
    refine absurd ?_ (other children required additional)
    rw [isNode]
    exact at_

theorem inObject_undone {o : ObjectFrame} (open_ : m.done = false) (e : m.stack = .object o :: rest)
    (read : told → m.Told c) (h : m.inObject o c = some m') : Undone told m m' c := by
  have skip : o.state ≠ .key → isWs c → some m = some m' → Undone told m m' c := by
    intro outside ws same
    obtain rfl := Option.some.inj same
    refine ⟨rfl, fun t completes => ?_⟩
    obtain ⟨r, finishes, under⟩ := (completes_iff open_ e).mp completes
    exact (completes_iff open_ e).mpr ⟨r, ObjectFrame.Finishes.ws _ _ ws outside finishes, under⟩
  have close : m.closeObject o.node o.seen = some m' →
      (∀ t, Obeys m.schema.nodes told o.node o.seen [] → o.Finishes m.schema.nodes told o.state (c :: t) t) →
      Undone told m m' c := by
    intro closed closes
    obtain ⟨finished, obeys⟩ : m.finishValue = some m' ∧ Obeys m.schema.nodes told o.node o.seen [] :=
      closeObject_obeys closed
    refine ⟨finishValue_schema finished, fun t completes => ?_⟩
    have under := finishValue_completes open_ finished completes
    rw [e] at under
    exact (completes_iff open_ e).mpr ⟨t, closes t obeys, under⟩
  have quote : (∀ t r, o.Finishes m.schema.nodes told .keyExpected t r → o.Finishes m.schema.nodes told o.state t r) →
      c = '"' → some (m.setTop (.object { o with key := [], escape := 0, state := .key })) = some m' →
      Undone told m m' c := by
    rintro weaken rfl same
    obtain rfl := Option.some.inj same
    refine ⟨rfl, fun t completes => ?_⟩
    obtain ⟨r, finishes, under⟩ := (setTop_completes open_).mp completes
    obtain ⟨t₁, t₂, t₃, t₄, k, v, ms, chars, colon, ws, reads, more, obeys⟩ := finishes begun_start
    rw [e] at under
    exact (completes_iff open_ e).mpr ⟨r, weaken _ _ ⟨_, more.member .nil chars colon ws reads, obeys⟩, under⟩
  unfold inObject at h
  cases hs : o.state with
  | start =>
    rw [hs] at h close skip quote
    simp only at h
    split at h
    · exact skip (by simp) ‹_› h
    split at h
    · rename_i brace
      obtain ⟨rfl, -⟩ := brace
      exact close h fun t obeys => .inl ⟨.nil, obeys⟩
    split at h
    · cases h
    · rename_i first
      exact quote (fun t r => .inr) (not_not.mp first) h
  | keyExpected =>
    rw [hs] at h close skip quote
    simp only at h
    split at h
    · exact skip (by simp) ‹_› h
    split at h
    · rename_i brace
      cases brace.2
    split at h
    · cases h
    · rename_i first
      exact quote (fun t r => id) (not_not.mp first) h
  | key =>
    rw [hs] at h
    exact inKey_undone open_ e hs read h
  | colon =>
    rw [hs] at h skip
    simp only at h
    split at h
    · exact skip (by simp) ‹_› h
    split at h
    · cases h
    rename_i colon
    obtain rfl := not_not.mp colon
    obtain ⟨id, node, pushed⟩ := Option.bind_eq_some_iff.mp h
    obtain rfl := Option.some.inj pushed
    refine ⟨rfl, fun t completes => ?_⟩
    obtain ⟨r, ⟨t₁, v, ws, reads, fits⟩, r', ⟨ms, more, obeys⟩, under⟩ := (withStack_completes open_).mp completes
    rw [e] at under
    refine (completes_iff open_ e).mpr ⟨r', ?_, under⟩
    rw [Frame.Finishes, hs]
    refine ⟨t, t₁, r, v, ms, .nil, ws, reads, more, obeys, fun n children required additional p isNode at_ found => ?_⟩
    have same : m.valueNodeFor o.node o.key = some (some p.2) := by
      have at_ : m.node o.node = some (.object children required additional) := by
        rw [isNode]
        exact at_
      unfold valueNodeFor
      rw [if_neg (by simp [isNode]), at_]
      simp only
      rw [found]
    obtain rfl := Option.some.inj (node.symm.trans same)
    exact fits
  | value =>
    rw [hs] at h
    cases h
  | next =>
    rw [hs] at h close skip
    simp only at h
    split at h
    · exact skip (by simp) ‹_› h
    split at h
    · rename_i comma
      subst comma
      obtain rfl := Option.some.inj h
      refine ⟨rfl, fun t completes => ?_⟩
      obtain ⟨r, ⟨ms, members, obeys⟩, under⟩ := (setTop_completes open_).mp completes
      rw [e] at under
      refine (completes_iff open_ e).mpr ⟨r, ?_, under⟩
      rw [Frame.Finishes, hs]
      exact ⟨ms, .comma .nil members, obeys⟩
    split at h
    · rename_i brace
      subst brace
      exact close h fun t obeys => ⟨[], .close .nil, obeys⟩
    · cases h

theorem enter_keeps (h : m.enter c = some m') : m'.done = m.done ∧ m'.stack = m.stack ∧ m'.schema = m.schema := by
  unfold enter at h
  split at h
  · split at h
    · cases h
    · rw [← Option.some.inj h]
      exact ⟨rfl, rfl, rfl⟩
  · rw [← Option.some.inj h]
    exact ⟨rfl, rfl, rfl⟩

theorem told_congr (stack : m'.stack = m.stack) (schema : m'.schema = m.schema) : m'.Told c = m.Told c := by
  unfold Told keyTold node
  rw [stack, schema]

/-- After a value the next character is of no key and no option. -/
theorem finishValue_told (h : m.finishValue = some m') (c : Char) : m'.Told c := by
  unfold finishValue at h
  split at h
  · rw [← Option.some.inj h]
    rfl
  · rw [← Option.some.inj h]
    rfl
  · rw [← Option.some.inj h]
    rfl
  · cases h

/-- One step undone, whatever the calls it makes of itself do. -/
theorem pushWith_undone {again : Machine → Char → Option Machine} (written : Written m.schema.nodes)
    (undone : ∀ m₁ m' : Machine, ∀ c, Written m₁.schema.nodes → (told → m₁.Told c) → again m₁ c = some m' →
      Undone told m₁ m' c)
    (read : told → m.Told c) (h : pushWith again m c = some m') : Undone told m m' c := by
  obtain ⟨m₁, entered, h⟩ := Option.bind_eq_some_iff.mp h
  obtain ⟨done, stack, schema⟩ := enter_keeps entered
  have read₁ : told → m₁.Told c := by
    rw [told_congr stack schema]
    exact read
  have inner : Undone told m₁ m' c → Undone told m m' c := by
    rintro ⟨schema', undo⟩
    rw [schema] at undo
    refine ⟨schema'.trans schema, fun t completes => ?_⟩
    have before := undo t completes
    unfold Completes at before ⊢
    rw [done, stack] at before
    exact before
  rw [← schema] at written
  refine inner ?_
  by_cases ended : m₁.done
  · rw [if_pos ended] at h
    split at h
    · rename_i ws
      obtain rfl := Option.some.inj h
      refine ⟨rfl, fun t completes => ?_⟩
      unfold Completes at completes ⊢
      rw [if_pos ended] at completes ⊢
      exact .cons ws completes
    · cases h
  have open_ : m₁.done = false := by simpa using ended
  rw [if_neg ended] at h
  split at h
  · cases h
  · rename_i e
    exact startValue_undone open_ e written h
  · rename_i e
    exact inString_undone open_ e h
  · rename_i e
    refine inNumber_undone open_ e (fun m₂ finished h₂ => ?_) h
    refine undone m₂ m' c ?_ (fun _ => finishValue_told finished c) h₂
    rw [finishValue_schema finished]
    exact written
  · rename_i e
    refine inWord_undone open_ e (fun hold => ?_) h
    have := read₁ hold
    unfold Told at this
    rw [e] at this
    simpa using this
  · rename_i e
    exact inObject_undone open_ e read₁ h
  · rename_i e
    refine inArray_undone open_ e (fun m₂ h₂ schema₂ _ top => ?_) h
    refine undone m₂ m' c (by rw [schema₂]; exact written) (fun _ => ?_) h₂
    obtain ⟨id, below, top⟩ := top
    unfold Told
    rw [top]

theorem pushChar_undone (written : Written m.schema.nodes) (read : told → m.Told c) (h : m.pushChar c = some m') :
    Undone told m m' c := by
  refine pushWith_undone written (fun m₁ m₂ d written₁ read₁ h₁ => ?_) read h
  exact pushWith_undone written₁ (fun _ _ _ _ _ none_ => by cases none_) read₁ h₁

/-- The texts that the machine reads to its end complete it. -/
theorem push_completes (written : Written m.schema.nodes) (read : told → m.each Told t) (h : m.push t = some m')
    (ended : m'.complete) : m.Completes m.schema.nodes told t := by
  induction t generalizing m with
  | nil =>
    obtain rfl := Option.some.inj h
    unfold complete at ended
    unfold Completes
    split
    · exact .nil
    · rename_i open_
      rw [Bool.or_eq_true, or_iff_right open_] at ended
      split at ended
      · rename_i n e
        rw [e]
        exact ⟨[], ⟨[], rfl, NumberFrame.complete_tail ended⟩, .nil⟩
      · cases ended
  | cons c t ih =>
    obtain ⟨m₁, step, rest⟩ := Option.bind_eq_some_iff.mp h
    have here : told → m.Told c := fun hold => (Bool.and_eq_true_iff.mp (read hold)).1
    obtain ⟨schema, undo⟩ := pushChar_undone written here step
    refine undo t (schema ▸ ih (schema ▸ written) (fun hold => ?_) rest)
    have later := (Bool.and_eq_true_iff.mp (read hold)).2
    rw [step] at later
    exact later

/-- What the machine accepts is a JSON text but for leading zeros, and of a
value the root admits if it was read as what it denotes. -/
theorem accepts_text {s : Schema} (written : Written s.nodes) (h : (new s).Accepts t) :
    ∃ v, JsonGrammar.Text false t v ∧ ((new s).each Told t → ∀ shape, Shows s.nodes 0 shape → shape.Admits v) := by
  obtain ⟨m', pushed, ended⟩ := h
  obtain ⟨r, ⟨t₁, v, ws, reads, fits⟩, under⟩ := push_completes (m := new s) written (fun hold => hold) pushed ended
  exact ⟨v, ⟨t₁, r, ws, reads, under⟩, fun read shape shows_ => fits read 0 shape rfl shows_⟩

end Undo

end Machine

/-- The schemas machines are made with. -/
inductive Built : Schema → Prop
  | any : Built Schema.any
  | compiled {d : Document} {s : Schema} : Schema.compile d = .ok s → Built s
  | withAny {s : Schema} : Built s → Built (withAnyNode s)

theorem Built.written {s : Schema} (h : Built s) : Written s.nodes := by
  induction h with
  | any => exact any_written
  | compiled h => exact Schema.compile_written h
  | withAny _ ih => exact withAnyNode_written ih

/-- An accepted text is a JSON text exactly if no number in it begins with a
zero before another digit. -/
theorem accepted_json_iff {s : Schema} (built : Built s) {t : Text} (h : (Machine.new s).Accepts t) :
    (∃ v, JsonGrammar.Text true t v) ↔ JsonGrammar.noLeadingZero .out t = true := by
  obtain ⟨v, reads, -⟩ := Machine.accepts_text built.written h
  exact reads.strict_iff

theorem accepted_json_object : (∃ v, JsonGrammar.Text true "\x7b\"a\": [1, 0.5e3]\x7d".toList v) ↔
    JsonGrammar.noLeadingZero .out "\x7b\"a\": [1, 0.5e3]\x7d".toList = true :=
  accepted_json_iff .any (by decide)

/-- `01` is accepted, and is no JSON text. -/
theorem leading_zero_accepted : (Machine.new Schema.any).Accepts "01".toList ∧ ¬∃ v, JsonGrammar.Text true "01".toList v := by
  have accepted : (Machine.new Schema.any).Accepts "01".toList := by decide
  obtain ⟨v, reads, -⟩ := Machine.accepts_text any_written accepted
  refine ⟨accepted, fun strict => ?_⟩
  exact absurd (reads.strict_iff.mp strict) (by decide)

/-- An accepted text's value is one that the schema document admits, if no
option was read by its bytes and every key names what it denotes. -/
theorem accepted_admitted {d : Document} {s s' : Schema} {shape : Shape} (compiled : Schema.compile d = .ok s)
    (made : s' = s ∨ s' = withAnyNode s) (means : Means d shape) {t : Text} (h : (Machine.new s').Accepts t)
    (read : (Machine.new s').each Machine.Told t) {strict : Bool} {v : Value} (denotes : JsonGrammar.Text strict t v) :
    shape.Admits v := by
  obtain ⟨shape', means', shown⟩ := Schema.compile_shows compiled
  obtain rfl := means.unique means'
  have root : Written s'.nodes ∧ Shows s'.nodes 0 shape := by
    rcases made with rfl | rfl
    · exact ⟨Schema.compile_written compiled, shown⟩
    · exact ⟨withAnyNode_written (Schema.compile_written compiled), withAnyNode_shows shown⟩
  obtain ⟨v', reads, admits⟩ := Machine.accepts_text root.1 h
  obtain rfl := denotes.lax.unique reads
  exact admits read shape root.2

section Denoted

/-- An object with a string `a`, and with any other properties. -/
def labelled : Document :=
  .object [("additionalProperties".toList, .bool true),
    ("properties".toList, .object [("a".toList, .object [("type".toList, .string "string".toList)])]),
    ("type".toList, .string "object".toList)]

def labelledShape : Shape := .object [("a".toList, .str)] [] true

def labelledSchema : Schema := ⟨[.object [("a".toList, 1)] [] true, .str]⟩

theorem labelled_compiles : Schema.compile labelled = .ok labelledSchema := rfl

theorem labelled_means : Means labelled labelledShape := by
  refine .object ⟨rfl, rfl, rfl⟩ rfl rfl (fun k name d shape hd hs => ?_) (rfl : _ = Document.array ([].map _)) rfl rfl
  cases k with
  | zero =>
    obtain ⟨rfl, rfl⟩ := Prod.mk.inj (Option.some.inj hd)
    obtain ⟨-, rfl⟩ := Prod.mk.inj (Option.some.inj hs)
    exact .str ⟨rfl, rfl, rfl⟩
  | succ k => cases hd

/-- The string `é`. -/
def accented : Document := .object [("const".toList, .string "é".toList)]

theorem one_number : JsonGrammar.Number true ['1'] :=
  have digits : JsonGrammar.Digits ['1'] := ⟨by simp, by simp⟩
  .mk .none digits (by simp) .none .none

theorem accepted_admitted_labelled :
    labelledShape.Admits (.obj [(units "b".toList, .num ['1'])]) :=
  have denotes : JsonGrammar.Text true "\x7b\"b\":1\x7d".toList (.obj [(units "b".toList, .num ['1'])]) :=
    ⟨_, [], .nil, .object (.lastMember .nil (.plain (by decide) .close) .nil .nil
      (.num one_number (Document.ends_of_mark rfl []) rfl) .nil), .nil⟩
  accepted_admitted labelled_compiles (.inr rfl) labelled_means (by decide) (by decide) denotes

/-- A key is taken by its raw text, and an option by its bytes: an `a` that is
no string is accepted with an escape, and `Ã©` for `é`. -/
theorem other_than_denoted_accepted :
    ((Machine.new (withAnyNode labelledSchema)).Accepts "\x7b\"\\u0061\":1\x7d".toList ∧
      JsonGrammar.Text true "\x7b\"\\u0061\":1\x7d".toList (.obj [([97], .num ['1'])]) ∧
      ¬labelledShape.Admits (.obj [([97], .num ['1'])])) ∧
    ∃ s, Schema.compile accented = .ok s ∧ Means accented (.choice [.string "é".toList]) ∧
      (Machine.new (withAnyNode s)).Accepts "\"Ã©\"".toList ∧ JsonGrammar.Text true "\"Ã©\"".toList (.str [0xC3, 0xA9]) ∧
      ¬(Shape.choice [.string "é".toList]).Admits (.str [0xC3, 0xA9]) := by
  refine ⟨⟨by decide, ⟨_, [], .nil, .object (.lastMember .nil (.unicode rfl rfl rfl rfl .close) .nil .nil
    (.num one_number (Document.ends_of_mark rfl []) rfl) .nil), .nil⟩, fun admits => ?_⟩,
    ⟨[.choice ["\"é\"".toList]]⟩, rfl, .const rfl, by decide,
    ⟨_, [], .nil, .str (.plain (by decide) (.plain (by decide) .close)), .nil⟩, fun admits => ?_⟩
  · cases admits with
    | object fits =>
      cases fits _ (List.mem_singleton_self _) 0 "a".toList .str rfl rfl
  · have only : ∀ v, (Shape.choice [.string "é".toList]).Admits v → v = .str [0xE9] := by
      intro v admits
      cases admits with
      | choice listed =>
        rw [List.mem_singleton.mp listed]
        rfl
    cases only _ admits

end Denoted

end Vapi.Structured
