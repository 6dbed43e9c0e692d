import Vapi.Structured.Masking

/-!
# The buckets lose no token

A state that is not viable stays so: it is in a key no property is left for.
So a text that is allowed begins with a character that is, and the buckets the
mask does not try hold no token that is allowed.
-/

namespace Vapi.Structured

open JsonGrammar (isWs)

namespace Machine

variable {m m' : Machine} {f : Frame} {rest : List Frame} {c : Char} {t : Text} {o : ObjectFrame}
  {children : List (Text × Nat)} {seen : List Nat} {key : Text}

/-- What has been typed of the key. -/
def typed (o : ObjectFrame) : Text := if o.state = .key then o.key else []

theorem not_viable_of_top (done : m.done = false) (e : m.stack = f :: rest) (top : m.frameViable f = false) :
    m.viable = false := by
  unfold viable
  rw [done, e, List.all_cons, top]
  rfl

theorem propertyPossible_nil : propertyPossible children seen [] = (List.range children.length).any (· ∉ seen) := by
  rw [Bool.eq_iff_iff, propertyPossible, List.any_eq_true, List.any_eq_true]
  constructor
  · rintro ⟨⟨p, i⟩, here, unseen⟩
    have lt := (List.getElem?_eq_some_iff.mp (List.mem_zipIdx_iff_getElem?.mp here)).1
    exact ⟨i, List.mem_range.mpr lt, by simpa using unseen⟩
  · rintro ⟨i, inRange, unseen⟩
    have here := List.getElem?_eq_getElem (List.mem_range.mp inRange)
    exact ⟨(children.get ⟨i, List.mem_range.mp inRange⟩, i), List.mem_zipIdx_iff_getElem?.mpr here,
      by simpa using unseen⟩

/-- A key no property is left for has none left however it goes on. -/
theorem propertyPossible_mono (possible : propertyPossible children seen (key ++ [c])) : propertyPossible children seen key := by
  obtain ⟨p, here, goes⟩ := List.any_eq_true.mp possible
  rw [Bool.and_eq_true] at goes
  refine List.any_eq_true.mpr ⟨p, here, Bool.and_eq_true_iff.mpr ⟨goes.1, ?_⟩⟩
  exact List.isPrefixOf_iff_prefix.mpr ((List.prefix_append key [c]).trans (List.isPrefixOf_iff_prefix.mp goes.2))

/-- The one way not to be viable: in a key, or before one, with no property
left for it. -/
theorem dead_top (h : m.Sound) (dead : m.viable = false) : ∃ o rest n children required,
    m.stack = .object o :: rest ∧ o.node = some n ∧ m.schema.nodes[n]? = some (.object children required false) ∧
    (o.state = .keyExpected ∨ o.state = .key) ∧ propertyPossible children o.seen (typed o) = false := by
  cases e : m.stack with
  | nil =>
    unfold viable at dead
    rw [h.ended.mpr e] at dead
    cases dead
  | cons f rest =>
    have top : m.frameViable f = false := by
      by_contra viable
      rw [viable_of_top h e (by simpa using viable)] at dead
      cases dead
    have sound := h.top e
    cases f with
    | value id => cases top
    | str escape len => cases top
    | number n => cases top
    | array a => cases top
    | word alts matched =>
      unfold frameViable at top
      have none_ : alts = [] := by simpa using top
      exact absurd none_ sound.1
    | object o =>
      rcases sound.2 with free | ⟨n, properties, required, additional, children, isNode, shown, at_, -⟩
      · rw [frameViable_free free] at top
        cases top
      · have between := between_viable (m := m) (o := o) sound
        rw [frameViable_object isNode at_] at top between
        refine ⟨o, rest, n, children, required, rfl, isNode, ?_⟩
        cases state : o.state with
        | start =>
          rw [between (.inl state)] at top
          cases top
        | next =>
          rw [between (.inr state)] at top
          cases top
        | keyExpected =>
          rw [state] at top
          obtain ⟨rfl, none_⟩ := Bool.or_eq_false_iff.mp top
          refine ⟨at_, .inl rfl, ?_⟩
          unfold typed
          rw [state, if_neg (by simp), propertyPossible_nil]
          exact none_
        | key =>
          rw [state] at top
          obtain ⟨rfl, none_⟩ := Bool.or_eq_false_iff.mp top
          refine ⟨at_, .inr rfl, ?_⟩
          unfold typed
          rw [state, if_pos rfl]
          exact none_
        | colon =>
          rw [state] at top
          cases top
        | value =>
          rw [state] at top
          cases top

/-- And it stays so. -/
theorem dead_step (h : m.Sound) (dead : m.viable = false) (step : m.pushChar c = some m') : m'.viable = false := by
  obtain ⟨o, rest, n, children, required, e, isNode, at_, state, none_⟩ := dead_top h dead
  obtain ⟨m₁, entered, step⟩ := Option.bind_eq_some_iff.mp step
  obtain ⟨done, stack, schema⟩ := enter_keeps entered
  have h₁ := h.congr done stack schema
  have e₁ : m₁.stack = .object o :: rest := stack.trans e
  have at₁ : m₁.schema.nodes[n]? = some (.object children required false) := schema ▸ at_
  have node₁ : m₁.node o.node = some (.object children required false) := by
    rw [isNode]
    exact at₁
  have done₁ := h₁.not_done e₁
  rw [done₁, e₁] at step
  change m₁.inObject o c = some m' at step
  -- in a key with nothing left for it, whatever else has changed
  have stuck : ∀ o', o'.node = o.node → o'.seen = o.seen → o'.state = .key → propertyPossible children o.seen o'.key = false →
      (m₁.setTop (.object o')).viable = false := by
    intro o' node seen key possible
    have stacked : (m₁.setTop (.object o')).stack = .object o' :: rest := by unfold setTop; rw [e₁]; rfl
    refine not_viable_of_top done₁ stacked ?_
    have top := frameViable_object (m := m₁.setTop (.object o')) (node.trans isNode) at₁
    rw [top, key, seen, possible]
    rfl
  unfold inObject at step
  rcases state with state | state <;> rw [state] at step <;> simp only at step
  · have before : propertyPossible children o.seen [] = false := by
      unfold typed at none_
      rwa [state, if_neg (by simp)] at none_
    split at step
    · rw [← Option.some.inj step]
      refine not_viable_of_top done₁ e₁ ?_
      rw [frameViable_object isNode at₁, state]
      exact Bool.or_eq_false_iff.mpr ⟨rfl, propertyPossible_nil ▸ before⟩
    · split at step
      · rename_i closes
        exact absurd closes.2 (by simp)
      · split at step
        · cases step
        · rw [← Option.some.inj step]
          exact stuck _ rfl rfl rfl before
  · have typed_ : propertyPossible children o.seen o.key = false := by
      unfold typed at none_
      rwa [state, if_pos rfl] at none_
    have sound : o.Sound m₁.schema.nodes := h₁.top e₁
    have plain : ¬0 < o.escape := by
      intro escaped
      obtain ⟨-, free | ⟨n', properties, required', additional, children', isNode', shown, at', free, -⟩⟩ := sound
      · rw [isNode] at free
        cases free
      · obtain rfl := Option.some.inj (isNode.symm.trans isNode')
        obtain ⟨-, -, rfl⟩ := Node.object.inj (Option.some.inj (at₁.symm.trans at'))
        exact absurd (free escaped) (by simp)
    unfold inKey at step
    rw [if_neg plain] at step
    split at step
    · unfold checkKey at step
      simp only [isNode, reduceCtorEq, if_false] at step
      rw [show m₁.node (some n) = some (.object children required false) from at₁] at step
      simp only at step
      split at step
      · rename_i i found
        split at step
        · cases step
        · rename_i unseen
          -- the property it names was still to come
          obtain ⟨lt, is, -⟩ := List.findIdx?_eq_some_iff_getElem.mp found
          have possible : propertyPossible children o.seen o.key := by
            refine List.any_eq_true.mpr ⟨(children[i], i), List.mem_zipIdx_iff_getElem?.mpr (List.getElem?_eq_getElem lt), ?_⟩
            have name : children[i].1 = o.key := of_decide_eq_true is
            simpa [name] using unseen
          rw [typed_] at possible
          cases possible
      · cases step
    · split at step
      · rw [if_neg (by unfold keysAreFree; rw [node₁, isNode]; simp)] at step
        cases step
      · split at step
        · cases step
        · split at step
          · rename_i goes
            unfold keyPossible at goes
            rw [node₁, isNode] at goes
            simp only [reduceCtorEq, decide_false, Bool.false_or] at goes
            rw [propertyPossible_mono goes] at typed_
            cases typed_
          · cases step

theorem dead_push (h : m.Sound) (dead : m.viable = false) (pushed : m.push t = some m') : m'.viable = false := by
  induction t generalizing m with
  | nil => exact Option.some.inj pushed ▸ dead
  | cons c t ih =>
    obtain ⟨m₁, step, rest⟩ := Option.bind_eq_some_iff.mp pushed
    exact ih (h.pushChar step) (dead_step h dead step) rest

/-- A text that is allowed begins with a character that is. -/
theorem allows_first (h : m.Sound) (allowed : m.allows (c :: t)) : m.allows [c] := by
  unfold allows at allowed
  obtain ⟨m', pushed, viable⟩ := (Option.any_eq_true ..).mp allowed
  obtain ⟨m₁, step, rest⟩ := Option.bind_eq_some_iff.mp pushed
  have first : m₁.viable := by
    by_contra dead
    rw [dead_push (h.pushChar step) (Bool.not_eq_true _ ▸ dead) rest] at viable
    cases viable
  unfold allows
  rw [push, step]
  exact first

end Machine

namespace TokenMasker

variable {texts : List Text} {m : Machine} {i n : Nat}

/-- The tokens tried with success are those with a text that is allowed. -/
theorem tryAll_allows (h : m.Sound) : ((new texts).tryAll m (List.replicate n false))[i]? = some true ↔
    i < n ∧ ∃ t, texts[i]? = some t ∧ t ≠ [] ∧ m.allows t := by
  rw [tryAll_iff]
  refine and_congr_right fun _ => ⟨?_, ?_⟩
  · rintro ⟨t, b, at_, first, -, allowed⟩
    refine ⟨t, at_, ?_, allowed⟩
    rintro rfl
    cases first
  · rintro ⟨t, at_, some_, allowed⟩
    obtain ⟨c, u, rfl⟩ := List.exists_cons_of_ne_nil some_
    obtain ⟨b, l, e⟩ := bytes_cons c u
    exact ⟨c :: u, b, at_, by rw [e]; rfl, worth_of_first (by rw [e]; rfl) (Machine.allows_first h allowed), allowed⟩

end TokenMasker

/-- In an open state some token continues, the mask leaves the logits of just
those tokens, ends of the sequence apart, whose text there is and the machine
allows, and sets every other to negative infinity. -/
theorem mask_filters {L : Type} {s : Schema} (built : Built s) {t : Text} {m : Machine}
    (reached : (Machine.new s).push t = some m) (open_ : m.complete = false) {texts : List Text} {eos : List Nat}
    {logits : List (Option L)} (some_ : ∃ j, j < logits.length ∧ ∃ u, texts[j]? = some u ∧ u ≠ [] ∧ m.allows u) (i : Nat) :
    ((TokenMasker.new texts).mask m eos logits)[i]? =
      if i ∉ eos ∧ ∃ u ∈ texts[i]?, u ≠ [] ∧ m.allows u then logits[i]? else logits[i]?.map fun _ => none := by
  obtain ⟨sound, -⟩ := built.reached reached
  obtain ⟨j, continues⟩ := some_
  rw [TokenMasker.mask_open open_ ((TokenMasker.tryAll_allows sound).mpr continues)]
  by_cases inRow : i < logits.length
  · refine if_congr (and_congr_right fun _ => ?_) rfl rfl
    rw [TokenMasker.tryAll_allows sound]
    simp [inRow]
  · rw [List.getElem?_eq_none (Nat.not_lt.mp inRow)]
    simp

/-- At the start of a document no word may come. -/
theorem mask_filters_start :
    ((TokenMasker.new [['1'], ['x'], ['['], []]).mask (Machine.new Schema.any) [3] [some 5, some 6, some 7, some 8])[1]? =
      if 1 ∉ [3] ∧ ∃ u ∈ [['1'], ['x'], ['['], []][1]?, u ≠ [] ∧ (Machine.new Schema.any).allows u then
        [some 5, some 6, some 7, some 8][1]?
      else [some 5, some 6, some 7, some 8][1]?.map fun _ => none :=
  mask_filters .any (t := []) rfl (by decide) ⟨0, by decide, ['1'], rfl, by decide, by decide⟩ 1

end Vapi.Structured
