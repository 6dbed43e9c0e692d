import Vapi.Backend.Laya
import Mathlib.Analysis.SpecialFunctions.Log.Basic

/-!
# What a decision's answer is reported in

`vapi-openai/src/decision.rs` and the part of the gateway that shapes answers:
the labels, the legend and the texts of a question's options are listed one by
one, and a question's scores come back in the order of the texts.
-/

namespace Vapi

namespace OpenAi

/-- A JSON object that keeps the order it arrived in. -/
abbrev Ordered (V : Type) := List (Text × V)

namespace Ordered

variable {V : Type}

def get (m : Ordered V) (key : Text) : Option V := (m.find? fun e => e.1 = key).map Prod.snd

def keys (m : Ordered V) : List Text := m.map Prod.fst

end Ordered

/-- What a question's answer space is made of. -/
inductive Criteria
  /-- Named options, each with an optional description. -/
  | named (m : Ordered (Option Text))
  /-- The levels of a score, or options that are their own description. -/
  | list (v : List Text)

structure Question where
  qtype : QuestionType
  criteria : Option Criteria := none

def noulFalse : Text := "no, the statement does not hold".toList

def noulTrue : Text := "yes, the statement holds".toList

def decimal (n : Nat) : Text := (toString n).toList

namespace Question

/-- What the answer is reported in terms of. -/
def labels (q : Question) : List Text :=
  match q.qtype, q.criteria with
  | .choice, some (.named m) => m.keys
  | .choice, some (.list v) => v
  | .score, some (.list v) => (List.range v.length).map decimal
  | .score, some (.named m) => m.keys
  | .noul, _ => ["false".toList, "true".toList]
  | _, none => []

/-- What each level of a score means. -/
def legend (q : Question) : Ordered Text :=
  match q.qtype, q.criteria with
  | .score, some (.list v) => v.mapIdx fun i c => (decimal i, c)
  | .score, some (.named m) => m.mapIdx fun i e => (decimal i, e.1)
  | _, _ => []

/-- A name and what describes it, if anything does. -/
def described (name : Text) (description : Option Text) : Text :=
  match description.filter (· ≠ []) with
  | some d => name ++ ": ".toList ++ d
  | none => name

/-- A level as the model was trained to read it. -/
def levelText (i : Nat) (level : Text) : Text := "level ".toList ++ decimal i ++ ": ".toList ++ level

/-- A side's description, or the one it has by default. -/
def pick (criteria : Option Criteria) (key default_ : Text) : Text :=
  let given := match criteria with
    | some (.named m) => ((m.get key).join).filter (· ≠ [])
    | _ => none
  given.getD default_

def optionTexts (q : Question) : Except Error (List Text) := do
  let texts ← match q.qtype, q.criteria with
    | .choice, some (.named m) => .ok (m.map fun e => described e.1 e.2)
    | .choice, some (.list v) => .ok v
    | .score, some (.list v) => .ok (v.mapIdx levelText)
    | .score, some (.named m) => .ok (m.mapIdx fun i e => levelText i (described e.1 e.2))
    | .noul, criteria => .ok ["false: ".toList ++ pick criteria "false".toList noulFalse,
        "true: ".toList ++ pick criteria "true".toList noulTrue]
    | .choice, none => .error (.invalidRequest "a choice question needs criteria")
    | .score, none => .error (.invalidRequest "a score question needs its levels as criteria")
  if texts.length < 2 then .error (.invalidRequest "a question needs at least two options to have an answer")
  else .ok texts

end Question

/-- One answer, shaped by the question's type. -/
inductive Answer (S : Type)
  | choice (choice : Text) (probabilities : Ordered S) (confidence actProbability : S)
  | score (score : S) (legend : Ordered Text) (probabilities : Ordered S) (confidence actProbability : S)
  | noul (noul actProbability : S)

end OpenAi

namespace Gateway

open OpenAi Backend

variable {S : Type} [Field S] [LinearOrder S]

/-- One minus the normalized entropy of an answer. -/
def confidence (m : Scalars S) (p : List S) : S :=
  if p.length < 2 then 1
  else
    let ent := -(p.map fun x => x * m.ln (max (1 / 1000000000000) (min x 1))).sum
    max 0 (min (1 - ent / m.ln (p.length : S)) 1)

/-- The expectation over ordinal levels. -/
def expectedLevel (p : List S) : S := (p.mapIdx fun i x => (i : S) * x).sum

/-- Four decimals are reported. -/
def round4 (round : S → S) (x : S) : S := round (x * 10000) / 10000

/-- The largest entry with its index, the last one of several. -/
def maxBy (p : List S) : Option (S × Nat) :=
  match p.zipIdx with
  | [] => none
  | x :: xs => some (xs.foldl (fun best y => if best.1 ≤ y.1 then y else best) x)

/-- Turn one question's raw logits into the answer its type calls for. -/
def shapeAnswer (m : Scalars S) (round : S → S) (question : Question) (row : Proto.RowScores) (temperature : S) :
    OpenAi.Answer S :=
  let p := calibratedProbabilities m (row.logits.map fun l : ℚ => some (l : S)) temperature
  let confidence := round4 round (confidence m p)
  let act := round4 round (row.act : S)
  let labels := question.labels
  let probabilities := labels.zip (p.map (round4 round))
  match question.qtype with
  | .choice =>
    let best := ((maxBy p).map Prod.snd).getD 0
    .choice (labels[best]?.getD []) probabilities confidence act
  | .score => .score (round4 round (expectedLevel p)) question.legend probabilities confidence act
  | .noul => .noul (round4 round (p[1]?.getD 0)) act

end Gateway

namespace OpenAi

section Labels

theorem ofDigitChars_decimal (n : Nat) : Nat.ofDigitChars 10 (decimal n) 0 = n := by
  rw [decimal, Nat.toString_eq_repr, Nat.toList_repr, Nat.ofDigitChars_ten_toDigits]

theorem decimal_inj {i j : Nat} (same : decimal i = decimal j) : i = j := by
  rw [← ofDigitChars_decimal i, same, ofDigitChars_decimal]

namespace Question

variable {q : Question} {texts : List Text}

/-- The texts of a question, and that there are two at least. -/
theorem optionTexts_ok (ok : q.optionTexts = .ok texts) : 2 ≤ texts.length ∧
    match q.qtype, q.criteria with
    | .choice, some (.named m) => texts = m.map fun e => described e.1 e.2
    | .choice, some (.list v) => texts = v
    | .score, some (.list v) => texts = v.mapIdx levelText
    | .score, some (.named m) => texts = m.mapIdx fun i e => levelText i (described e.1 e.2)
    | .noul, criteria => texts = ["false: ".toList ++ pick criteria "false".toList noulFalse,
        "true: ".toList ++ pick criteria "true".toList noulTrue]
    | _, none => False := by
  have kept : ∀ {listed : List Text}, (if listed.length < 2 then
      .error (.invalidRequest "a question needs at least two options to have an answer")
      else .ok listed : Except Error (List Text)) = .ok texts → 2 ≤ texts.length ∧ texts = listed := by
    intro listed ok
    split at ok
    · cases ok
    · rename_i many
      cases ok
      exact ⟨Nat.le_of_not_lt many, rfl⟩
  obtain ⟨qtype, criteria⟩ := q
  cases qtype with
  | noul => exact kept ok
  | choice =>
    cases criteria with
    | none => cases ok
    | some c => cases c <;> exact kept ok
  | score =>
    cases criteria with
    | none => cases ok
    | some c => cases c <;> exact kept ok

/-- A text is that of the option a label is for. -/
def Names (q : Question) (i : Nat) (label text : Text) : Prop :=
  match q.qtype with
  | .choice => ∃ d, text = described label d
  | .score => (label = decimal i ∧ ∃ level, text = levelText i level) ∨ ∃ d, text = levelText i (described label d)
  | .noul => (i = 0 ∧ label = "false".toList ∨ i = 1 ∧ label = "true".toList) ∧ ∃ d, text = label ++ ": ".toList ++ d

theorem labels_length (ok : q.optionTexts = .ok texts) : q.labels.length = texts.length := by
  obtain ⟨-, is⟩ := optionTexts_ok ok
  obtain ⟨qtype, criteria⟩ := q
  cases qtype with
  | noul =>
    rw [show texts = _ from is]
    rfl
  | choice =>
    rcases criteria with - | c
    · cases is
    · cases c <;> rw [show texts = _ from is] <;> simp [labels, Ordered.keys]
  | score =>
    rcases criteria with - | c
    · cases is
    · cases c <;> rw [show texts = _ from is] <;> simp [labels, Ordered.keys]

theorem labels_name (ok : q.optionTexts = .ok texts) {i : Nat} {label text : Text} (here : q.labels[i]? = some label)
    (shown : texts[i]? = some text) : q.Names i label text := by
  obtain ⟨-, is⟩ := optionTexts_ok ok
  obtain ⟨qtype, criteria⟩ := q
  cases qtype with
  | noul =>
    rw [show texts = _ from is] at shown
    match i with
    | 0 =>
      cases here
      cases shown
      exact ⟨.inl ⟨rfl, rfl⟩, _, rfl⟩
    | 1 =>
      cases here
      cases shown
      exact ⟨.inr ⟨rfl, rfl⟩, _, rfl⟩
    | i + 2 => cases here
  | choice =>
    rcases criteria with - | ⟨m | v⟩
    · cases is
    · rw [show texts = m.map _ from is, List.getElem?_map] at shown
      obtain ⟨e, at_, rfl⟩ := Option.map_eq_some_iff.mp shown
      have here : (m.map Prod.fst)[i]? = some label := here
      rw [List.getElem?_map, at_] at here
      cases here
      exact ⟨e.2, rfl⟩
    · rw [show texts = v from is] at shown
      cases here.symm.trans shown
      exact ⟨none, rfl⟩
  | score =>
    rcases criteria with - | ⟨m | v⟩
    · cases is
    · rw [show texts = m.mapIdx _ from is, List.getElem?_mapIdx] at shown
      obtain ⟨e, at_, rfl⟩ := Option.map_eq_some_iff.mp shown
      have here : (m.map Prod.fst)[i]? = some label := here
      rw [List.getElem?_map, at_] at here
      cases here
      exact .inr ⟨e.2, rfl⟩
    · rw [show texts = v.mapIdx _ from is, List.getElem?_mapIdx] at shown
      obtain ⟨level, -, rfl⟩ := Option.map_eq_some_iff.mp shown
      have here : ((List.range v.length).map decimal)[i]? = some label := here
      rw [List.getElem?_map] at here
      obtain ⟨j, at_, rfl⟩ := Option.map_eq_some_iff.mp here
      obtain ⟨short, same⟩ := List.getElem?_eq_some_iff.mp at_
      rw [List.getElem_range] at same
      exact .inl ⟨by rw [same], level, rfl⟩

/-- What the caller called a level of a score. -/
def level (q : Question) (i : Nat) : Option Text :=
  match q.qtype, q.criteria with
  | .score, some (.list v) => v[i]?
  | .score, some (.named m) => m.keys[i]?
  | _, _ => none

/-- The named levels of a score are named by their numbers. -/
def Numbered (q : Question) : Prop :=
  ∀ m, q.qtype = .score → q.criteria = some (.named m) → m.keys = (List.range m.length).map decimal

end Question

namespace Ordered

variable {V : Type}

theorem get_of_nodup {m : Ordered V} (nodup : m.keys.Nodup) {i : Nat} {e : Text × V} (at_ : m[i]? = some e) :
    m.get e.1 = some e.2 := by
  induction m generalizing i with
  | nil => cases at_
  | cons e' m ih =>
    obtain ⟨other, nodup⟩ := List.nodup_cons.mp nodup
    cases i with
    | zero =>
      cases at_
      simp [get]
    | succ i =>
      have mem : e.1 ∈ m.map Prod.fst := List.mem_map_of_mem (List.mem_of_getElem? at_)
      have unlike : ¬e'.1 = e.1 := fun same => other (same ▸ mem)
      rw [get, List.find?_cons_of_neg (by simpa using unlike)]
      exact ih nodup at_

theorem mem_of_get {m : Ordered V} {key : Text} {v : V} (got : m.get key = some v) : key ∈ m.keys := by
  obtain ⟨e, found, -⟩ := Option.map_eq_some_iff.mp got
  have same := List.find?_some found
  exact List.mem_map.mpr ⟨e, List.mem_of_find?_eq_some found, by simpa using same⟩

/-- Entries under their numbers. -/
theorem numbered_keys (l : List V) (f : V → Text) :
    keys (l.mapIdx fun i c => (decimal i, f c)) = (List.range l.length).map decimal := by
  refine List.ext_getElem (by simp [keys]) fun i _ _ => ?_
  simp [keys]

theorem numbered_get (l : List V) (f : V → Text) {i : Nat} {c : V} (at_ : l[i]? = some c) :
    get (l.mapIdx fun i c => (decimal i, f c)) (decimal i) = some (f c) := by
  refine get_of_nodup (e := (decimal i, f c)) ?_ (i := i) (by rw [List.getElem?_mapIdx, at_]; rfl)
  rw [numbered_keys]
  exact List.nodup_range.map fun _ _ => decimal_inj

end Ordered

end Labels

end OpenAi

namespace Gateway

open OpenAi Backend

variable {S : Type} [Field S] [LinearOrder S]

/-- Each label comes with what is reported of the probability at its index. -/
def Reports (labels : List Text) (p : List S) (report : S → S) (probabilities : Ordered S) : Prop :=
  probabilities.length = labels.length ∧
    ∀ (i : Nat) label, labels[i]? = some label → ∃ x, p[i]? = some x ∧ probabilities[i]? = some (label, report x)

/-- An answer gives each probability to the option it is at the index of. -/
def Attributes (q : Question) (p : List S) (report : S → S) : OpenAi.Answer S → Prop
  | .choice choice probabilities _ _ =>
    Reports q.labels p report probabilities ∧
      ∃ (i : Nat) (x : S), q.labels[i]? = some choice ∧ p[i]? = some x ∧ ∀ y ∈ p, y ≤ x
  | .score _ legend probabilities _ _ =>
    Reports q.labels p report probabilities ∧ ∀ i label, q.labels[i]? = some label → legend.get label = q.level i
  | .noul noul _ => p[1]?.map report = some noul

/-- Labels, legend and texts of a question say the same of each index, and so does the answer to whatever scores the
model returns. -/
structure Aligned (m : Scalars S) (round : S → S) (q : Question) (texts : List Text) : Prop where
  length : q.labels.length = texts.length
  names : ∀ i label text, q.labels[i]? = some label → texts[i]? = some text → q.Names i label text
  legend : q.qtype = .score → ∀ key, key ∈ q.legend.keys ↔ key ∈ q.labels
  answer : ∀ (row : Proto.RowScores) (temperature : S), row.logits.length = texts.length →
    Attributes q (calibratedProbabilities m (row.logits.map fun l : ℚ => some (l : S)) temperature) (round4 round)
      (shapeAnswer m round q row temperature)

theorem calibrated_length (m : Scalars S) (logits : List (Option S)) (temperature : S) :
    (calibratedProbabilities m logits temperature).length = logits.length := by
  unfold calibratedProbabilities
  split
  · rename_i empty
    rw [empty]
    rfl
  · dsimp only
    generalize (if 0 < temperature then temperature else 1 : S) = t
    split <;> simp only [List.length_map]

omit [Field S] [LinearOrder S] in
theorem reports_zip {labels : List Text} {p : List S} (report : S → S) (same : labels.length = p.length) :
    Reports labels p report (labels.zip (p.map report)) := by
  refine ⟨by simp [same], fun i label here => ?_⟩
  obtain ⟨within, -⟩ := List.getElem?_eq_some_iff.mp here
  obtain ⟨x, at_⟩ : ∃ x, p[i]? = some x := ⟨_, List.getElem?_eq_getElem (same ▸ within)⟩
  exact ⟨x, at_, by rw [List.getElem?_zip_eq_some]; exact ⟨here, by rw [List.getElem?_map, at_]; rfl⟩⟩

omit [Field S] in
theorem greatest_spec (xs : List (S × Nat)) (x : S × Nat) :
    xs.foldl (fun best y => if best.1 ≤ y.1 then y else best) x ∈ x :: xs ∧
      ∀ y ∈ x :: xs, y.1 ≤ (xs.foldl (fun best y => if best.1 ≤ y.1 then y else best) x).1 := by
  induction xs generalizing x with
  | nil => simp
  | cons z xs ih =>
    obtain ⟨mem, most⟩ := ih (if x.1 ≤ z.1 then z else x)
    simp only [List.foldl_cons]
    by_cases more : x.1 ≤ z.1
    · rw [if_pos more] at mem most ⊢
      refine ⟨List.mem_cons_of_mem _ mem, fun y hy => ?_⟩
      rcases List.mem_cons.mp hy with rfl | hy
      · exact more.trans (most z List.mem_cons_self)
      · exact most y hy
    · rw [if_neg more] at mem most ⊢
      refine ⟨?_, fun y hy => ?_⟩
      · rcases List.mem_cons.mp mem with is | mem
        · rw [is]
          exact List.mem_cons_self
        · exact List.mem_cons_of_mem _ (List.mem_cons_of_mem _ mem)
      · rcases List.mem_cons.mp hy with rfl | hy
        · exact most y List.mem_cons_self
        · rcases List.mem_cons.mp hy with rfl | hy
          · exact (le_of_not_ge more).trans (most x List.mem_cons_self)
          · exact most y (List.mem_cons_of_mem _ hy)

omit [Field S] in
theorem maxBy_spec {p : List S} (some_ : p ≠ []) :
    ∃ (i : Nat) (x : S), maxBy p = some (x, i) ∧ p[i]? = some x ∧ ∀ y ∈ p, y ≤ x := by
  obtain ⟨x, xs, is⟩ := List.exists_cons_of_ne_nil (l := p.zipIdx) (by simpa using some_)
  obtain ⟨mem, most⟩ := greatest_spec xs x
  rw [← is] at mem most
  refine ⟨_, _, by rw [maxBy, is], List.mk_mem_zipIdx_iff_getElem?.mp mem, fun y hy => ?_⟩
  obtain ⟨j, at_⟩ := List.mem_iff_getElem?.mp hy
  exact most (y, j) (List.mk_mem_zipIdx_iff_getElem?.mpr at_)

section Aligned

variable (m : Scalars S) (round : S → S) {q : Question} {texts : List Text}

/-- The legend of a score has the levels under their numbers. -/
theorem legend_get (scored : q.qtype = .score) {i : Nat} {level : Text} (at_ : q.level i = some level) :
    q.legend.get (decimal i) = some level := by
  obtain ⟨qtype, criteria⟩ := q
  cases scored
  rcases criteria with - | ⟨named | v⟩
  · cases at_
  · have at_ : (named.map Prod.fst)[i]? = some level := at_
    obtain ⟨e, here, rfl⟩ := Option.map_eq_some_iff.mp (List.getElem?_map ▸ at_ : (named[i]?).map Prod.fst = some level)
    exact Ordered.numbered_get named Prod.fst here
  · exact Ordered.numbered_get v id at_

theorem level_some (scored : q.qtype = .score) (ok : q.optionTexts = .ok texts) {i : Nat} (within : i < texts.length) :
    ∃ level, q.level i = some level := by
  obtain ⟨-, is⟩ := Question.optionTexts_ok ok
  obtain ⟨qtype, criteria⟩ := q
  cases scored
  rcases criteria with - | ⟨named | v⟩
  · cases is
  · rw [show texts = named.mapIdx _ from is, List.length_mapIdx] at within
    exact ⟨named[i].1, by simp [Question.level, Ordered.keys, within]⟩
  · rw [show texts = v.mapIdx _ from is, List.length_mapIdx] at within
    exact ⟨v[i], by simp [Question.level, within]⟩

theorem legend_keys (scored : q.qtype = .score) (ok : q.optionTexts = .ok texts) :
    q.legend.keys = (List.range texts.length).map decimal := by
  obtain ⟨-, is⟩ := Question.optionTexts_ok ok
  obtain ⟨qtype, criteria⟩ := q
  cases scored
  rcases criteria with - | ⟨c | v⟩
  · cases is
  · rw [show texts = c.mapIdx _ from is, List.length_mapIdx]
    exact Ordered.numbered_keys c Prod.fst
  · rw [show texts = v.mapIdx _ from is, List.length_mapIdx]
    exact Ordered.numbered_keys v id

/-- A question whose levels go by their numbers is labelled with them. -/
theorem labels_numbered (scored : q.qtype = .score) (ok : q.optionTexts = .ok texts) :
    q.labels = (List.range texts.length).map decimal ↔ q.Numbered := by
  obtain ⟨-, is⟩ := Question.optionTexts_ok ok
  obtain ⟨qtype, criteria⟩ := q
  cases scored
  rcases criteria with - | ⟨c | v⟩
  · cases is
  · rw [show texts = c.mapIdx _ from is, List.length_mapIdx]
    constructor
    · intro numbered c' _ same
      cases same
      exact numbered
    · exact fun numbered => numbered c rfl rfl
  · rw [show texts = v.mapIdx _ from is, List.length_mapIdx]
    exact ⟨fun _ _ _ => nofun, fun _ => rfl⟩

/-- Labels that are the legend's keys, and under which the legend has the level at their index, are numbers. -/
theorem numbered_of_legend (scored : q.qtype = .score) (ok : q.optionTexts = .ok texts)
    (keys : ∀ key, key ∈ q.legend.keys ↔ key ∈ q.labels)
    (meant : ∀ i label, q.labels[i]? = some label → q.legend.get label = q.level i) :
    q.labels = (List.range texts.length).map decimal := by
  have length := Question.labels_length ok
  have listed := legend_keys scored ok
  obtain ⟨qtype, criteria⟩ := q
  cases scored
  rcases criteria with - | ⟨c | v⟩
  · cases ok
  · refine List.ext_getElem (by simp [length]) fun i within _ => ?_
    rw [List.getElem_map, List.getElem_range]
    -- some label is this number; the legend has there what the level at its index is called
    have number : decimal i ∈ c.keys := by
      rw [← show _ ↔ decimal i ∈ c.keys from keys (decimal i), listed]
      exact List.mem_map_of_mem (List.mem_range.mpr (length ▸ within))
    obtain ⟨j, at_⟩ := List.mem_iff_getElem?.mp number
    have there : (Question.mk .score (some (.named c))).legend.get (decimal i) = some (decimal i) :=
      (meant j _ at_).trans at_
    have here : (Question.mk .score (some (.named c))).level i = some c.keys[i] := List.getElem?_eq_getElem within
    exact Option.some.inj ((legend_get rfl here).symm.trans there)
  · obtain ⟨-, is⟩ := Question.optionTexts_ok ok
    rw [show texts = v.mapIdx _ from is, List.length_mapIdx]
    rfl

theorem attributes_shaped (ok : q.optionTexts = .ok texts) (numbered : q.Numbered) (row : Proto.RowScores)
    (temperature : S) (scored : row.logits.length = texts.length) :
    Attributes q (calibratedProbabilities m (row.logits.map fun l : ℚ => some (l : S)) temperature) (round4 round)
      (shapeAnswer m round q row temperature) := by
  have length := Question.labels_length ok
  obtain ⟨many, -⟩ := Question.optionTexts_ok ok
  generalize made : calibratedProbabilities m (row.logits.map fun l : ℚ => some (l : S)) temperature = p
  have wide : p.length = texts.length := by rw [← made, calibrated_length, List.length_map, scored]
  have reports := reports_zip (round4 round) (length.trans wide.symm)
  unfold shapeAnswer
  simp only [made]
  cases is : q.qtype with
  | choice =>
    refine ⟨reports, ?_⟩
    obtain ⟨i, x, found, at_, most⟩ := maxBy_spec (p := p) (by rintro rfl; simp at wide; omega)
    have within := (List.getElem?_eq_some_iff.mp at_).1
    refine ⟨i, x, ?_, at_, most⟩
    rw [found, Option.map_some, Option.getD_some, List.getElem?_eq_getElem (by omega), Option.getD_some]
  | score =>
    refine ⟨reports, fun i label here => ?_⟩
    have labels := (labels_numbered is ok).mpr numbered
    have within : i < texts.length := length ▸ (List.getElem?_eq_some_iff.mp here).1
    have number : label = decimal i := by
      rw [labels, List.getElem?_map, List.getElem?_range within] at here
      exact (Option.some.inj here).symm
    obtain ⟨level, at_⟩ := level_some is ok within
    rw [number, legend_get is at_, at_]
  | noul =>
    change p[1]?.map (round4 round) = some (round4 round (p[1]?.getD 0))
    rw [List.getElem?_eq_getElem (show 1 < p.length by omega)]
    rfl

/-- Labels, legend and texts agree for every question but a score whose named levels do not go by their numbers. -/
theorem aligned_iff (ok : q.optionTexts = .ok texts) : Aligned m round q texts ↔ q.Numbered := by
  constructor
  · intro aligned
    by_cases scored : q.qtype = .score
    · have answer := aligned.answer ⟨texts.map fun _ => 0, 0⟩ 1 (List.length_map _)
      have meant : ∀ i label, q.labels[i]? = some label → q.legend.get label = q.level i := by
        unfold shapeAnswer at answer
        simp only [scored] at answer
        exact answer.2
      exact (labels_numbered scored ok).mp (numbered_of_legend scored ok (aligned.legend scored) meant)
    · exact fun _ scored' => absurd scored' scored
  · intro numbered
    refine ⟨Question.labels_length ok, fun _ _ _ => Question.labels_name ok, fun scored key => ?_,
      attributes_shaped m round ok numbered⟩
    rw [legend_keys scored ok, (labels_numbered scored ok).mpr numbered]

end Aligned

section Example

/-- The functions themselves. -/
noncomputable def realScalars : Scalars ℝ := ⟨Real.exp, Real.log, Real.exp_pos⟩

/-- To the nearest integer, away from zero in the middle. -/
noncomputable def halfAway (x : ℝ) : ℝ := if 0 ≤ x then (⌊x + 1 / 2⌋ : ℝ) else (⌈x - 1 / 2⌉ : ℝ)

theorem levels_aligned : Aligned realScalars halfAway ⟨.score, some (.list ["not urgent".toList, "critical".toList])⟩
    ["level 0: not urgent".toList, "level 1: critical".toList] :=
  (aligned_iff realScalars halfAway (by decide)).mpr fun _ _ => nofun

/-- The urgency of a request, with its levels by name. -/
def urgency : Question :=
  ⟨.score, some (.named [("low".toList, none), ("high".toList, some "needs an answer today".toList)])⟩

/-- The answer reports `low` and `high`; its legend explains `0` and `1`. -/
theorem named_levels_mislabelled : urgency.optionTexts.isOk = true ∧
    urgency.labels = ["low".toList, "high".toList] ∧ urgency.legend.keys = ["0".toList, "1".toList] ∧
    ∀ texts, ¬Aligned realScalars halfAway urgency texts := by
  refine ⟨by decide, by decide, by decide, fun texts aligned => ?_⟩
  have zero := (aligned.legend rfl "0".toList).mp (by decide)
  exact absurd zero (by decide)

end Example

end Gateway

end Vapi
