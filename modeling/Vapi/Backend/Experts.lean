import Vapi.Lib.Groups
import Vapi.Lib.Ranking
import Vapi.Backend.Modernbert
import Mathlib.Algebra.BigOperators.Group.Finset.Basic
import Mathlib.Algebra.BigOperators.Pi
import Mathlib.Algebra.Field.Rat
import Mathlib.Algebra.Order.Ring.Rat

/-!
# Routed experts

`MoeBlock::forward` of `vapi-backend-candle/src/models/laguna.rs`: tokens are
grouped by the experts they are routed to, each expert runs on its group, and
what it gives is added back to the rows it is for. Numbers are exact.
-/

namespace Vapi.Backend

/-- A token's row of a batch. -/
abbrev HiddenRow (S : Type) (hidden : Nat) := Fin hidden → S

/-- The functions of a number that routing and experts use. -/
structure Activations (S : Type) where
  tanh : S → S
  sigmoid : S → S
  silu : S → S

section Expert

variable {S : Type} [Field S] {hidden : Nat}

/-- One expert's weights: of `gateUp` the gate rows before the up rows. -/
structure Expert (S : Type) (hidden : Nat) where
  inter : Nat
  gateUp : Fin (inter + inter) → HiddenRow S hidden
  down : Fin hidden → Fin inter → S

def Expert.forward (act : Activations S) (expert : Expert S hidden) (x : HiddenRow S hidden) : HiddenRow S hidden :=
  let gu := fun j => ∑ i, x i * expert.gateUp j i
  let gate := fun j => gu (Fin.castAdd expert.inter j)
  let up := fun j => gu (Fin.natAdd expert.inter j)
  fun h => ∑ j, act.silu (gate j) * up j * expert.down h j

structure Mlp (S : Type) (hidden : Nat) where
  inter : Nat
  gateProj : Fin inter → HiddenRow S hidden
  upProj : Fin inter → HiddenRow S hidden
  downProj : Fin hidden → Fin inter → S

def Mlp.forward (act : Activations S) (mlp : Mlp S hidden) (x : HiddenRow S hidden) : HiddenRow S hidden :=
  let x := fun j => act.silu (∑ i, x i * mlp.gateProj j i) * ∑ i, x i * mlp.upProj j i
  fun h => ∑ j, x j * mlp.downProj h j

end Expert

/-- Experts of any kind behind a router, with one that all tokens share. -/
structure MoeBlock (S E : Type) (hidden : Nat) where
  /-- A row for each expert. -/
  router : List (HiddenRow S hidden)
  /-- Added to the scores for selection only. -/
  selectionBias : List S
  experts : List E
  shared : HiddenRow S hidden → HiddenRow S hidden
  topK : Nat
  normTopk : Bool
  scaling : S
  softcap : S
  biases : selectionBias.length = router.length
  loaded : experts.length = router.length

/-- Rows of the batch by expert: which tokens, and at what weights. -/
abbrev Dispatch (S : Type) := List (Nat × List UInt32 × List S)

/-- `index_add` along the first dimension. -/
def indexAdd {S : Type} [Add S] {hidden : Nat} (out : List (HiddenRow S hidden)) (index : List Nat)
    (ys : List (HiddenRow S hidden)) : Except String (List (HiddenRow S hidden)) :=
  if index.length ≠ ys.length then .error "shape mismatch in index-add"
  else
    (index.zip ys).foldlM (fun out p =>
      (out[p.1]?).elim (.error "index out of range") fun x => .ok (out.set p.1 (x + p.2))) out

namespace MoeBlock

variable {S E : Type} [Field S] [LinearOrder S] {hidden : Nat} (act : Activations S)
  (run : E → HiddenRow S hidden → HiddenRow S hidden) (b : MoeBlock S E hidden)

def scores (x : HiddenRow S hidden) : List S :=
  b.router.map fun weights =>
    let logit := ∑ i, x i * weights i
    act.sigmoid (if b.softcap > 0 then act.tanh (logit / b.softcap) * b.softcap else logit)

def selection (x : HiddenRow S hidden) : List S := List.zipWith (· + ·) (b.scores act x) b.selectionBias

/-- The experts of a token and their weights, largest selection first. -/
def route (x : HiddenRow S hidden) : Except String (List (Nat × S)) :=
  let scores := b.scores act x
  let sel := b.selection act x
  let idx := (List.range sel.length).mergeSort fun a b => sel.getD b 0 ≤ sel.getD a 0
  if b.topK ≤ idx.length then
    let chosen := idx.take b.topK
    let w := chosen.map fun e => scores.getD e 0
    let w := if b.normTopk then w.map (· / w.sum) else w
    .ok (chosen.zip w)
  else .error "range end index out of range"

/-- A token is put under its experts. Its index is kept in 32 bits. -/
def dispatchToken (perExpert : Dispatch S) (token : HiddenRow S hidden × Nat) : Except String (Dispatch S) := do
  let chosen ← b.route act token.1
  return chosen.foldl (fun perExpert p =>
    Groups.update p.1 ([], []) (fun slot => (slot.1 ++ [UInt32.ofNat token.2], slot.2 ++ [p.2 * b.scaling])) perExpert)
    perExpert

def dispatch (xs : List (HiddenRow S hidden)) : Except String (Dispatch S) := xs.zipIdx.foldlM (b.dispatchToken act) []

/-- One expert on the rows of its group. -/
def runGroup (xs out : List (HiddenRow S hidden)) (group : Nat × List UInt32 × List S) :
    Except String (List (HiddenRow S hidden)) := do
  let (e, tokens, weights) := group
  if tokens.length ≠ weights.length then .error "shape mismatch in from_vec"
  else
    let index := tokens.map UInt32.toNat
    let rows ← gather xs index
    let expert ← (b.experts[e]?).elim (.error "index out of bounds") .ok
    let ys := List.zipWith (fun x w i => run expert x i * w) rows weights
    indexAdd out index ys

def forward (xs : List (HiddenRow S hidden)) : Except String (List (HiddenRow S hidden)) := do
  let shared := xs.map b.shared
  let perExpert ← b.dispatch act xs
  let out ← (perExpert.mergeSort fun a b => a.1 ≤ b.1).foldlM (b.runGroup run xs) (List.replicate xs.length 0)
  return List.zipWith (· + ·) out shared

/-- The experts of a token that fewer than `topK` are ahead of: those with a
larger selection, or one as large and a lower number. -/
def best (x : HiddenRow S hidden) : Finset Nat :=
  let selected := fun e => (e, (b.selection act x).getD e 0)
  (Finset.range b.router.length).filter fun e =>
    ((Finset.range b.router.length).filter fun e' => Ranking.Ahead (selected e') (selected e)).card < b.topK

/-- The share of one of the best, of its score without the bias. -/
def share (x : HiddenRow S hidden) (e : Nat) : S :=
  let score := fun e => (b.scores act x).getD e 0
  if b.normTopk then score e / ∑ e' ∈ b.best act x, score e' else score e

def gate (x : HiddenRow S hidden) (e : Nat) : S := b.share act x e * b.scaling

/-- What expert `e` gives for a token by itself. -/
def output (e : Nat) (x : HiddenRow S hidden) : HiddenRow S hidden := (b.experts[e]?).elim 0 fun expert => run expert x

def routed (x : HiddenRow S hidden) : HiddenRow S hidden :=
  ∑ e ∈ b.best act x, fun i => b.output run e x i * b.gate act x e

/-- A token's row, from nothing but the token. -/
def row (x : HiddenRow S hidden) : HiddenRow S hidden := b.routed act run x + b.shared x

section Route

variable {act run b} {x : HiddenRow S hidden}

theorem scores_length : (b.scores act x).length = b.router.length := List.length_map _

theorem selection_length : (b.selection act x).length = b.router.length := by
  rw [selection, List.length_zipWith, scores_length, b.biases, Nat.min_self]

variable (act b x) in
/-- The experts by selection, largest first. -/
def ranked : List Nat :=
  (List.range b.router.length).mergeSort fun i j => (b.selection act x).getD j 0 ≤ (b.selection act x).getD i 0

variable (act b x) in
def chosen : List Nat := (b.ranked act x).take b.topK

theorem ranked_perm : (b.ranked act x).Perm (List.range b.router.length) := List.mergeSort_perm _ _

theorem chosen_nodup : (b.chosen act x).Nodup :=
  (ranked_perm.nodup_iff.mpr List.nodup_range).sublist (List.take_sublist _ _)

theorem chosen_lt {e : Nat} (mem : e ∈ b.chosen act x) : e < b.router.length :=
  List.mem_range.mp (ranked_perm.subset (List.mem_of_mem_take mem))

theorem chosen_length (enough : b.topK ≤ b.router.length) : (b.chosen act x).length = b.topK := by
  rw [chosen, List.length_take, ranked_perm.length_eq, List.length_range, Nat.min_eq_left enough]

theorem mem_chosen {e : Nat} : e ∈ b.chosen act x ↔ e ∈ b.best act x := by
  let selected := fun e => (e, (b.selection act x).getD e 0)
  have order : (b.ranked act x).Pairwise fun e e' => Ranking.Ahead (selected e) (selected e') :=
    Ranking.sort_range_ahead b.router.length
  have cut := Ranking.mem_cut (k := some b.topK) (q := fun _ => true) (x := e) order (fun _ _ _ ok => ok)
    (fun e => Ranking.Ahead.irrefl (selected e)) fun _ _ ahead => ahead.asymm
  have whole : Ranking.cut (some b.topK) (fun _ => true) (b.ranked act x) = b.chosen act x := by
    simp [Ranking.cut, chosen]
  have counted : ((b.ranked act x).filter fun e' => Ranking.Ahead (selected e') (selected e)).length =
      ((Finset.range b.router.length).filter fun e' => Ranking.Ahead (selected e') (selected e)).card := by
    rw [(ranked_perm.filter _).length_eq]
    rfl
  have here : e ∈ b.ranked act x ↔ e ∈ Finset.range b.router.length := by
    rw [ranked_perm.mem_iff, List.mem_range, Finset.mem_range]
  change e ∈ Ranking.cut _ _ (b.ranked act x) ↔ e ∈ b.ranked act x ∧ _ at cut
  rw [← whole, cut, best, Finset.mem_filter, here]
  simp only [true_and, Option.some.injEq, forall_eq']
  exact and_congr_right fun _ => by rw [← counted]

theorem chosen_toFinset : (b.chosen act x).toFinset = b.best act x := by
  refine Finset.ext fun e => ?_
  rw [List.mem_toFinset, mem_chosen]

theorem best_card (enough : b.topK ≤ b.router.length) : (b.best act x).card = b.topK := by
  rw [← chosen_toFinset, List.toFinset_card_of_nodup chosen_nodup, chosen_length enough]

theorem route_eq (enough : b.topK ≤ b.router.length) :
    b.route act x = .ok ((b.chosen act x).map fun e => (e, b.share act x e)) := by
  have long : b.topK ≤ (b.ranked act x).length := by rwa [ranked_perm.length_eq, List.length_range]
  have total : ((b.chosen act x).map fun e => (b.scores act x).getD e 0).sum =
      ∑ e ∈ b.best act x, (b.scores act x).getD e 0 := by
    rw [← chosen_toFinset, List.sum_toFinset _ chosen_nodup]
  have weights : (if b.normTopk then ((b.chosen act x).map fun e => (b.scores act x).getD e 0).map
      (· / ((b.chosen act x).map fun e => (b.scores act x).getD e 0).sum) else
      (b.chosen act x).map fun e => (b.scores act x).getD e 0) = (b.chosen act x).map (b.share act x) := by
    rw [total]
    unfold share
    cases b.normTopk
    · rfl
    · rw [if_pos rfl, List.map_map]
      rfl
  unfold route
  simp only [selection_length]
  change (if b.topK ≤ (b.ranked act x).length then Except.ok ((b.chosen act x).zip _) else _) = _
  rw [if_pos long]
  refine congrArg Except.ok ((congrArg ((b.chosen act x).zip ·) weights).trans ?_)
  rw [← List.map_prod_left_eq_zip]

end Route

section Batch

variable {act run b} {xs out : List (HiddenRow S hidden)}

/-- What one expert adds to row `r` for one token. -/
def contribution (run : E → HiddenRow S hidden → HiddenRow S hidden) (b : MoeBlock S E hidden)
    (xs : List (HiddenRow S hidden)) (r : Nat) (entry : Nat × UInt32 × S) : HiddenRow S hidden :=
  if entry.2.1.toNat = r then fun i => b.output run entry.1 (xs.getD entry.2.1.toNat 0) i * entry.2.2 else 0

/-- What is put under the experts for a token. -/
def entries (act : Activations S) (b : MoeBlock S E hidden) (token : HiddenRow S hidden × Nat) :
    List (Nat × UInt32 × S) :=
  (b.chosen act token.1).map fun e => (e, UInt32.ofNat token.2, b.gate act token.1 e)

/-- The entries of a group. -/
def held (group : Nat × List UInt32 × List S) : List (Nat × UInt32 × S) :=
  (group.2.1.zip group.2.2).map fun p => (group.1, p.1, p.2)

/-- A group's lists go together, and its expert and its rows are there. -/
structure Aligned (b : MoeBlock S E hidden) (n : Nat) (group : Nat × List UInt32 × List S) : Prop where
  same : group.2.1.length = group.2.2.length
  expert : group.1 < b.router.length
  rows : ∀ t ∈ group.2.1, t.toNat < n

omit [LinearOrder S] in
/-- A token is put under each of its experts. -/
theorem push_eq {n : Nat} {t : UInt32} (inside : t.toNat < n) {chosen : List (Nat × S)}
    (known : ∀ p ∈ chosen, p.1 < b.router.length) {m : Dispatch S} (all : ∀ g ∈ m, Aligned b n g) :
    let m' := chosen.foldl (fun m p =>
      Groups.update p.1 ([], []) (fun slot => (slot.1 ++ [t], slot.2 ++ [p.2 * b.scaling])) m) m
    (∀ g ∈ m', Aligned b n g) ∧
      (m'.flatMap held).Perm (m.flatMap held ++ chosen.map fun p => (p.1, t, p.2 * b.scaling)) := by
  induction chosen generalizing m with
  | nil => exact ⟨all, by simp⟩
  | cons p chosen ih =>
    obtain ⟨first, later⟩ := List.forall_mem_cons.mp known
    have start : Aligned b n (p.1, [], []) := ⟨rfl, first, by simp⟩
    have step : ∀ v, Aligned b n (p.1, v) → Aligned b n (p.1, v.1 ++ [t], v.2 ++ [p.2 * b.scaling]) := by
      rintro ⟨tokens, weights⟩ ⟨same, expert, rows⟩
      refine ⟨by simpa using same, expert, fun t' mem => ?_⟩
      rcases List.mem_append.mp mem with earlier | last
      · exact rows t' earlier
      · rw [List.mem_singleton.mp last]
        exact inside
    have one : ∀ v : List UInt32 × List S, Aligned b n (p.1, v) →
        held (p.1, v.1 ++ [t], v.2 ++ [p.2 * b.scaling]) = held (p.1, v) ++ [(p.1, t, p.2 * b.scaling)] := by
      rintro ⟨tokens, weights⟩ ⟨same, -, -⟩
      have same : tokens.length = weights.length := same
      simp [held, List.zip_append same]
    obtain ⟨aligned, perm⟩ := ih later (Groups.forall_update all start step)
    refine ⟨aligned, perm.trans ?_⟩
    refine ((Groups.held_update all start rfl one).append_right _).trans ?_
    simp

/-- The groups hold every token under each of its experts, and nothing else. -/
theorem dispatch_fold (enough : b.topK ≤ b.router.length) {n : Nat} {tokens : List (HiddenRow S hidden × Nat)}
    (inside : ∀ token ∈ tokens, (UInt32.ofNat token.2).toNat < n) {m : Dispatch S} (all : ∀ g ∈ m, Aligned b n g) :
    ∃ m', tokens.foldlM (b.dispatchToken act) m = .ok m' ∧ (∀ g ∈ m', Aligned b n g) ∧
      (m'.flatMap held).Perm (m.flatMap held ++ tokens.flatMap (entries act b)) := by
  induction tokens generalizing m with
  | nil => exact ⟨m, rfl, all, by simp⟩
  | cons token tokens ih =>
    obtain ⟨first, later⟩ := List.forall_mem_cons.mp inside
    have known : ∀ p ∈ (b.chosen act token.1).map fun e => (e, b.share act token.1 e), p.1 < b.router.length := by
      intro p mem
      obtain ⟨e, chosen, rfl⟩ := List.mem_map.mp mem
      exact chosen_lt chosen
    obtain ⟨aligned, put⟩ := push_eq (b := b) first known all
    obtain ⟨m', ran, aligned', perm⟩ := ih later aligned
    refine ⟨m', ?_, aligned', ?_⟩
    · rw [List.foldlM_cons, dispatchToken, route_eq enough]
      exact ran
    · rw [List.map_map] at put
      rw [List.flatMap_cons, ← List.append_assoc]
      exact perm.trans (put.append_right _)

variable (act) in
theorem dispatch_eq (enough : b.topK ≤ b.router.length) (xs : List (HiddenRow S hidden)) :
    ∃ m, b.dispatch act xs = .ok m ∧ (∀ g ∈ m, Aligned b xs.length g) ∧
      (m.flatMap held).Perm (xs.zipIdx.flatMap (entries act b)) := by
  have inside : ∀ token ∈ xs.zipIdx, (UInt32.ofNat token.2).toNat < xs.length := by
    rintro ⟨x, t⟩ mem
    rw [UInt32.toNat_ofNat']
    exact Nat.lt_of_le_of_lt (Nat.mod_le _ _) (List.mem_zipIdx' mem).1
  exact dispatch_fold enough inside (m := []) (by simp)

omit [LinearOrder S] in
/-- A row has what is added to it. -/
theorem indexAdd_eq {index : List Nat} {ys : List (HiddenRow S hidden)} (same : index.length = ys.length)
    (inside : ∀ i ∈ index, i < out.length) : ∃ out', indexAdd out index ys = .ok out' ∧ out'.length = out.length ∧
      ∀ r, r < out.length →
        out'.getD r 0 = out.getD r 0 + ((index.zip ys).map fun p => if p.1 = r then p.2 else 0).sum := by
  rw [indexAdd, if_neg (not_not_intro same)]
  have bounds : ∀ p ∈ index.zip ys, p.1 < out.length := fun p mem => inside p.1 (List.of_mem_zip mem).1
  clear inside same
  generalize index.zip ys = pairs at bounds ⊢
  induction pairs generalizing out with
  | nil => exact ⟨out, rfl, rfl, fun r _ => by simp⟩
  | cons p pairs ih =>
    obtain ⟨first, later⟩ := List.forall_mem_cons.mp bounds
    obtain ⟨out', ran, length, each⟩ := @ih (out.set p.1 (out.getD p.1 0 + p.2))
      (fun p mem => by rw [List.length_set]; exact later p mem)
    rw [List.length_set] at length each
    have here : out[p.1]? = some (out.getD p.1 0) := by
      rw [List.getD_eq_getElem?_getD, List.getElem?_eq_getElem first, Option.getD_some]
    refine ⟨out', ?_, length, fun r within => ?_⟩
    · rw [List.foldlM_cons, here]
      exact ran
    · rw [each r within, List.map_cons, List.sum_cons, ← add_assoc]
      congr 1
      rw [List.getD_eq_getElem?_getD, List.getElem?_set]
      by_cases same : p.1 = r
      · subst same
        rw [if_pos rfl, if_pos within, if_pos rfl]
        rfl
      · rw [if_neg same, if_neg same, add_zero, List.getD_eq_getElem?_getD]

omit [LinearOrder S] in
theorem gather_eq {table : List (HiddenRow S hidden)} {index : List Nat} (inside : ∀ i ∈ index, i < table.length) :
    gather table index = .ok (index.map fun i => table.getD i 0) := by
  refine mapM_ok fun i mem => ?_
  rw [List.getD_eq_getElem?_getD, List.getElem?_eq_getElem (inside i mem)]
  rfl

omit [LinearOrder S] in
variable (run) in
/-- An expert's group adds to each row what the group holds for it. -/
theorem runGroup_eq {group : Nat × List UInt32 × List S} (aligned : Aligned b xs.length group)
    (long : out.length = xs.length) : ∃ out', b.runGroup run xs out group = .ok out' ∧ out'.length = xs.length ∧
      ∀ r, r < xs.length →
        out'.getD r 0 = out.getD r 0 + ((held group).map (contribution run b xs r)).sum := by
  obtain ⟨e, tokens, weights⟩ := group
  obtain ⟨same, expert, rows⟩ := aligned
  dsimp only at same expert rows
  have inside : ∀ i ∈ tokens.map UInt32.toNat, i < xs.length := by
    intro i mem
    obtain ⟨t, known, rfl⟩ := List.mem_map.mp mem
    exact rows t known
  have loaded : b.experts[e]? = some (b.experts.get ⟨e, b.loaded ▸ expert⟩) := List.getElem?_eq_getElem _
  generalize b.experts.get ⟨e, b.loaded ▸ expert⟩ = weightsOf at loaded
  let ys := List.zipWith (fun x w i => run weightsOf x i * w) ((tokens.map UInt32.toNat).map fun i => xs.getD i 0) weights
  have parallel : (tokens.map UInt32.toNat).length = ys.length := by simp [ys, same]
  obtain ⟨out', ran, length, each⟩ := indexAdd_eq parallel (show ∀ i ∈ tokens.map UInt32.toNat, i < out.length by rwa [long])
  refine ⟨out', ?_, length.trans long, fun r within => ?_⟩
  · rw [runGroup, if_neg (not_not_intro same)]
    dsimp only
    rw [gather_eq inside, loaded]
    exact ran
  · rw [each r (long ▸ within)]
    congr 1
    refine congrArg List.sum ?_
    rw [held, List.map_map]
    dsimp only [ys]
    rw [List.map_map]
    clear inside ran each rows parallel ys
    induction tokens generalizing weights with
    | nil => rfl
    | cons t tokens ih =>
      obtain ⟨w, weights, rfl⟩ := List.exists_cons_of_length_eq_add_one same.symm
      have rest := ih weights (Nat.succ.inj same)
      simp only [List.map_cons, List.zipWith_cons_cons, List.zip_cons_cons, Function.comp_apply] at rest ⊢
      rw [rest]
      refine congrArg (· :: _) ?_
      simp only [contribution, output, loaded, Option.elim_some]

omit [LinearOrder S] in
variable (run) in
/-- The groups in turn. -/
theorem runGroups_eq {m : Dispatch S} (aligned : ∀ g ∈ m, Aligned b xs.length g) (long : out.length = xs.length) :
    ∃ out', m.foldlM (b.runGroup run xs) out = .ok out' ∧ out'.length = xs.length ∧
      ∀ r, r < xs.length →
        out'.getD r 0 = out.getD r 0 + ((m.flatMap held).map (contribution run b xs r)).sum := by
  induction m generalizing out with
  | nil => exact ⟨out, rfl, long, fun r _ => by simp⟩
  | cons group m ih =>
    obtain ⟨first, later⟩ := List.forall_mem_cons.mp aligned
    obtain ⟨next, ran, length, each⟩ := runGroup_eq run first long
    obtain ⟨out', rest, length', each'⟩ := ih later length
    refine ⟨out', ?_, length', fun r within => ?_⟩
    · rw [List.foldlM_cons, ran]
      exact rest
    · rw [each' r within, each r within, List.flatMap_cons, List.map_append, List.sum_append, add_assoc]

variable (act run) in
/-- Every row has what its index was put under the experts for, and what is
shared. -/
theorem forward_rows (enough : b.topK ≤ b.router.length) (xs : List (HiddenRow S hidden)) :
    ∃ ys, b.forward act run xs = .ok ys ∧ ys.length = xs.length ∧ ∀ (r : Nat) x, xs[r]? = some x →
      ys[r]? = some (((xs.zipIdx.flatMap (entries act b)).map (contribution run b xs r)).sum + b.shared x) := by
  obtain ⟨m, grouped, aligned, perm⟩ := dispatch_eq act enough xs
  let sorted := m.mergeSort fun a b => a.1 ≤ b.1
  have order : sorted.Perm m := List.mergeSort_perm m _
  obtain ⟨out, ran, length, each⟩ := runGroups_eq run (fun g mem => aligned g (order.subset mem))
    (List.length_replicate : (List.replicate xs.length (0 : HiddenRow S hidden)).length = xs.length)
  refine ⟨List.zipWith (· + ·) out (xs.map b.shared), ?_, by simp [length], fun r x at_ => ?_⟩
  · rw [forward, grouped]
    change (sorted.foldlM (b.runGroup run xs) (List.replicate xs.length 0) >>= fun out => _) = _
    rw [ran]
    rfl
  · have within := (List.getElem?_eq_some_iff.mp at_).1
    have put := each r within
    rw [List.getD_eq_getElem?_getD, List.getD_eq_getElem?_getD, List.getElem?_replicate_of_lt within, Option.getD_some,
      zero_add, (((order.flatMap_right held).trans perm).map _).sum_eq, List.getElem?_eq_getElem (length ▸ within),
      Option.getD_some] at put
    rw [List.getElem?_zipWith, List.getElem?_eq_getElem (length ▸ within), List.getElem?_map, at_, put]
    rfl

/-- Of a numbered list the one with number `r` is left. -/
theorem sum_zipIdx {α M : Type} [AddCommMonoid M] (g : α → M) (l : List α) (k r : Nat) :
    ((l.zipIdx k).map fun p => if p.2 = k + r then g p.1 else 0).sum = (l[r]?).elim 0 g := by
  induction l generalizing k r with
  | nil => rfl
  | cons x l ih =>
    rw [List.zipIdx_cons, List.map_cons, List.sum_cons]
    cases r with
    | zero =>
      have none_ : ∀ p ∈ l.zipIdx (k + 1), (if p.2 = k + 0 then g p.1 else 0) = 0 := by
        intro p mem
        have past := List.le_snd_of_mem_zipIdx mem
        exact if_neg (by omega)
      rw [List.map_congr_left none_]
      simp
    | succ r =>
      have rest := ih (k + 1) r
      rw [Nat.succ_add_eq_add_succ] at rest
      rw [if_neg (by omega : k ≠ k + (r + 1)), zero_add, rest, List.getElem?_cons_succ]

/-- A token adds to the row of its own number only. -/
theorem entries_sum {token : HiddenRow S hidden × Nat} (known : token ∈ xs.zipIdx) (small : token.2 < 2 ^ 32)
    (r : Nat) :
    ((entries act b token).map (contribution run b xs r)).sum =
      if token.2 = r then b.routed act run token.1 else 0 := by
  obtain ⟨x, t⟩ := token
  have number : (UInt32.ofNat t).toNat = t := UInt32.toNat_ofNat_of_lt' small
  have own : xs.getD t 0 = x := by
    rw [List.getD_eq_getElem?_getD, List.mem_zipIdx_iff_getElem?.mp known, Option.getD_some]
  rw [entries, List.map_map]
  by_cases same : t = r
  · rw [if_pos same, routed, ← chosen_toFinset, List.sum_toFinset _ chosen_nodup]
    refine congrArg List.sum (List.map_congr_left fun e _ => ?_)
    rw [Function.comp_apply, contribution, if_pos (number.trans same)]
    dsimp only
    rw [number, own]
  · rw [if_neg same]
    have none_ : ∀ e ∈ b.chosen act x, (contribution run b xs r ∘ fun e => (e, UInt32.ofNat t, b.gate act x e)) e = 0 :=
      fun e _ => if_neg fun is => same (number ▸ is)
    rw [List.map_congr_left none_]
    simp

end Batch

/-- Grouping tokens by expert gives each token its own row: the shared expert
and the best of its experts at their weights, whatever else is in the batch. -/
theorem routes_each (enough : b.topK ≤ b.router.length) {xs : List (HiddenRow S hidden)}
    (numbered : xs.length ≤ 2 ^ 32) :
    b.forward act run xs = .ok (xs.map (b.row act run)) ∧ ∀ x, (b.best act x).card = b.topK := by
  refine ⟨?_, fun x => best_card enough⟩
  obtain ⟨ys, ran, length, each⟩ := forward_rows act run enough xs
  rw [ran]
  refine congrArg Except.ok (List.ext_getElem? fun r => ?_)
  rw [List.getElem?_map]
  cases at_ : xs[r]? with
  | none => rw [List.getElem?_eq_none (by rw [length]; exact List.getElem?_eq_none_iff.mp at_)]; rfl
  | some x =>
    have each_ : ∀ token ∈ xs.zipIdx, ((entries act b token).map (contribution run b xs r)).sum =
        if token.2 = 0 + r then b.routed act run token.1 else 0 := by
      intro token mem
      rw [Nat.zero_add]
      exact entries_sum mem (Nat.lt_of_lt_of_le (List.mem_zipIdx' mem).1 numbered) r
    have total : ((xs.zipIdx.flatMap (entries act b)).map (contribution run b xs r)).sum = b.routed act run x := by
      rw [List.map_flatMap, List.flatMap_def, List.sum_flatten, List.map_map]
      exact (congrArg List.sum (List.map_congr_left each_)).trans ((sum_zipIdx _ xs 0 r).trans (by rw [at_]; rfl))
    rw [each r x at_, total]
    rfl

section Example

/-- The functions near zero. -/
def atZero : Activations ℚ := ⟨id, fun x => x + 1 / 2, fun x => x / 2⟩

/-- Two experts that scale a row, of which the second is preferred. -/
def two : MoeBlock ℚ ℚ 1 where
  router := [0, 0]
  selectionBias := [0, 1]
  experts := [2, 3]
  shared := id
  topK := 1
  normTopk := true
  scaling := 1
  softcap := 0
  biases := rfl
  loaded := rfl

theorem routes_each_two : two.forward atZero (· • ·) [fun _ => 1, fun _ => 5] =
      .ok ([fun _ => 1, fun _ => 5].map (two.row atZero (· • ·))) ∧ ∀ x, (two.best atZero x).card = 1 :=
  routes_each atZero (· • ·) two (by decide) (by decide)

example : two.row atZero (· • ·) (fun _ => 5) 0 = 20 := by decide +kernel

/-- The last token of more than indices of 32 bits can tell apart is not given
to its expert: its index is that of the first. -/
theorem token_wraps : ∃ xs : List (HiddenRow ℚ 1),
    two.forward atZero (· • ·) xs ≠ .ok (xs.map (two.row atZero (· • ·))) := by
  refine ⟨List.replicate (2 ^ 32 + 1) fun _ => 1, fun same => ?_⟩
  obtain ⟨ys, ran, -, each⟩ := forward_rows (b := two) atZero (· • ·) (by decide)
    (List.replicate (2 ^ 32 + 1) fun _ => 1)
  have last := each (2 ^ 32) (fun _ => 1) (List.getElem?_replicate_of_lt (by decide))
  rw [Except.ok.inj (ran.symm.trans same), List.getElem?_map, List.getElem?_replicate_of_lt (by decide),
    Option.map_some, Option.some.injEq] at last
  have none_ : ∀ entry : Nat × UInt32 × ℚ,
      contribution (· • ·) two (List.replicate (2 ^ 32 + 1) fun _ => 1) (2 ^ 32) entry = 0 :=
    fun entry => if_neg (Nat.ne_of_lt (UInt32.toNat_lt entry.2.1))
  rw [List.map_congr_left fun entry _ => none_ entry, List.map_const', List.sum_replicate, nsmul_zero, zero_add] at last
  have routed := congrFun last 0
  have value : two.row atZero (· • ·) (fun _ => 1) 0 = 4 := by decide +kernel
  rw [value] at routed
  exact absurd routed (by decide +kernel)

end Example

end MoeBlock

end Vapi.Backend
