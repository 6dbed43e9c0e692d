import Vapi.Backend.Dense
import Mathlib.Algebra.Order.BigOperators.Group.Finset

/-!
# The speech decoder's trimmed cache

`vapi-backend-candle/src/models/voxtral.rs`: a layer's keys and values are cut
down to the window in the call that attends over them. Numbers are exact, and
what the mask hides has no weight.
-/

namespace Vapi.Backend.Speech

variable {S X Y : Type} {heads kvHeads dim : Nat}

/-- A key is hidden past the query's position, and from the window on behind it. -/
def causalMask (offset : Nat) (window : Option Nat) (q k : Nat) : Bool :=
  let pos := offset + q
  let tooLate := pos < k
  let tooOld := window.any fun w => w ≤ pos - k
  tooLate || tooOld

/-- `offset` is where the queries start among the keys. -/
def attend [Field S] [LinearOrder S] (m : Scalars S) (scale : S) (q : List (HeadVectors S heads dim))
    (k v : List (HeadVectors S kvHeads dim)) (offset : Nat) (window : Option Nat) :
    Except String (List (HeadVectors S heads dim)) :=
  let times := heads / kvHeads
  if kvHeads = 0 then .error "attempt to divide by zero"
  else if same : heads = kvHeads * times then
    let kh := k.map fun row head => repeatKv times row (Fin.cast same head)
    let vh := v.map fun row head => repeatKv times row (Fin.cast same head)
    .ok (q.mapIdx fun i qi head c =>
      let att := kh.mapIdx fun j kj =>
        if causalMask offset window i j then none else some ((∑ e, qi head e * kj head e) * scale)
      (List.zipWith (fun w vj => w * vj head c) (softmax m att) vh).sum)
  else .error "shape mismatch in matmul"

/-- One layer's keys and values, trimmed to the sliding window. -/
structure LayerCache (S : Type) (kvHeads dim : Nat) where
  k : Option (List (HeadVectors S kvHeads dim)) := none
  v : Option (List (HeadVectors S kvHeads dim)) := none
  /-- Positions evicted from the front, so absolute positions stay right. -/
  dropped : Nat := 0

namespace LayerCache

def len (cache : LayerCache S kvHeads dim) : Nat := (cache.k.map fun k => k.length + cache.dropped).getD 0

/-- The keys and values with a step's own behind them. -/
def joined (cache : LayerCache S kvHeads dim) (k v : List (HeadVectors S kvHeads dim)) :
    List (HeadVectors S kvHeads dim) × List (HeadVectors S kvHeads dim) :=
  match cache.k, cache.v with
  | some pk, some pv => (pk ++ k, pv ++ v)
  | _, _ => (k, v)

def push (cache : LayerCache S kvHeads dim) (k v : List (HeadVectors S kvHeads dim)) (window : Nat) :
    Except String ((List (HeadVectors S kvHeads dim) × List (HeadVectors S kvHeads dim)) × LayerCache S kvHeads dim) :=
  let (nk, nv) := cache.joined k v
  let len := nk.length
  if window < len then do
    let cut := len - window
    let nk ← Backend.narrow nk cut window
    let nv ← Backend.narrow nv cut window
    return ((nk, nv), ⟨some nk, some nv, cache.dropped + cut⟩)
  else .ok ((nk, nv), ⟨some nk, some nv, cache.dropped⟩)

end LayerCache

/-- The rotation of each row's vectors, of which every head has one. -/
abbrev RopeSlice (S : Type) (dim : Nat) := List ((Fin dim → S) → Fin dim → S)

def RopeSlice.apply (rope : RopeSlice S dim) (x : List (HeadVectors S heads dim)) :
    Except String (List (HeadVectors S heads dim)) :=
  if rope.length = x.length then .ok (List.zipWith (fun turn row head => turn (row head)) rope x)
  else .error "shape mismatch in rope-thd"

/-- A layer's projections, of one row. -/
structure TextAttention (S X Y : Type) (heads kvHeads dim : Nat) where
  q : X → HeadVectors S heads dim
  k : X → HeadVectors S kvHeads dim
  v : X → HeadVectors S kvHeads dim
  o : HeadVectors S heads dim → Y

namespace TextAttention

variable [Field S] [LinearOrder S] (m : Scalars S) (scale : S) (attn : TextAttention S X Y heads kvHeads dim)

def forward (x : List X) (rope : RopeSlice S dim) (cache : LayerCache S kvHeads dim) (window : Nat) :
    Except String (List Y × LayerCache S kvHeads dim) := do
  let offset := cache.len
  let q ← RopeSlice.apply rope (x.map attn.q)
  let k ← RopeSlice.apply rope (x.map attn.k)
  let v := x.map attn.v
  let (kv, cache) ← cache.push k v window
  if offset < cache.dropped then .error "attempt to subtract with overflow"
  else
    let y ← attend m scale q kv.1 kv.2 (offset - cache.dropped) (some window)
    return (y.map attn.o, cache)

/-- A sequence step after step, `n` of its tokens before the first: each step is
rotated as at the positions that the cache has it at. -/
def run (window : Nat) (x : Nat → X) (rotary : Nat → (Fin dim → S) → Fin dim → S) :
    List Nat → Nat → LayerCache S kvHeads dim → Except String (List Y × LayerCache S kvHeads dim)
  | [], _, cache => .ok ([], cache)
  | t :: rest, n, cache => do
    let now ← attn.forward m scale ((List.range' n t).map x) ((List.range' cache.len t).map rotary) cache window
    let later ← run window x rotary rest (n + t) now.2
    return (now.1 ++ later.1, later.2)

omit [Field S] [LinearOrder S] in
/-- What attention is given for the token at a position. -/
def projected (x : Nat → X) (rotary : Nat → (Fin dim → S) → Fin dim → S) (p : Nat) : Projected S heads kvHeads dim where
  q head := rotary p (attn.q (x p) head)
  k head := rotary p (attn.k (x p) head)
  v := attn.v (x p)

end TextAttention

/-- After `n` tokens, each step of a division is of one token or ends within the window. -/
def Untrimmed (window : Nat) : Nat → List Nat → Prop
  | _, [] => True
  | n, t :: rest => (t = 1 ∨ n + t ≤ window) ∧ Untrimmed window (n + t) rest

/-- Over a division into steps, every attention answers as over the whole
history, and the cache knows how much that is. -/
def LosesNothing [Field S] [LinearOrder S] (m : Scalars S) (scale : S) (window : Nat) (lengths : List Nat) : Prop :=
  ∀ {heads kvHeads dim : Nat} (_ : 0 < kvHeads) (divides : kvHeads ∣ heads) {X Y : Type}
    (attn : TextAttention S X Y heads kvHeads dim) (x : Nat → X) (rotary : Nat → (Fin dim → S) → Fin dim → S),
    ∃ cache : LayerCache S kvHeads dim, cache.len = lengths.sum ∧
      attn.run m scale window x rotary lengths 0 {} = .ok ((List.range lengths.sum).map fun p =>
        attn.o (dense m scale (some window) divides (attn.projected x rotary) p), cache)

/-- The cache has the last rows of the first `n`, as many as the window is long. -/
structure Holds (window : Nat) (x : Nat → Projected S heads kvHeads dim) (cache : LayerCache S kvHeads dim) (n : Nat) :
    Prop where
  both : cache.k.isSome = cache.v.isSome
  keys : cache.k.getD [] = (List.range' (n - window) (n - (n - window))).map fun p => (x p).k
  values : cache.v.getD [] = (List.range' (n - window) (n - (n - window))).map fun p => (x p).v
  dropped : cache.dropped = n - window

variable {window : Nat} {x : Nat → Projected S heads kvHeads dim} {cache : LayerCache S kvHeads dim} {n : Nat}

theorem holds_empty : Holds window x {} 0 := ⟨rfl, by simp, by simp, by simp⟩

/-- Positions are recovered from what is left and what was dropped. -/
theorem Holds.len (holds : Holds window x cache n) (positive : 1 ≤ window) : cache.len = n := by
  have count := congrArg List.length holds.keys
  rw [List.length_map, List.length_range'] at count
  rw [LayerCache.len, holds.dropped]
  cases kept : cache.k with
  | none =>
    rw [kept] at count
    simp only [Option.getD_none, List.length_nil] at count
    simp only [Option.map_none, Option.getD_none]
    omega
  | some k =>
    rw [kept] at count
    simp only [Option.getD_some] at count
    simp only [Option.map_some, Option.getD_some]
    omega

theorem joined_eq (both : cache.k.isSome = cache.v.isSome) (k v : List (HeadVectors S kvHeads dim)) :
    cache.joined k v = (cache.k.getD [] ++ k, cache.v.getD [] ++ v) := by
  unfold LayerCache.joined
  cases keys : cache.k <;> cases values : cache.v <;> simp_all

/-- A step's rows go behind those that are left, and what is then before the
window is dropped. -/
theorem push_holds (holds : Holds window x cache n) (t : Nat) :
    ∃ cache', cache.push ((List.range' n t).map fun p => (x p).k) ((List.range' n t).map fun p => (x p).v) window =
        .ok (((List.range' (n + t - window) (n + t - (n + t - window))).map fun p => (x p).k,
          (List.range' (n + t - window) (n + t - (n + t - window))).map fun p => (x p).v), cache') ∧
      Holds window x cache' (n + t) := by
  have behind : ∀ f : Nat → HeadVectors S kvHeads dim,
      (List.range' (n - window) (n - (n - window))).map f ++ (List.range' n t).map f =
        (List.range' (n - window) (n + t - (n - window))).map f := by
    intro f
    rw [← List.map_append, show n + t - (n - window) = n - (n - window) + t by omega, ← List.range'_append_1,
      Nat.add_sub_cancel' (Nat.sub_le n window)]
  have length : ∀ f : Nat → HeadVectors S kvHeads dim,
      ((List.range' (n - window) (n + t - (n - window))).map f).length = n + t - (n - window) := by simp
  unfold LayerCache.push
  rw [joined_eq holds.both, holds.keys, holds.values, behind, behind]
  dsimp only
  rw [length]
  by_cases more : window < n + t - (n - window)
  · have cut : ∀ f : Nat → HeadVectors S kvHeads dim,
        Backend.narrow ((List.range' (n - window) (n + t - (n - window))).map f) (n + t - (n - window) - window)
          window = .ok ((List.range' (n + t - window) (n + t - (n + t - window))).map f) := by
      intro f
      rw [narrow, if_pos (by rw [length]; omega), ← List.map_drop, ← List.map_take, List.drop_range',
        List.take_range'_of_length_ge (by omega)]
      congr 3 <;> omega
    rw [if_pos more, cut, cut]
    exact ⟨_, rfl, rfl, rfl, rfl, by rw [holds.dropped]; dsimp only; omega⟩
  · rw [if_neg more]
    have start : n + t - window = n - window := by omega
    rw [start]
    exact ⟨_, rfl, rfl, by rw [start]; rfl, by rw [start]; rfl, by rw [start]; exact holds.dropped⟩

theorem causalMask_eq (positive : 1 ≤ window) (offset q k : Nat) :
    causalMask offset (some window) q k = masked (some window) (offset + q) k := by
  rw [Bool.eq_iff_iff]
  simp only [causalMask, masked, Option.any_some, Bool.or_eq_true, Bool.and_eq_true, decide_eq_true_eq]
  omega

section Attention

variable [Field S] [LinearOrder S] (m : Scalars S) (scale : S)

/-- Attention over what is left of the history from `cut` on. -/
def denseFrom (cut window : Nat) (divides : kvHeads ∣ heads) (x : Nat → Projected S heads kvHeads dim) (p : Nat) :
    HeadVectors S heads dim := fun head c =>
  let weight k := m.exp ((∑ e, (x p).q head e * (x k).k (keyHead divides head) e) * scale)
  (∑ k ∈ (seen (some window) p).filter (cut ≤ ·), weight k * (x k).v (keyHead divides head) c) /
    ∑ k ∈ (seen (some window) p).filter (cut ≤ ·), weight k

/-- Nothing is lost by what the query does not see. -/
theorem denseFrom_eq (divides : kvHeads ∣ heads) {cut p : Nat} (before : cut + window ≤ p + 1 ∨ cut = 0) :
    denseFrom m scale cut window divides x p = dense m scale (some window) divides x p := by
  have all : (seen (some window) p).filter (cut ≤ ·) = seen (some window) p := by
    refine Finset.filter_true_of_mem fun k mem => ?_
    have near : p - k < window := by simpa using (Finset.mem_filter.mp mem).2
    have upTo := Finset.mem_range.mp (Finset.mem_filter.mp mem).1
    omega
  unfold denseFrom dense
  rw [all]

omit [LinearOrder S] in
/-- A sum over the keys that are seen, counted from the first that is left. -/
theorem sum_seen {cut p : Nat} (past : cut ≤ p) (f : Nat → S) :
    ∑ j ∈ seen (some window) (p - cut), f (cut + j) = ∑ k ∈ (seen (some window) p).filter (cut ≤ ·), f k := by
  have mem_seen : ∀ {p k : Nat}, k ∈ seen (some window) p ↔ k < p + 1 ∧ p - k < window := by simp [seen]
  refine Finset.sum_nbij (cut + ·) (fun j mem => ?_) (fun i _ j _ same => Nat.add_left_cancel same) (fun k mem => ?_)
    fun _ _ => rfl
  · rw [Finset.mem_filter, mem_seen]
    rw [mem_seen] at mem
    omega
  · obtain ⟨here, left⟩ := Finset.mem_filter.mp (Finset.mem_coe.mp mem)
    rw [mem_seen] at here
    exact ⟨k - cut, Finset.mem_coe.mpr (mem_seen.mpr (by omega)), Nat.add_sub_cancel' left⟩

/-- The queries of a step over the keys that are left, in their coordinates. -/
theorem attend_left (some_ : 0 < kvHeads) (divides : kvHeads ∣ heads) (positive : 1 ≤ window) {t cut : Nat}
    (within : cut ≤ n) :
    attend m scale ((List.range' n t).map fun p => (x p).q) ((List.range' cut (n + t - cut)).map fun p => (x p).k)
        ((List.range' cut (n + t - cut)).map fun p => (x p).v) (n - cut) (some window) =
      .ok ((List.range' n t).map fun p => denseFrom m scale cut window divides x p) := by
  have same : heads = kvHeads * (heads / kvHeads) := (Nat.mul_div_cancel' divides).symm
  rw [attend, if_neg some_.ne', dif_pos same]
  refine congrArg Except.ok (List.ext_getElem (by simp) fun i hi _ => ?_)
  have inside : i < t := by simpa using hi
  simp only [List.getElem_mapIdx, List.getElem_map, List.getElem_range', Nat.one_mul, causalMask_eq positive]
  have windows : ∀ w ∈ some window, 1 ≤ w := fun w is => Option.mem_some.mp is ▸ positive
  have whole := attend_eq m scale windows
    (show n - cut + i < n + t - cut by omega) (x (n + i)).q
    (fun j head => repeatKv (heads / kvHeads) (x (cut + j)).k (Fin.cast same head))
    (fun j head => repeatKv (heads / kvHeads) (x (cut + j)).v (Fin.cast same head))
  funext head c
  rw [List.range'_eq_map_range, List.map_map, List.map_map, List.map_map, List.map_map]
  refine (whole head c).trans ?_
  rw [show n - cut + i = n + i - cut by omega]
  let weight k := m.exp ((∑ e, (x (n + i)).q head e * (x k).k (keyHead divides head) e) * scale)
  exact congrArg₂ _ (sum_seen (by omega) fun k => weight k * (x k).v (keyHead divides head) c)
    (sum_seen (by omega) weight)

variable (attn : TextAttention S X Y heads kvHeads dim) {rows : Nat → X} {rotary : Nat → (Fin dim → S) → Fin dim → S}

omit [Field S] [LinearOrder S] in
theorem RopeSlice.apply_eq (f : X → HeadVectors S heads dim) (n t : Nat) :
    RopeSlice.apply ((List.range' n t).map rotary) (((List.range' n t).map rows).map f) =
      .ok ((List.range' n t).map fun p head => rotary p (f (rows p) head)) := by
  rw [RopeSlice.apply, if_pos (by simp), List.map_map, List.zipWith_map, List.zipWith_self]
  rfl

/-- A step of at most the window's length attends over what the window leaves
after it, and a longer one fails. -/
theorem forward_eq (some_ : 0 < kvHeads) (divides : kvHeads ∣ heads) (positive : 1 ≤ window)
    (holds : Holds window (attn.projected rows rotary) cache n) (t : Nat) :
    (t ≤ window → ∃ cache', attn.forward m scale ((List.range' n t).map rows) ((List.range' cache.len t).map rotary)
        cache window = .ok ((List.range' n t).map fun p =>
          attn.o (denseFrom m scale (n + t - window) window divides (attn.projected rows rotary) p), cache') ∧
      Holds window (attn.projected rows rotary) cache' (n + t)) ∧
    (window < t → attn.forward m scale ((List.range' n t).map rows) ((List.range' cache.len t).map rotary) cache
      window = .error "attempt to subtract with overflow") := by
  obtain ⟨cache', pushed, holds'⟩ := push_holds holds t
  have start : attn.forward m scale ((List.range' n t).map rows) ((List.range' cache.len t).map rotary) cache window =
      if n < n + t - window then .error "attempt to subtract with overflow"
      else attend m scale ((List.range' n t).map fun p => (attn.projected rows rotary p).q)
        ((List.range' (n + t - window) (n + t - (n + t - window))).map fun p => (attn.projected rows rotary p).k)
        ((List.range' (n + t - window) (n + t - (n + t - window))).map fun p => (attn.projected rows rotary p).v)
        (n - (n + t - window)) (some window) >>= fun y => .ok (y.map attn.o, cache') := by
    rw [TextAttention.forward, holds.len positive, RopeSlice.apply_eq, RopeSlice.apply_eq, List.map_map]
    change (cache.push ((List.range' n t).map fun p => (attn.projected rows rotary p).k)
      ((List.range' n t).map fun p => (attn.projected rows rotary p).v) window >>= fun _ => _) = _
    rw [pushed, ← holds'.dropped]
    rfl
  rw [start]
  constructor
  · intro fits
    rw [if_neg (by omega), attend_left m scale some_ divides positive (by omega)]
    exact ⟨cache', by rw [ok_bind, List.map_map]; rfl, holds'⟩
  · exact fun long => if_pos (by omega)

theorem range'_split {α : Type} (f : Nat → α) (n t rest : Nat) :
    (List.range' n (t + rest)).map f = (List.range' n t).map f ++ (List.range' (n + t) rest).map f := by
  rw [← List.range'_append_1, List.map_append]

theorem run_eq (some_ : 0 < kvHeads) (divides : kvHeads ∣ heads) (positive : 1 ≤ window) {lengths : List Nat}
    (fits : Untrimmed window n lengths) (holds : Holds window (attn.projected rows rotary) cache n) :
    ∃ cache', attn.run m scale window rows rotary lengths n cache = .ok ((List.range' n lengths.sum).map fun p =>
        attn.o (dense m scale (some window) divides (attn.projected rows rotary) p), cache') ∧
      Holds window (attn.projected rows rotary) cache' (n + lengths.sum) := by
  induction lengths generalizing n cache with
  | nil => exact ⟨cache, rfl, holds⟩
  | cons t rest ih =>
    obtain ⟨now, later⟩ := fits
    obtain ⟨cache', stepped, holds'⟩ := (forward_eq m scale attn some_ divides positive holds t).1 (by omega)
    obtain ⟨cache'', ran, holds''⟩ := ih later holds'
    refine ⟨cache'', ?_, by rw [List.sum_cons, ← Nat.add_assoc]; exact holds''⟩
    rw [TextAttention.run, stepped, ok_bind, ran, ok_bind, List.sum_cons, range'_split]
    refine congrArg (fun y => Except.ok (y ++ _, cache'')) (List.map_congr_left fun p mem => ?_)
    have inside := List.mem_range'_1.mp mem
    rw [denseFrom_eq m scale divides (by omega)]

end Attention

section Lossy

variable [Field S] [LinearOrder S] [IsStrictOrderedRing S] (m : Scalars S) (scale : S)

/-- One head over rows that are all alike to it, of which those that are marked count. -/
def spike : TextAttention S Bool (HeadVectors S 1 1) 1 1 1 where
  q _ _ _ := 0
  k _ _ _ := 0
  v marked _ _ := if marked then 1 else 0
  o := id

/-- The history in which one position is marked. -/
def spiked (l : Nat) : Nat → Projected S 1 1 1 := spike.projected (fun p => p == l) fun _ => id

omit [LinearOrder S] [IsStrictOrderedRing S] in
theorem spiked_v (l k : Nat) (head : Fin 1) : (spiked (S := S) l k).v head 0 = if k = l then 1 else 0 := by
  simp [spiked, TextAttention.projected, spike]

omit [IsStrictOrderedRing S] in
theorem denseFrom_spiked {cut l p : Nat} (past : l < cut) :
    denseFrom m scale cut window (dvd_refl 1) (spiked l) p 0 0 = 0 := by
  unfold denseFrom
  dsimp only
  rw [Finset.sum_eq_zero, zero_div]
  intro k mem
  have left := (Finset.mem_filter.mp mem).2
  rw [spiked_v, if_neg (by omega), mul_zero]

theorem dense_spiked {l p : Nat} (here : l ∈ seen (some window) p) :
    dense m scale (some window) (dvd_refl 1) (spiked l) p 0 0 ≠ 0 := by
  unfold dense
  dsimp only
  refine div_ne_zero ?_ (Finset.sum_pos (fun k _ => m.exp_pos _) ⟨l, here⟩).ne'
  have others : ∀ k ∈ seen (some window) p, k ≠ l →
      m.exp ((∑ e, (spiked l p).q 0 e * (spiked l k).k (keyHead (dvd_refl 1) 0) e) * scale) *
        (spiked l k).v (keyHead (dvd_refl 1) 0) 0 = 0 :=
    fun k _ other => by rw [spiked_v, if_neg other, mul_zero]
  rw [Finset.sum_eq_single_of_mem l here others, spiked_v, if_pos rfl, mul_one]
  exact (m.exp_pos _).ne'

/-- A step of more tokens that ends past the window has dropped, before its
first query, a key which that query sees. -/
theorem run_lossy (positive : 1 ≤ window) {lengths : List Nat} (some_ : ∀ t ∈ lengths, 0 < t)
    (trimmed : ¬ Untrimmed window n lengths) :
    ∃ l, ∀ {cache : LayerCache S 1 1}, Holds window (spiked l) cache n → ∀ cache',
      spike.run m scale window (fun p => p == l) (fun _ => id) lengths n cache ≠
        .ok ((List.range' n lengths.sum).map fun p => dense m scale (some window) (dvd_refl 1) (spiked l) p,
          cache') := by
  induction lengths generalizing n with
  | nil => exact absurd trivial trimmed
  | cons t rest ih =>
    have here := some_ t List.mem_cons_self
    by_cases long : window < t
    · refine ⟨0, fun holds cache' ran => ?_⟩
      rw [TextAttention.run, (forward_eq m scale spike Nat.one_pos (dvd_refl 1) positive holds t).2 long] at ran
      exact absurd ran (by simp [bind, Except.bind])
    by_cases now : t = 1 ∨ n + t ≤ window
    · obtain ⟨l, lossy⟩ := ih (fun t mem => some_ t (List.mem_cons_of_mem _ mem)) fun later => trimmed ⟨now, later⟩
      refine ⟨l, fun holds cache' ran => ?_⟩
      obtain ⟨next, stepped, holds'⟩ :=
        (forward_eq m scale spike Nat.one_pos (dvd_refl 1) positive holds t).1 (Nat.le_of_not_lt long)
      rw [TextAttention.run, stepped, ok_bind] at ran
      cases rest_ran : spike.run m scale window (fun p => p == l) (fun _ => id) rest (n + t) next with
      | error e => rw [rest_ran] at ran; cases ran
      | ok later =>
        rw [rest_ran, ok_bind, List.sum_cons, range'_split] at ran
        have same := List.append_inj_right (congrArg Prod.fst (Except.ok.inj ran)) (by simp)
        exact lossy holds' later.2 (rest_ran.trans (congrArg Except.ok (Prod.ext same rfl)))
    · refine ⟨n + 1 - window, fun holds cache' ran => ?_⟩
      obtain ⟨next, stepped, -⟩ :=
        (forward_eq m scale spike Nat.one_pos (dvd_refl 1) positive holds t).1 (Nat.le_of_not_lt long)
      rw [TextAttention.run, stepped, ok_bind] at ran
      cases rest_ran : spike.run m scale window (fun p => p == n + 1 - window) (fun _ => id) rest (n + t) next with
      | error e => rw [rest_ran] at ran; cases ran
      | ok later =>
        rw [rest_ran, ok_bind, List.sum_cons, range'_split] at ran
        have same := List.append_inj_left (congrArg Prod.fst (Except.ok.inj ran)) (by simp)
        have first := List.map_inj_left.mp same n (List.mem_range'_1.mpr (by omega))
        have sees : n + 1 - window ∈ seen (some window) n := by simp [seen]; omega
        have lost : denseFrom m scale (n + t - window) window (dvd_refl 1) (spiked (n + 1 - window)) n 0 0 = 0 :=
          denseFrom_spiked m scale (by omega)
        exact dense_spiked m scale sees ((congrFun (congrFun first 0) 0).symm.trans lost)

end Lossy

/-- Over a division of a sequence into steps, what every attention computes
is attention over the whole history, and no offset underflows, exactly where
each step is of one token or ends within the window. -/
theorem trimmed_loses_nothing [Field S] [LinearOrder S] [IsStrictOrderedRing S] (m : Scalars S) (scale : S)
    {window : Nat} (positive : 1 ≤ window) {lengths : List Nat} (some_ : ∀ t ∈ lengths, 0 < t) :
    LosesNothing m scale window lengths ↔ Untrimmed window 0 lengths := by
  constructor
  · intro all
    by_contra trimmed
    obtain ⟨l, lossy⟩ := run_lossy m scale positive some_ trimmed
    obtain ⟨cache, -, ran⟩ := all Nat.one_pos (dvd_refl 1) spike (fun p => p == l) fun _ => id
    rw [List.range_eq_range'] at ran
    exact lossy holds_empty cache ran
  · intro fits heads kvHeads dim head divides X Y attn x rotary
    have start : Holds window (attn.projected x rotary) {} 0 := holds_empty
    obtain ⟨cache, ran, holds⟩ := run_eq m scale attn head divides positive fits start
    rw [List.range_eq_range']
    exact ⟨cache, by rw [holds.len positive, Nat.zero_add], ran⟩

/-- A prompt as long as the window, and one token after the other. -/
theorem trimmed_loses_nothing_four : LosesNothing squareExp 1 2 [2, 1, 1] := by
  refine (trimmed_loses_nothing squareExp 1 ?_ ?_).mpr ?_
  · decide
  · decide
  · exact ⟨.inr (by decide), .inl rfl, .inl rfl, trivial⟩

/-- The second of three tokens sees the first, which the step of the other two
has dropped; in one step they are more than the window. -/
theorem trimmed_before_seen :
    (spike.run squareExp 1 2 (· == 0) (fun _ => id) [1, 2] 0 {}).toOption.map (fun y => y.1.map (· 0 0)) =
        some [1, 0, 0] ∧
      ((List.range 3).map fun p => dense squareExp 1 (some 2) (dvd_refl 1) (spiked 0) p 0 0) = [1, 1 / 2, 0] ∧
      spike.run squareExp 1 2 (· == 0) (fun _ => id) [3] 0 {} = .error "attempt to subtract with overflow" ∧
      ¬ LosesNothing squareExp 1 2 [1, 2] ∧ ¬ LosesNothing squareExp 1 2 [3] := by
  have ran : (spike.run squareExp 1 2 (· == 0) (fun _ => id) [1, 2] 0 {}).toOption.map (fun y => y.1.map (· 0 0)) =
      some [1, 0, 0] := by decide +kernel
  have whole : ((List.range 3).map fun p => dense squareExp 1 (some 2) (dvd_refl 1) (spiked 0) p 0 0) =
      [1, 1 / 2, 0] := by decide +kernel
  have fails : spike.run squareExp 1 2 (· == 0) (fun _ => id) [3] 0 {} =
      .error "attempt to subtract with overflow" := rfl
  refine ⟨ran, whole, fails, fun all => ?_, fun all => ?_⟩
  · obtain ⟨cache, -, same⟩ := all Nat.one_pos (dvd_refl 1) spike (· == 0) fun _ => id
    rw [same] at ran
    have wrong : [1, 1 / 2, 0] = [(1 : ℚ), 0, 0] := whole.symm.trans (List.map_map.symm.trans (Option.some.inj ran))
    exact absurd wrong (by decide +kernel)
  · obtain ⟨cache, -, same⟩ := all Nat.one_pos (dvd_refl 1) spike (· == 0) fun _ => id
    exact absurd (fails.symm.trans same) (by simp)

end Vapi.Backend.Speech
