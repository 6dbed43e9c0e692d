import Vapi.Engine.Accounting

/-!
# What a refused fork leaves behind

`fork` gives up at the first child it cannot find a block for, and keeps what
it did until then: the children it entered, and the references of the one it
was making.
-/

namespace Vapi.Engine

open Vapi.Cache
open Transition (Run)

variable {H : Type} {B : Blake3 H}

/-- Counts, free list, index, sequences and queues are what they were. -/
structure Untouched (s t : Scheduler B) : Prop where
  refcount : t.pool.refcount = s.pool.refcount
  freeList : t.pool.lru = s.pool.lru
  numFree : t.pool.numFree = s.pool.numFree
  hashOf : t.pool.hashOf = s.pool.hashOf
  byHash : t.pool.byHash = s.pool.byHash
  seqs : t.seqs = s.seqs
  byRequest : t.byRequest = s.byRequest
  waiting : t.waiting = s.waiting
  running : t.running = s.running

theorem Untouched.refl (s : Scheduler B) : Untouched s s := ⟨rfl, rfl, rfl, rfl, rfl, rfl, rfl, rfl, rfl⟩

/-- There is a block for every child, or no child needs one; or there is not
even one for the first, which shares nothing. -/
def ForkRoom (s : Scheduler B) (parent : SeqId) (extra : Nat) : Prop :=
  ∀ seq, s.seqs parent = some seq → seq.needsPrefill = false →
    extra = 0 ∨ seq.blocks.length ≤ seq.numComputed / s.cfg.blockSize ∨
    extra + s.pool.watermark ≤ s.pool.numFree ∨
    (s.pool.numFree ≤ s.pool.watermark ∧ seq.blocks.take (seq.numComputed / s.cfg.blockSize) = [])

variable [DecidableEq H]

/-- A fork that fails leaves no trace. -/
def NoTrace (s : Scheduler B) (parent : SeqId) (extra : Nat) : Prop :=
  ∀ e, (s.fork parent extra).2 = .error e → Untouched s (s.fork parent extra).1

section Children

variable {base s : Scheduler B} {extra : BlockId → Nat} {src : Scheduler.ForkSource}

omit [DecidableEq H] in
/-- References to held blocks take nothing off the free list. -/
theorem sharedPool_numFree {p : BlockPool H} {bs : Nat} (w : Wf p)
    (held : ∀ b ∈ src.blocks, 0 < p.refcount b) : (sharedPool src bs p).numFree = p.numFree := by
  have shared := sharedPool_spec src bs w held
  rw [shared.wf.numFree, w.numFree, shared.shape.numBlocks, shared.refcount]
  congr 2
  funext b
  by_cases hb : b ∈ src.blocks
  · have := held b hb
    simp only [decide_eq_decide]
    omega
  · have : b ∉ src.blocks.take (src.computed / bs) := fun h => hb (List.mem_of_mem_take h)
    simp [List.count_eq_zero_of_not_mem this]

theorem forkChildren_keeps (src : Scheduler.ForkSource) (n : Nat) (out : Fork) {x : SeqId} (old : x < s.nextId) :
    (Scheduler.forkChildren src n out s).1.seqs x = s.seqs x := by
  induction n generalizing s out with
  | zero => rfl
  | succ n ih =>
    unfold Scheduler.forkChildren
    rcases Scheduler.childBlocks src s.cfg.blockSize s.pool with ⟨pool, e | ⟨blocks, copy⟩⟩
    · rfl
    · have ne : x ≠ s.nextId := Nat.ne_of_lt old
      exact (ih (s := (s.setPool pool).addFork src blocks) _ (Nat.lt_succ_of_lt old)).trans
        (Function.update_of_ne ne ..)

/-- The state a fork with `n` children to make goes on from after one. -/
theorem forkChildren_entered {pool : BlockPool H} {blocks : List BlockId}
    {copy : Option (BlockId × BlockId)} (h : Balanced base s extra)
    (held : ∀ b ∈ src.blocks, 0 < s.pool.refcount b)
    (e : Scheduler.childBlocks src s.cfg.blockSize s.pool = (pool, .ok (blocks, copy))) :
    Balanced base ((s.setPool pool).addFork src blocks) extra ∧
    (∀ b ∈ src.blocks, 0 < pool.refcount b) ∧ pool.watermark = s.pool.watermark ∧
    (src.blocks.length ≤ src.computed / s.cfg.blockSize ∨
      pool.numFree + 1 = s.pool.numFree ∧ 1 + s.pool.watermark ≤ s.pool.numFree) := by
  have shared := sharedPool_spec src s.cfg.blockSize h.wf held
  obtain ⟨own, rfl, takes, kind⟩ := childBlocks_ok h.wf held e
  have counts : ∀ b, pool.refcount b = s.pool.refcount b +
      (src.blocks.take (src.computed / s.cfg.blockSize) ++ own).count b := by
    intro b
    have := takes.refcount b
    simp only [shared.refcount, List.count_append] at this ⊢
    omega
  refine ⟨h.enter (by exact ⟨rfl, rfl, rfl, shared.shape.trans takes.shape⟩)
    (addFork_queued (setPool_queued h.queued pool) src _) takes.wf rfl rfl counts, ?_,
    takes.shape.watermark.trans shared.shape.watermark, ?_⟩
  · intro b hb
    have := held b hb
    have := counts b
    omega
  · rcases kind with ⟨-, none, -⟩ | ⟨openBlock, x, rfl, -, room, -⟩
    · exact .inl (List.getElem?_eq_none_iff.mp none)
    · have free := takes.numFree
      rw [sharedPool_numFree h.wf held] at free room
      exact .inr ⟨free, room⟩

/-- The first child is refused its open block when there is none to spare. -/
theorem childBlocks_error_iff (w : Wf s.pool) (held : ∀ b ∈ src.blocks, 0 < s.pool.refcount b) :
    (∃ e, (Scheduler.childBlocks src s.cfg.blockSize s.pool).2 = .error e) ↔
      src.computed / s.cfg.blockSize < src.blocks.length ∧ s.pool.numFree < 1 + s.pool.watermark := by
  rcases hc : Scheduler.childBlocks src s.cfg.blockSize s.pool with ⟨pool, e | ⟨blocks, copy⟩⟩
  · obtain ⟨rfl, isOpen, tight⟩ := childBlocks_error w held hc
    rw [sharedPool_numFree w held, (sharedPool_spec src s.cfg.blockSize w held).shape.watermark] at tight
    obtain ⟨_, get⟩ := Option.isSome_iff_exists.mp isOpen
    exact ⟨fun _ => ⟨(List.getElem?_eq_some_iff.mp get).1, tight⟩, fun _ => ⟨e, rfl⟩⟩
  · refine ⟨fun ⟨_, e⟩ => (by cases e), fun ⟨isOpen, tight⟩ => ?_⟩
    obtain ⟨own, -, -, ⟨-, none, -⟩ | ⟨_, _, -, -, room, -⟩⟩ := childBlocks_ok w held hc
    · have := List.getElem?_eq_none_iff.mp none
      omega
    · rw [sharedPool_numFree w held] at room
      omega

/-- The children all get their blocks exactly when there are enough. -/
theorem forkChildren_error_iff (h : Balanced base s extra)
    (held : ∀ b ∈ src.blocks, 0 < s.pool.refcount b) (n : Nat) (out : Fork) :
    (∃ e, (Scheduler.forkChildren src n out s).2 = .error e) ↔
      n ≠ 0 ∧ src.computed / s.cfg.blockSize < src.blocks.length ∧
      s.pool.numFree < n + s.pool.watermark := by
  induction n generalizing s out with
  | zero => simp [Scheduler.forkChildren]
  | succ n ih =>
    have first := childBlocks_error_iff h.wf held
    unfold Scheduler.forkChildren
    rcases hc : Scheduler.childBlocks src s.cfg.blockSize s.pool with ⟨pool, e | ⟨blocks, copy⟩⟩
    · obtain ⟨isOpen, tight⟩ := first.mp ⟨e, by rw [hc]⟩
      simp only [Except.error.injEq, exists_eq', true_iff]
      exact ⟨by omega, isOpen, by omega⟩
    · obtain ⟨entered, held', watermark, took⟩ := forkChildren_entered h held hc
      simp only
      rw [ih entered held']
      change _ ∧ src.computed / s.cfg.blockSize < _ ∧ pool.numFree < n + pool.watermark ↔ _
      rw [watermark]
      constructor
      · rintro ⟨-, isOpen, tight⟩
        exact ⟨by omega, isOpen, by omega⟩
      · rintro ⟨-, isOpen, tight⟩
        exact ⟨by omega, isOpen, by omega⟩

/-- Unless the first child is refused, it is entered for good. -/
theorem forkChildren_first (n : Nat) (out : Fork) {pool : BlockPool H} {blocks : List BlockId}
    {copy : Option (BlockId × BlockId)}
    (e : Scheduler.childBlocks src s.cfg.blockSize s.pool = (pool, .ok (blocks, copy))) :
    ((Scheduler.forkChildren src (n + 1) out s).1.seqs s.nextId).isSome := by
  unfold Scheduler.forkChildren
  rw [e]
  have kept := forkChildren_keeps (s := (s.setPool pool).addFork src blocks) src n
    { ids := out.ids ++ [s.nextId], copies := out.copies ++ copy.toList } (Nat.lt_succ_self s.nextId)
  simp only
  rw [kept]
  simp [Scheduler.addFork]

/-- The copy a child's open block asks for, if it asks for one. -/
def childCopy (src : Scheduler.ForkSource) (bs : Nat) (blocks : List BlockId) : List (BlockId × BlockId) :=
  match src.blocks[src.computed / bs]?, blocks[src.computed / bs]? with
  | some openBlock, some own => if src.computed % bs ≠ 0 then [(openBlock, own)] else []
  | _, _ => []

/-- A child of a fork, before it has its first token. -/
def child (src : Scheduler.ForkSource) (blocks : List BlockId) : Sequence :=
  (Sequence.new src.requestId src.prompt src.params src.tenant).adoptPrefilled blocks src.computed src.numCached

/-- The blocks of a child: those shared, and one of its own where the source
has an open one. -/
structure ChildBlocks (src : Scheduler.ForkSource) (bs : Nat) (blocks : List BlockId) : Prop where
  shared : ∀ i : Nat, i < src.computed / bs → blocks[i]? = src.blocks[i]?
  length : blocks.length = min src.blocks.length (src.computed / bs + 1)

/-- What a fork that succeeds has made. -/
structure Forked (src : Scheduler.ForkSource) (s t : Scheduler B) (out out' : Fork) (made : List (List BlockId)) :
    Prop where
  ids : out'.ids = out.ids ++ List.range' s.nextId made.length
  copies : out'.copies = out.copies ++ made.flatMap (childCopy src s.cfg.blockSize)
  nextId : t.nextId = s.nextId + made.length
  running : t.running = s.running ++ List.range' s.nextId made.length
  old : ∀ x, x < s.nextId → t.seqs x = s.seqs x
  new : ∀ (k : Nat) blocks, made[k]? = some blocks → t.seqs (s.nextId + k) = some (child src blocks)
  blocks : ∀ blocks ∈ made, ChildBlocks src s.cfg.blockSize blocks

theorem forkChildren_ok (h : Balanced base s extra) (held : ∀ b ∈ src.blocks, 0 < s.pool.refcount b)
    {n : Nat} {out out' : Fork} {t : Scheduler B}
    (e : Scheduler.forkChildren src n out s = (t, .ok out')) :
    ∃ made, made.length = n ∧ Forked src s t out out' made := by
  induction n generalizing s out with
  | zero =>
    obtain ⟨rfl, rfl⟩ : s = t ∧ out = out' := by simpa [Scheduler.forkChildren] using e
    exact ⟨[], rfl, by simp, by simp, rfl, by simp, fun _ _ => rfl, by simp, by simp⟩
  | succ n ih =>
    unfold Scheduler.forkChildren at e
    rcases hc : Scheduler.childBlocks src s.cfg.blockSize s.pool with ⟨pool, err | ⟨blocks, copy⟩⟩
    · simp [hc] at e
    · obtain ⟨entered, held', -, -⟩ := forkChildren_entered h held hc
      simp only [hc] at e
      obtain ⟨made, len, forked⟩ := ih entered held' e
      obtain ⟨own, rfl, -, kind⟩ := childBlocks_ok h.wf held hc
      have here : ChildBlocks src s.cfg.blockSize (src.blocks.take (src.computed / s.cfg.blockSize) ++ own) ∧
          copy.toList = childCopy src s.cfg.blockSize
            (src.blocks.take (src.computed / s.cfg.blockSize) ++ own) := by
        rcases kind with ⟨rfl, none, rfl⟩ | ⟨openBlock, x, rfl, some_, -, rfl⟩
        · have short := List.getElem?_eq_none_iff.mp none
          rw [List.append_nil, List.take_of_length_le short]
          exact ⟨⟨fun _ _ => rfl, by omega⟩, by simp [childCopy, none]⟩
        · have lt := (List.getElem?_eq_some_iff.mp some_).1
          have taken : (src.blocks.take (src.computed / s.cfg.blockSize)).length =
              src.computed / s.cfg.blockSize := by rw [List.length_take]; omega
          refine ⟨⟨fun i hi => ?_, ?_⟩, ?_⟩
          · rw [List.getElem?_append_left (by omega), List.getElem?_take_of_lt hi]
          · rw [List.length_append, taken, List.length_singleton]
            omega
          · unfold childCopy
            rw [some_, List.getElem?_append_right (by omega), taken, Nat.sub_self]
            simp only [List.getElem?_cons_zero]
            split <;> rfl
      refine ⟨(src.blocks.take (src.computed / s.cfg.blockSize) ++ own) :: made,
        by rw [List.length_cons, len], ?_, ?_, ?_, ?_, ?_, ?_, ?_⟩
      · rw [forked.ids, List.append_assoc]
        rfl
      · rw [forked.copies, List.append_assoc, here.2]
        rfl
      · rw [forked.nextId, List.length_cons]
        change s.nextId + 1 + made.length = s.nextId + (made.length + 1)
        rw [Nat.add_assoc, Nat.add_comm 1]
      · rw [forked.running]
        change s.running ++ [s.nextId] ++ List.range' (s.nextId + 1) made.length = _
        rw [List.append_assoc]
        rfl
      · intro x lt
        exact (forked.old x (Nat.lt_succ_of_lt lt)).trans (Function.update_of_ne (Nat.ne_of_lt lt) ..)
      · intro k blocks hk
        cases k with
        | zero =>
          obtain rfl := Option.some.inj hk
          exact (forked.old s.nextId (Nat.lt_succ_self _)).trans (Function.update_self ..)
        | succ k =>
          have := forked.new k blocks (by simpa using hk)
          change t.seqs (s.nextId + 1 + k) = _ at this
          rwa [Nat.add_assoc, Nat.add_comm 1 k] at this
      · intro blocks hb
        rcases List.mem_cons.mp hb with rfl | hb
        · exact here.1
        · exact forked.blocks blocks hb

end Children

section NoTrace

variable {base s : Scheduler B} {extra : BlockId → Nat} {parent : SeqId} {seq : Sequence} {n : Nat}

theorem fork_eq (live : s.seqs parent = some seq) (ready : seq.needsPrefill = false) :
    s.fork parent n = Scheduler.forkChildren (Scheduler.forkSource seq) n {} s := by
  unfold Scheduler.fork
  simp [live, ready]

/-- With room for every child, or for none and nothing shared, a failed fork
has changed nothing. -/
theorem ForkRoom.noTrace (h : Balanced base s extra) (room : ForkRoom s parent n) :
    NoTrace s parent n := by
  intro e failed
  cases live : s.seqs parent with
  | none => simpa [Scheduler.fork, live] using Untouched.refl s
  | some seq =>
    cases ready : seq.needsPrefill with
    | true => simpa [Scheduler.fork, live, ready] using Untouched.refl s
    | false =>
      have held : ∀ b ∈ (Scheduler.forkSource seq).blocks, 0 < s.pool.refcount b :=
        fun b hb => h.pos_refcount live hb
      rw [fork_eq live ready] at failed ⊢
      obtain ⟨some_, isOpen, tight⟩ := (forkChildren_error_iff h held n {}).mp ⟨e, failed⟩
      obtain ⟨m, rfl⟩ := Nat.exists_eq_succ_of_ne_zero some_
      rcases room seq live ready with none | closed | enough | ⟨empty, unshared⟩
      · omega
      · exact absurd isOpen (Nat.not_lt.mpr closed)
      · omega
      · obtain ⟨e', refused⟩ := (childBlocks_error_iff h.wf held).mpr ⟨isOpen, by omega⟩
        rcases hc : Scheduler.childBlocks (Scheduler.forkSource seq) s.cfg.blockSize s.pool with ⟨pool, r⟩
        obtain rfl : r = .error e' := by rw [hc] at refused; exact refused
        obtain ⟨rfl, -, -⟩ := childBlocks_error h.wf held hc
        have same : sharedPool (Scheduler.forkSource seq) s.cfg.blockSize s.pool = s.pool := by
          exact congrArg (List.foldl BlockPool.incref s.pool) unshared
        unfold Scheduler.forkChildren
        rw [hc, same]
        exact .refl s

/-- Without it, a child stays behind or a reference does. -/
theorem NoTrace.forkRoom (h : Balanced base s extra) (clean : NoTrace s parent n) :
    ForkRoom s parent n := by
  intro seq live ready
  by_contra! bad
  obtain ⟨some_, isOpen, tight, spare⟩ := bad
  have held : ∀ b ∈ (Scheduler.forkSource seq).blocks, 0 < s.pool.refcount b :=
    fun b hb => h.pos_refcount live hb
  obtain ⟨e, failed⟩ := (forkChildren_error_iff h held n {}).mpr ⟨some_, isOpen, tight⟩
  have untouched := clean e (by rw [fork_eq live ready]; exact failed)
  rw [fork_eq live ready] at untouched
  obtain ⟨m, rfl⟩ := Nat.exists_eq_succ_of_ne_zero some_
  have shared := sharedPool_spec (Scheduler.forkSource seq) s.cfg.blockSize h.wf held
  rcases hc : Scheduler.childBlocks (Scheduler.forkSource seq) s.cfg.blockSize s.pool with
    ⟨pool, e' | ⟨blocks, copy⟩⟩
  · obtain ⟨rfl, -, short⟩ := childBlocks_error h.wf held hc
    rw [sharedPool_numFree h.wf held, shared.shape.watermark] at short
    obtain ⟨b, hb⟩ := List.exists_mem_of_ne_nil _ (spare (by omega))
    have count : (sharedPool (Scheduler.forkSource seq) s.cfg.blockSize s.pool).refcount b =
        s.pool.refcount b := by
      have := congrFun untouched.refcount b
      unfold Scheduler.forkChildren at this
      rwa [hc] at this
    have pos : 0 < (seq.blocks.take (seq.numComputed / s.cfg.blockSize)).count b :=
      List.count_pos_iff.mpr hb
    rw [shared.refcount] at count
    change _ + (seq.blocks.take (seq.numComputed / s.cfg.blockSize)).count b = _ at count
    omega
  · have entered := forkChildren_first m {} hc
    rw [untouched.seqs] at entered
    obtain ⟨old, known⟩ := Option.isSome_iff_exists.mp entered
    exact absurd (h.queued.fresh _ old known) (Nat.lt_irrefl _)

/-- In every state a run leads to, a failed fork leaves no trace exactly when
there was room for all its children, or none even for the first and nothing to
share with it. -/
theorem failed_fork_traceless {cfg : SchedulerConfig} {numBlocks bs watermark : Nat}
    {ns : CacheNamespace B} {eos : List Token} {ls : List (Op × Outcome)}
    (run : Run Scheduler.Step (Scheduler.new cfg (BlockPool.new numBlocks bs watermark) ns eos) ls s)
    (parent : SeqId) (n : Nat) : NoTrace s parent n ↔ ForkRoom s parent n := by
  obtain ⟨extra, h⟩ := run_balanced run
  exact ⟨NoTrace.forkRoom h, ForkRoom.noTrace h⟩

end NoTrace

/-- A prompt of two tokens, run to its first token on a pool of four blocks of
one token: it holds three, and one is free. -/
def forkable : Scheduler Blake3.identity :=
  let s := Scheduler.fresh { blockSize := 1, prefixCache := false } 4 0
  ((s.admitRequest ⟨"r"⟩ [1, 2] {} "global").1.serve [3]).getD s

theorem forkable_run : ∃ ls, Run Scheduler.Step
    (Scheduler.fresh { blockSize := 1, prefixCache := false } 4 0) ls forkable := by
  obtain ⟨plan, served⟩ := serve_run [3] (t := forkable)
    (s := ((Scheduler.fresh { blockSize := 1, prefixCache := false } 4 0).admitRequest
      ⟨"r"⟩ [1, 2] {} "global").1) rfl
  exact ⟨(.admitRequest ⟨"r"⟩ [1, 2] {} "global", .admitted (.ok 0)) :: _, .cons ⟨by simp, rfl⟩ served⟩

/-- Two more choices of it: the first child takes the last block and stays,
with the references it took, when the second is refused. -/
theorem failed_fork_leaves_child :
    ∃ ls s, Run Scheduler.Step (Scheduler.fresh { blockSize := 1, prefixCache := false } 4 0) ls s ∧
      ¬ NoTrace s 0 2 := by
  obtain ⟨ls, run⟩ := forkable_run
  refine ⟨ls, forkable, run, fun clean => ?_⟩
  have seqs := (clean (.engine "fork: allocation of 1 blocks would breach the 0-block reserve") rfl).seqs
  have same : ((forkable.fork 0 2).1.seqs 1).isSome = (forkable.seqs 1).isSome := by rw [seqs]
  exact absurd same (by decide)

/-- One more choice has its block. -/
theorem failed_fork_traceless_one :
    ∃ ls s, Run Scheduler.Step (Scheduler.fresh { blockSize := 1, prefixCache := false } 4 0) ls s ∧
      NoTrace s 0 1 := by
  obtain ⟨ls, run⟩ := forkable_run
  refine ⟨ls, forkable, run, (failed_fork_traceless run 0 1).mpr fun seq _ _ => .inr (.inr (.inl ?_))⟩
  decide

end Vapi.Engine
