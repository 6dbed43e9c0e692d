import Vapi.Backend.Served
import Vapi.Backend.Recomputed

/-!
# Drawn from the plain decoder's logits

In every run of the engine over its backend, each token generated was drawn
from the logits that the plain decoder has for the text before it. So where a
row leaves no choice, an answer is the prompt's and the parameters' alone.
-/

namespace Vapi.Backend

open Vapi.Engine Vapi.Cache
open Transition (Run Guarded)

variable {H : Type} {B : Blake3 H} {S : Type} {hidden kvHeads dim vocab : Nat}

/-- Forks are as `World.Keeps` has them, and tokens are those the model embeds. -/
def Inference.Keeps (d : Decoder S hidden kvHeads dim vocab) (x : Inference B S hidden kvHeads dim vocab)
    (e : Event) : Prop :=
  (x.bare Unit).Keeps e ∧ Event.Within d.embed.length e

variable [Field S] [LinearOrder S]

/-- The engine over its caches, the engine over texts that it follows, and what is true of that. -/
structure Served (f : Numerics S) (d : Decoder S hidden kvHeads dim vocab) (numBlocks : Nat) (base : Scheduler B)
    (x : Inference B S hidden kvHeads dim vocab) (w : World B (List Token)) : Prop where
  follows : Follows f d numBlocks base.cfg.blockSize x w
  stored : Stored (fun _ ts => ts) base w
  known : ∀ id, ∀ token ∈ textOf w.scheduler id, token.toNat < d.embed.length

variable {f : Numerics S} {d : Decoder S hidden kvHeads dim vocab} {numBlocks : Nat} {base : Scheduler B}
  {x : Inference B S hidden kvHeads dim vocab} {w w' : World B (List Token)} {e : Event} [DecidableEq H]

omit [Field S] [LinearOrder S] in
/-- Texts of tokens the model embeds go on as such. -/
theorem Standing.known (h : Standing base w) (seeds : w.Seeds e) (within : Event.Within d.embed.length e)
    (step : w.Step texts e w') (known : ∀ id, ∀ token ∈ textOf w.scheduler id, token.toNat < d.embed.length) :
    ∀ id, ∀ token ∈ textOf w'.scheduler id, token.toNat < d.embed.length := by
  intro id token mem
  unfold textOf at mem
  cases live : w'.scheduler.seqs id with
  | none => simp [live] at mem
  | some seq' =>
    rw [live, Option.elim_some] at mem
    have before {id : SeqId} {seq : Sequence} (live : w.scheduler.seqs id = some seq) :
        ∀ token ∈ seq.tokens, token.toNat < d.embed.length := by
      have here := known id
      rwa [textOf, live] at here
    cases h.arises seeds step live with
    | kept live same => exact before live token (same.tokens ▸ mem)
    | admitted is fresh new =>
      subst is
      rw [new.tokens] at mem
      exact within token mem
    | drawn is flying here given live more =>
      subst is
      rcases List.mem_append.mp (more.tokens ▸ mem) with old | new
      · exact before live token old
      · exact within token (List.mem_singleton.mp new ▸ List.mem_of_getElem? given)
    | forked is leads given live new =>
      subst is
      rcases List.mem_append.mp (new.tokens ▸ mem) with old | new
      · exact before live token (List.mem_of_mem_take old)
      · exact within token (List.mem_singleton.mp new ▸ given)

omit [DecidableEq H] in
theorem Served.keeps (h : Served f d numBlocks base x w) (keeps : x.Keeps d e) : w.Keeps e := by
  have keeps := keeps.1
  unfold World.Keeps at keeps ⊢
  rw [← h.follows.scheduler]
  exact keeps

theorem Served.seeds (h : Served f d numBlocks base x w) (suits : Suits base d numBlocks) (keeps : x.Keeps d e)
    (step : w.Step texts e w') : w.Seeds e := by
  intro parent tokens is
  subst is
  by_cases leads : parent ∈ w.leaders
  · exact h.stored.standing.seeds suits.fits (h.keeps keeps) leads parent tokens rfl
  · have none : w.fork parent tokens = none := if_pos leads
    exact absurd (none.symm.trans step) (by simp)

/-- Step by step: whatever happens to the one engine happens to the other. -/
theorem Served.exec (h : Served f d numBlocks base x w) (suits : Suits base d numBlocks) (keeps : x.Keeps d e) :
    Option.Rel (Served f d numBlocks base) (x.exec f d numBlocks base.cfg.blockSize e) (w.exec texts e) := by
  have standing := h.stored.standing
  have follows : Option.Rel (Follows f d numBlocks base.cfg.blockSize) (x.exec f d numBlocks base.cfg.blockSize e)
      (w.exec texts e) := by
    have quiet {t : Scheduler B} (step : w.Step texts e (w.setScheduler t)) (calm : ∀ tokens, e ≠ .commit tokens)
        (alone : ∀ parent tokens, e ≠ .fork parent tokens) :
        Follows f d numBlocks base.cfg.blockSize (x.setScheduler t) (w.setScheduler t) := by
      refine h.follows.setScheduler standing fun id seq' lt live => ?_
      cases standing.arises (h.seeds suits keeps step) step live with
      | kept live same => exact ⟨_, live, same⟩
      | admitted is fresh new => exact absurd fresh (Nat.ne_of_lt lt)
      | drawn is => exact absurd is (calm _)
      | forked is => exact absurd is (alone _ _)
    cases e with
    | admitRequest requestId prompt params tenant =>
      rw [Inference.exec, World.exec, h.follows.scheduler]
      exact .some (quiet rfl (by simp) (by simp))
    | schedule =>
      obtain ⟨x', w', ran, over_, follows, -⟩ := h.follows.schedule suits h.stored h.known
      rw [Inference.exec, World.exec, ran, over_]
      exact .some follows
    | commit sampled => exact h.follows.commit standing sampled
    | fork parent tokens => exact h.follows.fork suits h.stored (h.keeps keeps)
    | cancel requestId =>
      rw [Inference.exec, World.exec, h.follows.scheduler]
      exact .some (quiet rfl (by simp) (by simp))
    | finishWith id reason =>
      rw [Inference.exec, World.exec, h.follows.scheduler]
      exact .some (quiet rfl (by simp) (by simp))
    | drainFinished =>
      rw [Inference.exec, World.exec, h.follows.scheduler]
      exact .some (quiet rfl (by simp) (by simp))
  revert follows
  generalize x.exec f d numBlocks base.cfg.blockSize e = mine
  cases over_ : w.exec texts e with
  | none =>
    intro follows
    cases follows
    exact .none
  | some w' =>
    intro follows
    cases follows with
    | some follows =>
      exact .some ⟨follows, h.stored.step suits.fits suits.collisionFree (fun _ _ _ _ _ => rfl) (h.keeps keeps) over_,
        Standing.known standing (h.seeds suits keeps over_) keeps.2 over_ h.known⟩

theorem Served.step (h : Served f d numBlocks base x w) (suits : Suits base d numBlocks) (keeps : x.Keeps d e)
    {x' : Inference B S hidden kvHeads dim vocab} (step : x.Step f d numBlocks base.cfg.blockSize e x') :
    ∃ w', w.Step texts e w' ∧ Served f d numBlocks base x' w' := by
  have next := h.exec suits keeps
  rw [show x.exec f d numBlocks base.cfg.blockSize e = some x' from step] at next
  unfold World.Step
  generalize w.exec texts e = other at next
  cases next with
  | some served => exact ⟨_, rfl, served⟩

/-- What the engine over texts can do, the one over caches can. -/
theorem Served.runs (h : Served f d numBlocks base x w) (suits : Suits base d numBlocks)
    {allow : Inference B S hidden kvHeads dim vocab → Event → Prop} {es : List Event}
    (allowed : ∀ e ∈ es, ∀ x w, Served f d numBlocks base x w → x.Keeps d e ∧ allow x e)
    (ran : World.runs texts es w = some w') :
    ∃ x', Run (Guarded allow (Inference.Step f d numBlocks base.cfg.blockSize)) x es x' ∧
      Served f d numBlocks base x' w' := by
  induction es generalizing x w with
  | nil =>
    obtain rfl := Option.some.inj ran
    exact ⟨x, .nil, h⟩
  | cons e es ih =>
    obtain ⟨w₁, first, rest⟩ := bind_some ran
    obtain ⟨keeps, allow_⟩ := allowed e List.mem_cons_self x w h
    have next := h.exec suits keeps
    rw [first] at next
    cases here : x.exec f d numBlocks base.cfg.blockSize e with
    | none =>
      rw [here] at next
      cases next
    | some x₁ =>
      rw [here] at next
      cases next with
      | some served =>
        obtain ⟨x', run, after⟩ := ih served (fun e later => allowed e (List.mem_cons_of_mem _ later)) rest
        exact ⟨x', .cons ⟨allow_, here⟩ run, after⟩

section Runs

variable {cfg : SchedulerConfig} {n watermark : Nat} {ns : CacheNamespace B} {eos : List Token}
  {caches : List (LayerBuffers S hidden kvHeads dim)} {es : List Event}

omit [DecidableEq H] in
theorem new_served (layout : d.Fits caches (numBlocks * cfg.blockSize)) :
    Served f d numBlocks (Scheduler.new cfg (BlockPool.new n cfg.blockSize watermark) ns eos)
      (Inference.new (Scheduler.new cfg (BlockPool.new n cfg.blockSize watermark) ns eos) caches)
      (World.new (Scheduler.new cfg (BlockPool.new n cfg.blockSize watermark) ns eos)) where
  follows := {
    scheduler := rfl
    inFlight := rfl
    leaders := rfl
    mirrors := by
      have blank := layout.mirrors f
      rw [← Paged.cells_empty] at blank
      exact blank
    rows := by simp [Inference.new]
    led := by simp [Inference.new] }
  stored := new_stored _
  known id token mem := by simp [textOf, World.new, Scheduler.new] at mem

end Runs

section Draws

/-- Which tokens may be drawn: under the parameters, after a prompt and what has been generated, from a row. -/
abbrev Draw (S : Type) (vocab : Nat) := SamplingParams → List Token → List Token → (Fin vocab → S) → Token → Prop

/-- The tokens committed, and those the children of a leader begin with, are drawn from the rows there are for them. -/
def Inference.Draws (draw : Draw S vocab) (x : Inference B S hidden kvHeads dim vocab) : Event → Prop
  | .commit sampled => ∀ plan rows, x.inFlight = some (plan, rows) → ∀ (i : Nat) id row token seq,
    plan.sampledSeqs[i]? = some id → rows[i]? = some row → sampled[i]? = some token → x.scheduler.seqs id = some seq →
      draw seq.params seq.prompt seq.generated row token
  | .fork parent tokens => ∀ row seq, (parent, row) ∈ x.leaders → x.scheduler.seqs parent = some seq →
    ∀ token ∈ tokens, draw seq.params seq.prompt [] row token
  | _ => True

/-- What was generated was drawn, token by token, from the rows that `plain` has for the text before. -/
def Drawn (draw : Draw S vocab) (plain : List Token → Fin vocab → S) (seq : Sequence) : Prop :=
  ∀ (k : Nat) token, seq.generated[k]? = some token →
    draw seq.params seq.prompt (seq.generated.take k) (plain (seq.prompt ++ seq.generated.take k)) token

variable {draw : Draw S vocab} {plain : List Token → Fin vocab → S} {seq seq' : Sequence}

omit [Field S] [LinearOrder S] [DecidableEq H] in
theorem Drawn.same (h : Drawn draw plain seq) (same : seq.SameText seq') : Drawn draw plain seq' := by
  unfold Drawn Sequence.generated Sequence.prompt at h ⊢
  rwa [same.params, same.promptLen, same.tokens]

omit [Field S] [LinearOrder S] [DecidableEq H] in
/-- One more token, from the row for the whole text. -/
theorem Drawn.push (h : Drawn draw plain seq) {token : Token}
    (drawn : draw seq.params seq.prompt seq.generated (plain seq.tokens) token) :
    Drawn draw plain (seq.pushToken token) := by
  have le := Nat.le_trans seq.promptLen_le seq.target_le
  have prompt : (seq.pushToken token).prompt = seq.prompt := List.take_append_of_le_length le
  have generated : (seq.pushToken token).generated = seq.generated ++ [token] := List.drop_append_of_le_length le
  have whole : seq.prompt ++ seq.generated = seq.tokens := List.take_append_drop ..
  intro k later here
  rw [generated] at here
  rw [prompt, generated]
  rcases Nat.lt_or_ge k seq.generated.length with lt | ge
  · rw [List.getElem?_append_left lt] at here
    rw [List.take_append_of_le_length (Nat.le_of_lt lt)]
    exact h k later here
  · rw [List.getElem?_append_right ge] at here
    obtain ⟨inside, rfl⟩ := List.getElem?_eq_some_iff.mp here
    rw [List.length_singleton, Nat.lt_one_iff, Nat.sub_eq_zero_iff_le] at inside
    obtain rfl := Nat.le_antisymm inside ge
    rw [List.take_left, whole]
    simpa using drawn

omit [Field S] [LinearOrder S] [DecidableEq H] in
/-- A prompt has nothing generated after it. -/
theorem Drawn.new {requestId : RequestId} {prompt : List Token} {params : SamplingParams} {tenant : String} :
    Drawn draw plain (Sequence.new requestId prompt params tenant) := by
  intro k token here
  rw [Sequence.generated, Sequence.new_tokens, Sequence.new_promptLen, List.drop_length] at here
  simp at here

omit [Field S] [LinearOrder S] [DecidableEq H] in
/-- Where a row leaves no choice, one of two answers to a prompt begins with the other. -/
theorem Drawn.agree (h : Drawn draw plain seq) (h' : Drawn draw plain seq') (params : seq'.params = seq.params)
    (prompt : seq'.prompt = seq.prompt)
    (sure : ∀ generated row token token', draw seq.params seq.prompt generated row token →
      draw seq.params seq.prompt generated row token' → token = token') :
    seq.generated <+: seq'.generated ∨ seq'.generated <+: seq.generated := by
  have upTo : ∀ k, k ≤ seq.generated.length → k ≤ seq'.generated.length →
      seq.generated.take k = seq'.generated.take k := by
    intro k
    induction k with
    | zero => exact fun _ _ => rfl
    | succ k ih =>
      intro le le'
      have before := ih (Nat.le_of_succ_le le) (Nat.le_of_succ_le le')
      have here := List.getElem?_eq_getElem le
      have here' := List.getElem?_eq_getElem le'
      have first := h k _ here
      have second := h' k _ here'
      rw [params, prompt, ← before] at second
      rw [List.take_add_one, List.take_add_one, before, here, here', sure _ _ _ _ first second]
  rcases Nat.le_total seq.generated.length seq'.generated.length with le | le
  · have same := upTo _ (Nat.le_refl _) le
    rw [List.take_length] at same
    exact .inl (same ▸ List.take_prefix ..)
  · have same := upTo _ le (Nat.le_refl _)
    rw [List.take_length] at same
    exact .inr (same ▸ List.take_prefix ..)

/-- A step keeps every answer drawn. -/
theorem Served.drawn (h : Served f d numBlocks base x w) (suits : Suits base d numBlocks) (keeps : x.Keeps d e)
    (draws : x.Draws draw e) {x' : Inference B S hidden kvHeads dim vocab}
    (step : x.Step f d numBlocks base.cfg.blockSize e x')
    (drawn : ∀ id seq, x.scheduler.seqs id = some seq → Drawn draw (d.plain f) seq) :
    ∀ id seq, x'.scheduler.seqs id = some seq → Drawn draw (d.plain f) seq := by
  obtain ⟨w', over_, served⟩ := h.step suits keeps step
  intro id seq' live
  rw [served.follows.scheduler] at live
  rw [h.follows.scheduler] at drawn
  cases h.stored.standing.arises (h.seeds suits keeps over_) over_ live with
  | kept live same => exact (drawn _ _ live).same same
  | admitted is fresh new => exact Drawn.same Drawn.new new
  | @drawn sampled plan i token seq is flying here given live more =>
    subst is
    have waiting := h.follows.inFlight
    rw [flying, Option.map_eq_some_iff] at waiting
    obtain ⟨⟨plan', rows⟩, waiting, rfl⟩ := waiting
    obtain ⟨length, each⟩ := List.forall₂_iff_get.mp (h.follows.rows _ _ waiting)
    obtain ⟨lt, is⟩ := List.getElem?_eq_some_iff.mp here
    have row := List.getElem?_eq_getElem (length ▸ lt)
    have live' : x.scheduler.seqs id = some seq := h.follows.scheduler ▸ live
    have own := each i lt (length ▸ lt) seq (by rw [List.get_eq_getElem, is]; exact live')
    have may := draws plan' rows waiting i id _ token seq here row given live'
    rw [List.get_eq_getElem] at own
    rw [own] at may
    exact ((drawn _ _ live).push may).same more
  | @forked parent tokens token source is leads given live new =>
    subst is
    rw [← h.follows.leaders] at leads
    obtain ⟨⟨leader, row⟩, mem, rfl⟩ := List.mem_map.mp leads
    have live' : x.scheduler.seqs leader = some source := h.follows.scheduler ▸ live
    have may := draws row source mem live' token given
    have own : row = d.plain f source.prompt := h.follows.led _ mem source live'
    rw [own] at may
    refine Drawn.same (Drawn.push Drawn.new ?_) new
    rw [Sequence.new_prompt]
    have none : (Sequence.new source.requestId source.prompt source.params source.tenant).generated = [] :=
      List.drop_length
    rw [none]
    exact may

/-- What a server of a model can come to: an engine in a configuration that suits the model, over any cache of its layout,
after a run that commits what it draws. -/
def Reached (draw : Draw S vocab) (f : Numerics S) (d : Decoder S hidden kvHeads dim vocab)
    (x : Inference B S hidden kvHeads dim vocab) : Prop :=
  ∃ numBlocks cfg n watermark ns eos caches es,
    Suits (Scheduler.new cfg (BlockPool.new n cfg.blockSize watermark) ns eos) d numBlocks ∧
    d.Fits caches (numBlocks * cfg.blockSize) ∧
    Run (Guarded (fun x e => x.Keeps d e ∧ x.Draws draw e) (Inference.Step f d numBlocks cfg.blockSize))
      (Inference.new (Scheduler.new cfg (BlockPool.new n cfg.blockSize watermark) ns eos) caches) es x

theorem Reached.drawn (reached : Reached draw f d x) {id : SeqId} (live : x.scheduler.seqs id = some seq) :
    Drawn draw (d.plain f) seq := by
  obtain ⟨numBlocks, cfg, n, watermark, ns, eos, caches, es, suits, layout, run⟩ := reached
  have both := run.invariant (fun x =>
    (∃ w, Served f d numBlocks (Scheduler.new cfg (BlockPool.new n cfg.blockSize watermark)
    ns eos) x w) ∧ ∀ id seq, x.scheduler.seqs id = some seq → Drawn draw (d.plain f) seq)
    ⟨⟨_, new_served layout⟩, by simp [Inference.new, Scheduler.new]⟩ fun x e x' h step => ?_
  · exact both.2 id seq live
  · obtain ⟨⟨w, served⟩, drawn⟩ := h
    obtain ⟨⟨keeps, draws⟩, step⟩ := step
    obtain ⟨w', -, after⟩ := served.step suits keeps step
    exact ⟨⟨w', after⟩, served.drawn suits keeps draws step drawn⟩

end Draws

section Example

theorem one_shared : 0 < 1 ∧ 1 ∣ 1 := ⟨Nat.one_pos, Nat.dvd_refl 1⟩

/-- Attention to one number a token, after which the second token is always the likelier. -/
def second : Decoder ℚ 1 1 1 2 where
  embed := [fun _ => 0, fun _ => 1]
  maxPositions := 8
  blocks := [⟨id, .attention {
    heads := 1
    project := fun _ x => ⟨fun _ => x, fun _ => x, fun _ => x⟩
    output := fun _ y => y ⟨0, Nat.one_pos⟩
    grouped := one_shared }, id, .dense id⟩]
  norm := id
  lmHead _ token := if token.val = 1 then 1 else 0
  kernels block mem conv is := by
    rw [List.mem_singleton.mp mem] at is
    cases is

/-- The likeliest token. -/
def greedy : Draw ℚ 2 := fun _ _ _ row token => ∃ lt : token.toNat < 2, ∀ v, v ≠ ⟨token.toNat, lt⟩ →
    row v < row ⟨token.toNat, lt⟩

def zeros (slots : Nat) : List (LayerBuffers ℚ 1 1 1) :=
    [.kv (List.replicate slots fun _ _ => 0, List.replicate slots fun _ _ => 0)]

end Example

end Vapi.Backend
