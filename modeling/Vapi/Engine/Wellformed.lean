import Vapi.Engine.Exclusive
import Vapi.Engine.Progress

/-!
# Sequences between steps

The numbers of a sequence between two steps of an engine: how much is known
of it, how much computed, and what is left to compute. They are what keeps a
schedule from reading past a sequence's tokens.
-/

namespace Vapi.Engine

open Vapi.Cache

/-- A waiting sequence starts over. A running one has something left to
compute: what is left of its known text, or its last token. -/
structure SeqOk (cfg : SchedulerConfig) (seq : Sequence) : Prop where
  prompt : 0 < seq.promptLen
  promptFits : seq.promptLen < cfg.maxContext
  waiting : seq.status.place = .waiting →
    seq.prefillTarget = seq.tokens.length ∧ seq.tokens.length ≤ cfg.maxContext
  running : seq.status.place = .running →
    seq.numComputed < seq.tokens.length ∧ seq.tokens.length ≤ cfg.maxContext ∧
    (seq.prefillTarget = seq.tokens.length ∨
      seq.prefillTarget ≤ seq.numComputed ∧ seq.numComputed + 1 = seq.tokens.length)

variable {H : Type} {B : Blake3 H}

def SeqsOk (s : Scheduler B) : Prop := ∀ id seq, s.seqs id = some seq → SeqOk s.cfg seq

theorem SeqsOk.change {s t : Scheduler B} (h : SeqsOk s) {id : SeqId} {new : Sequence} (cfg : t.cfg = s.cfg)
    (seqs : t.seqs = Function.update s.seqs id (some new)) (ok : SeqOk s.cfg new) : SeqsOk t := by
  intro x seq live
  rw [cfg]
  rw [seqs, Function.update_apply] at live
  split at live
  · exact Option.some.inj live ▸ ok
  · exact h x seq live

/-- What is left to compute is known. -/
theorem SeqOk.chunk {cfg : SchedulerConfig} {seq : Sequence} (h : SeqOk cfg seq)
    (running : seq.status.place = .running) {q : Nat}
    (chunk : seq.needsPrefill = false ∧ q = 1 ∨ q ≤ seq.remainingPrefill) :
    seq.numComputed + q ≤ seq.tokens.length := by
  have := h.running running
  have := seq.target_le
  rcases chunk with ⟨-, rfl⟩ | le
  · omega
  · unfold Sequence.remainingPrefill at le
    omega

section Passes

variable [DecidableEq H] {base : Scheduler B} {p p' : Pass B}

theorem passStep_seqsOk (step : PassStep p p') (q : Queued p.scheduler) (wf : Wf p.scheduler.pool)
    (same : p.scheduler.pool.blockSize = p.scheduler.cfg.blockSize) (h : SeqsOk p.scheduler) :
    SeqsOk p'.scheduler := by
  cases step with
  | @batch id seq n pool taken plan run new live chunk took pushed =>
    obtain ⟨prompt, fits, waiting, running⟩ := h id seq live
    exact h.change rfl rfl ⟨prompt, fits, waiting, running⟩
  | @preempt id seq n pool taken err run new live chunk took =>
    obtain ⟨prompt, fits, -, running⟩ := h id seq live
    have := running (q.place_of_running run live)
    exact h.change rfl rfl ⟨prompt, fits, fun _ => ⟨rfl, this.2.1⟩, fun place => by cases place⟩
  | @start id rest seq found pool matched taken cached head live budget room hit fits took =>
    obtain ⟨prompt, promptFits, waiting, -⟩ := h id seq live
    have := waiting (q.place_of_waiting (by simp [head]) live)
    obtain ⟨cached_eq, few⟩ := (matchCached_spec wf hit).2 same
    have lt : cached < seq.prefillTarget := by
      have := seq.promptLen_le
      rcases few with rfl | lt
      · rw [cached_eq, List.length_nil]
        omega
      · exact lt
    refine h.change rfl rfl ⟨prompt, promptFits, fun place => (by cases place), fun _ => ?_⟩
    exact ⟨by rw [Sequence.startOn_numComputed]; exact Nat.lt_of_lt_of_le lt seq.target_le, this.2,
      .inl this.1⟩
  | refuse head live hit took => exact h

/-- What the loops of a pass go by between steps of an engine. -/
structure PassSound (base : Scheduler B) (p : Pass B) : Prop extends PassOk base p where
  seqs : SeqsOk p.scheduler

section

variable (size : 0 < base.cfg.blockSize) (same : base.pool.blockSize = base.cfg.blockSize)
include size same

theorem PassSound.step (ok : PassSound base p) (step : PassStep p p') : PassSound base p' where
  toPassOk := ok.toPassOk.step size step
  seqs := passStep_seqsOk step ok.queued ok.wf (by rw [ok.shape.blockSize, same, ok.cfg]) ok.seqs

theorem PassSound.steps (ok : PassSound base p) (steps : PassSteps p p') : PassSound base p' := by
  induction steps with
  | refl => exact ok
  | tail _ step ih => exact ih.step size same step

/-- The decode loop comes to its end. -/
theorem decodeLoop_total (ids l : List SeqId) (ok : PassSound base (p.withRunning (l ++ ids)))
    (taken : p.scheduler.running = []) (new : ∀ id ∈ ids, id ∉ p.plan.batchSeqs) :
    ∃ r, Pass.decodeLoop ids p = some r := by
  induction ids generalizing p l with
  | nil => exact ⟨_, rfl⟩
  | cons id ids ih =>
    have nodup : (l ++ id :: ids).Nodup := ok.queued.nodup .running
    have run : id ∈ l ++ id :: ids := by simp
    obtain ⟨seq, live, place⟩ := ok.queued.running run
    change p.scheduler.seqs id = some seq at live
    have going : seq.status.isFinished = false := by
      rw [Bool.eq_false_iff, ne_eq, SeqStatus.isFinished_iff, place]
      decide
    have ready : Ready p :=
      let r := ok.toPassOk.ready size same
      ⟨r.wf, r.size, r.blockSize, r.batch⟩
    obtain ⟨⟨p₁, kept⟩, one⟩ : ∃ r, p.decodeOne id = some r := by
      unfold Pass.decodeOne
      simp only [live, going, Bool.false_eq_true, if_false]
      split
      · exact ⟨_, rfl⟩
      · rename_i decodes
        split
        · exact ⟨_, rfl⟩
        · have known := (ok.seqs id seq live).chunk place (.inl ⟨by simpa using decodes, rfl⟩)
          obtain ⟨p₁, kept, ext, -⟩ := extendOrPreempt_total ready live Nat.one_pos known
          exact ⟨_, ext⟩
    have next : ∃ r, Pass.decodeLoop ids p₁ = some r := by
      rcases decodeOne_cases one live going with ⟨rfl, rfl⟩ | ⟨chunk, -, ext⟩
      · exact ih (l ++ [id]) (by simpa using ok) taken fun x hx => new x (by simp [hx])
      · have step := extendOrPreempt_step ext live chunk run (new id (by simp))
        have notLater : ∀ x ∈ ids, x ≠ id := fun x hx e =>
          (List.nodup_cons.mp (List.nodup_append.mp nodup).2.1).1 (e ▸ hx)
        have running : p₁.scheduler.running = [] := by
          rw [step.running, taken]
          split <;> rfl
        have batched : ∀ x ∈ ids, x ∉ p₁.plan.batchSeqs := by
          intro x hx
          rw [step.batchSeqs]
          split
          · rw [List.mem_append, List.mem_singleton, not_or]
            exact ⟨new x (by simp [hx]), notLater x hx⟩
          · exact new x (by simp [hx])
        have sound := ok.step size same step.step
        cases kept with
        | true => exact ih (l ++ [id]) (by simpa using sound) running batched
        | false =>
          rw [if_neg Bool.false_ne_true, filter_middle nodup] at sound
          exact ih l sound running batched
    obtain ⟨⟨p₂, survivors⟩, loop⟩ := next
    exact ⟨(p₂, if kept then id :: survivors else survivors), by simp [Pass.decodeLoop, one, loop]⟩

/-- So does the loop over the sequences still prefilling. -/
theorem continueLoop_total {ids : List SeqId} (ok : PassSound base p) (nodup : ids.Nodup)
    (run : ∀ id ∈ ids, id ∈ p.scheduler.running)
    (new : ∀ id ∈ ids, id ∈ p.plan.batchSeqs →
      ∃ seq, p.scheduler.seqs id = some seq ∧ seq.needsPrefill = false) :
    ∃ p', Pass.continueLoop ids p = some p' := by
  induction ids generalizing p with
  | nil => exact ⟨p, rfl⟩
  | cons id ids ih =>
    obtain ⟨notLater, nodup⟩ := List.nodup_cons.mp nodup
    have skip : ∃ p', Pass.continueLoop ids p = some p' :=
      ih ok nodup (fun x hx => run x (by simp [hx])) (fun x hx => new x (by simp [hx]))
    obtain ⟨seq, live, place⟩ := ok.queued.running (run id (by simp))
    unfold Pass.continueLoop
    split
    · exact ⟨_, rfl⟩
    · simp only [live]
      split
      · exact skip
      · rename_i prefilling
        have needs : seq.needsPrefill = true := by
          by_contra no
          exact prefilling (.inl no)
        have unbatched : id ∉ p.plan.batchSeqs := by
          intro hb
          obtain ⟨seq', live', decodes⟩ := new id (by simp) hb
          rw [live] at live'
          rw [← Option.some.inj live', needs] at decodes
          simp at decodes
        obtain ⟨p₁, chunk⟩ : ∃ p₁, p.prefillChunk id = some p₁ := by
          unfold Pass.prefillChunk
          simp only [live, Option.bind_eq_bind, Option.bind_some]
          split
          · exact ⟨_, rfl⟩
          · rename_i pos
            have known := (ok.seqs id seq live).chunk place
              (q := min (min seq.remainingPrefill p.scheduler.cfg.prefillChunkTokens) p.budget)
              (.inr (by omega))
            obtain ⟨p₁, kept, ext, -⟩ := extendOrPreempt_total (ok.toPassOk.ready size same) live
              (Nat.pos_of_ne_zero pos) known
            exact ⟨p₁, by rw [ext]; rfl⟩
        have rest : ∃ p', Pass.continueLoop ids p₁ = some p' := by
          rcases prefillChunk_cases chunk with rfl | ⟨seq', n, kept, live', fits, ext⟩
          · exact skip
          · have step := extendOrPreempt_step ext live' fits (run id (by simp)) unbatched
            have other : ∀ x ∈ ids, x ≠ id := fun x hx e => notLater (e ▸ hx)
            refine ih (ok.step size same (extendOrPreempt_here step)) nodup (fun x hx => ?_) fun x hx hb => ?_
            · rw [step.running]
              have := run x (by simp [hx])
              split
              · exact this
              · exact List.mem_filter.mpr ⟨this, by simpa using other x hx⟩
            · rw [step.other x (other x hx)]
              refine new x (by simp [hx]) ?_
              rw [step.batchSeqs] at hb
              split at hb
              · simpa [other x hx] using hb
              · exact hb
        obtain ⟨p', rest⟩ := rest
        exact ⟨p', by rw [chunk]; exact rest⟩

/-- A schedule never panics. -/
theorem schedule_total {s : Scheduler B} (ok : PassSound base ⟨s, {}, s.cfg.maxBatchedTokens⟩) :
    ∃ t plan, s.schedule = some (t, plan) := by
  obtain ⟨⟨p₁, survivors⟩, loop⟩ := decodeLoop_total size same s.running []
    (p := ⟨s.setRunning [], {}, s.cfg.maxBatchedTokens⟩) ok rfl (by simp)
  have decodes : Pass.scheduleDecodes ⟨s, {}, s.cfg.maxBatchedTokens⟩ = some (p₁.withRunning survivors) := by
    unfold Pass.scheduleDecodes
    change (Pass.decodeLoop s.running ⟨s.setRunning [], {}, s.cfg.maxBatchedTokens⟩).bind _ = _
    rw [loop]
    rfl
  obtain ⟨first, only⟩ := scheduleDecodes_steps decodes ok.queued rfl
  have ok₁ := ok.steps size same first
  obtain ⟨p₂, more⟩ : ∃ p₂, Pass.continueLoop (p₁.withRunning survivors).scheduler.running
      (p₁.withRunning survivors) = some p₂ := continueLoop_total size same ok₁ (ok₁.queued.nodup .running) (fun _ hx => hx)
    fun id _ hb => only id hb
  have second := continueLoop_steps more (ok₁.queued.nodup .running) (fun _ hx => hx)
    fun id _ hb => only id hb
  have ok₂ := ok₁.steps size same second
  obtain ⟨p₃, start⟩ := startLoop_total (p₂.scheduler.waiting.length + 1) ok₂.toPassOk size same
    (Nat.lt_succ_self _)
  refine ⟨p₃.scheduler, p₃.plan.measured, ?_⟩
  simp [Scheduler.schedule, decodes, Pass.schedulePrefills, more, start]

end

end Passes

end Vapi.Engine
