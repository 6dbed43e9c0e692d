import Vapi.Lib.Base64
import Vapi.Worker.Transcribe

/-!
# What is published of a clip

The transcription engine behind the worker's thread and loop.
-/

namespace Vapi.Worker

open Proto Transition TranscriptionEngine

variable {M : Type} {k : Audio.F32 ℚ} {base64Decode : String → Option (List UInt8)}
  {audio : RequestId → Option AudioClip} {heard : List ℚ → Transcript} {sampleRate maxQueued : Nat}
  {workerId : String} {maxStepFailures : Nat} {decode : M → Option Job} {labels : List (Label Transcribe M)} {s : Speaking TranscriptionEngine M}

/-- What begins a stream and has not its last word. -/
theorem before_last {ds b : List Delta} {last : Delta} (begins : ds <+: b ++ [last])
    (open_ : ∀ d ∈ ds, d.isTerminal = false) (ends : last.isTerminal = true) : ds <+: b := by
  rcases List.prefix_concat_iff.mp begins with rfl | within
  · have still := open_ last (by simp)
    rw [ends] at still
    cases still
  · exact within

/-- A stream without its last word has at most its first. -/
theorem started_at_most {job : Job} {ds : List Delta}
    (begins : ∃ said, ds <+: said ∧ (said = [] ∨ (∃ e, Awaits k base64Decode audio sampleRate e job said) ∨
      Answered k base64Decode audio sampleRate workerId heard job said))
    (open_ : ∀ d ∈ ds, d.isTerminal = false) : ds <+: [.started workerId 0] := by
  obtain ⟨said, begins, rfl | ⟨_, rfl, -⟩ | answered⟩ := begins
  · exact begins.trans List.nil_prefix
  · exact begins.trans List.nil_prefix
  · cases answered with
    | refused | failed => exact (before_last (b := []) begins open_ rfl).trans List.nil_prefix
    | transcribed => exact before_last (b := [_]) begins open_ rfl

/-- An engine as a worker starts with it. -/
theorem TranscriptionEngine.Stands.fresh :
    TranscriptionEngine.Stands sampleRate workerId (.new sampleRate maxQueued workerId) :=
  ⟨List.nodup_nil, rfl, rfl⟩

/-- Over any run of a worker that transcribes, on a device that hears clips as the model does or fails: a job that
came and was not cancelled has had its one answer in full, which is why it was refused, a failure, or the word that it
was started and then the transcript of its own clip; or no more than the first word is published, its message is not
acknowledged, and the worker has not drained. -/
theorem clips_streamed
    (run : Run (Speaking.Step (transcriptionWorker k base64Decode audio) maxStepFailures decode)
      (.start (transcriptionWorker k base64Decode audio) (.new sampleRate maxQueued workerId)) labels s)
    (distinct : (jobsOf decode labels).Nodup) (hears : ∀ transcribe, .turn transcribe ∈ labels → HearsAs heard transcribe)
    {job : Job} {m : M} (came : .delivered job.requestId m ∈ s.main.log) (decodes : decode m = some job)
    (uncancelled : .cancelled job.requestId ∉ s.main.log) :
    ∃ ds, about job.requestId s.bus = number 0 ds ∧
      (Answered k base64Decode audio sampleRate workerId heard job ds ∨
        ds <+: [.started workerId 0] ∧ (∀ m', .acked job.requestId m' ∉ s.main.log) ∧ s.main.loop ≠ .drained) := by
  obtain ⟨ds, told, stage⟩ := streams_whole (e := .new sampleRate maxQueued workerId) lawful speaks .fresh
    (fun rid mem => by cases mem) (fun _ => rfl) run distinct hears came decodes uncancelled
  exact ⟨ds, told, stage.imp_right fun ⟨begins, open_, unacked, going⟩ =>
    ⟨started_at_most begins open_, unacked, going⟩⟩

section Example

def unbase64 (text : String) : Option (List UInt8) := Base64.decode text.toList

/-- One sample, of half the range. -/
def sound (_ : RequestId) : Option AudioClip := some ⟨16000, "AEA="⟩

/-- A message is a request's id. -/
def clipOf (id : String) : Option Job := some { requestId := ⟨id⟩, kind := .transcription, promptTokens := [] }

def second : Job := ⟨⟨"b"⟩, .transcription, [], []⟩

def listening (samples : List ℚ) : Transcript :=
  ⟨"heard " ++ toString samples.length ++ " samples", samples.length / 1280⟩

def twoClips : List (Label Transcribe String) :=
  [.top, .job "a", .top, .job "b", .take, .take, .turn fun x => .ok (listening x), .send,
    .turn fun _ => .error (.engine "wedged"), .send, .top, .report, .top, .report]

theorem clips_streamed_two : ∃ s : Speaking TranscriptionEngine String,
    s.bus = [(⟨"a"⟩, ⟨0, .started "w" 0⟩), (⟨"a"⟩, ⟨1, .transcribed "heard 1 samples" 0 (Binary32.round (1 / 16000))⟩),
      (⟨"b"⟩, ⟨0, .failed "engine step failed: engine: wedged"⟩)] ∧
    ∃ ds, about ⟨"b"⟩ s.bus = number 0 ds ∧
      (Answered Audio.f32 unbase64 sound 16000 "w" listening ⟨⟨"b"⟩, .transcription, [], []⟩ ds ∨
        ds <+: [.started "w" 0] ∧ (∀ m', .acked ⟨"b"⟩ m' ∉ s.main.log) ∧ s.main.loop ≠ .drained) := by
  have ran : (follow (Speaking.exec (transcriptionWorker Audio.f32 unbase64 sound) 3 clipOf) twoClips
      (.start (transcriptionWorker Audio.f32 unbase64 sound) (.new 16000 4 "w"))).any (fun s => s.bus =
        [(⟨"a"⟩, ⟨0, .started "w" 0⟩), (⟨"a"⟩, ⟨1, .transcribed "heard 1 samples" 0 (Binary32.round (1 / 16000))⟩),
          (⟨"b"⟩, ⟨0, .failed "engine step failed: engine: wedged"⟩)] ∧
        .delivered ⟨"b"⟩ "b" ∈ s.main.log ∧ .cancelled ⟨"b"⟩ ∉ s.main.log) = true := by decide +kernel
  obtain ⟨s, reached, facts⟩ := (Option.any_eq_true _ _).mp ran
  obtain ⟨bus, came, uncancelled⟩ := of_decide_eq_true facts
  have hears : ∀ transcribe, .turn transcribe ∈ twoClips → HearsAs listening transcribe := by
    intro transcribe mem samples
    simp only [twoClips, List.mem_cons, reduceCtorEq, Label.turn.injEq, List.not_mem_nil, false_or, or_false] at mem
    rcases mem with rfl | rfl
    · exact .inl rfl
    · exact .inr ⟨_, rfl⟩
  have came : .delivered second.requestId "b" ∈ s.main.log := came
  exact ⟨s, bus, clips_streamed (follow_iff.mp reached) (by decide +kernel) hears came rfl uncancelled⟩

end Example

end Vapi.Worker
