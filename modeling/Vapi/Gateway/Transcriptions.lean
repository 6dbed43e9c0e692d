import Vapi.Worker.Transcribed

/-!
# A clip and its answer

The gateway's side of a transcription: the clip that goes into the job, and
what is made of the request's stream. Between the two are the worker and a bus
that may lose messages.
-/

namespace Vapi.Gateway

open Proto Worker Transition TranscriptionEngine

/-- The clip of a job, from samples at the rate the model wants. -/
def audioClip (base64Encode : List UInt8 → String) (rate : Nat) (samples : List ℚ) : AudioClip :=
  ⟨rate % 2 ^ 32, base64Encode (Audio.toI16Le samples)⟩

def wrongKind : Error :=
  .engine ("a worker of the wrong kind answered a transcription request; " ++
    "this model's queue has the wrong kind of worker on it")

def unanswered : Error := .engine "the worker closed the stream without answering"

/-- Wait for the single terminal delta. -/
def awaitTranscription : List (Except TransportError StreamEvent) → Except (TransportError ⊕ Error) (String × Nat × ℚ)
  | [] => .error (.inr unanswered)
  | .error err :: _ => .error (.inl err)
  | .ok (.started _) :: rest => awaitTranscription rest
  | .ok (.transcribed text positions audioSeconds) :: _ => .ok (text, positions, audioSeconds)
  | .ok (.failed message) :: _ => .error (.inr (.engine message))
  | .ok (.token ..) :: _ | .ok (.done ..) :: _ | .ok (.decided ..) :: _ => .error (.inr wrongKind)

/-- What the gateway reads of a stream: the messages that reach it, until a timeout if there is one. -/
def reads (stream : TokenStream) (bus : List Published) (timeout : Option TransportError) :
    List (Except TransportError StreamEvent) :=
  (stream.listen (stream.received bus)).2 ++ (timeout.map .error).toList

/-- All that a worker has put on the bus. -/
def published (bus : List (RequestId × DeltaMsg)) : List Published := bus.map fun x => (Subjects.stream x.1, x.2)

theorem received_published (rid : RequestId) (bus : List (RequestId × DeltaMsg)) :
    ({ requestId := rid } : TokenStream).received (published bus) = about rid bus := by
  induction bus with
  | nil => rfl
  | cons x bus ih =>
    unfold TokenStream.received published at ih ⊢
    by_cases same : x.1 = rid
    · simpa [about, same] using ih
    · have other : Subjects.stream x.1 ≠ Subjects.stream rid := fun is => same (Subjects.stream_injective is)
      simpa [about, same, other] using ih

variable {base64Encode : List UInt8 → String} {base64Decode : String → Option (List UInt8)}
  {audio : RequestId → Option AudioClip} {rate : Nat} {samples : List ℚ} {job : Job}

/-- The worker takes up what the gateway sends. -/
theorem read_audioClip (codec : ∀ bytes, base64Decode (base64Encode bytes) = some bytes)
    (carries : audio job.requestId = some (audioClip base64Encode rate samples)) (kind : job.kind = .transcription)
    (some_ : samples ≠ []) :
    TranscriptionEngine.read Audio.f32 base64Decode audio rate job = .ok {
      requestId := job.requestId
      samples := samples.map fun s => (Audio.toI16 s : ℚ) / 2 ^ 15
      seconds := Audio.f32.div (Audio.f32.ofInt samples.length) (Audio.f32.ofInt (rate % 2 ^ 32 : Nat)) } := by
  unfold TranscriptionEngine.read
  rw [if_neg (not_not.mpr kind), carries]
  simp [audioClip, codec, Audio.fromI16Le_toI16Le, some_]

/-- What ends a stream that has no terminal delta. -/
theorem await_end (timeout : Option TransportError) :
    awaitTranscription (timeout.map .error).toList = .error ((timeout.map .inl).getD (.inr unanswered)) := by
  cases timeout <;> rfl

variable {M : Type} {heard : List ℚ → Transcript} {maxQueued : Nat} {workerId : String} {maxStepFailures : Nat}
  {decode : M → Option Job} {labels : List (Worker.Label Transcribe M)} {s : Speaking TranscriptionEngine M}

/-- A clip goes to the worker and back, over any run of the worker with any other jobs, on a device that hears as the
model does or fails, and whatever the bus loses. An answer the gateway has is the transcript of the clip, as 16-bit
samples have it, and of its length. What it is told of an engine is the worker's own word on a failure, or that no
answer came; it is not that the worker is of the wrong kind. If the job's message is acknowledged and nothing of the
stream was lost, it has the answer, or the worker's word on why there is none. -/
theorem transcript_delivered (codec : ∀ bytes, base64Decode (base64Encode bytes) = some bytes)
    (run : Run (Speaking.Step (transcriptionWorker Audio.f32 base64Decode audio) maxStepFailures decode)
      (.start (transcriptionWorker Audio.f32 base64Decode audio) (.new rate maxQueued workerId)) labels s)
    (distinct : (jobsOf decode labels).Nodup) (hears : ∀ transcribe, .turn transcribe ∈ labels → HearsAs heard transcribe)
    {m : M} (came : .delivered job.requestId m ∈ s.main.log) (decodes : decode m = some job)
    (uncancelled : .cancelled job.requestId ∉ s.main.log) (kind : job.kind = .transcription)
    (carries : audio job.requestId = some (audioClip base64Encode rate samples)) (some_ : samples ≠ [])
    {delivered : List Published} (channel : delivered.Sublist (published s.bus)) (timeout : Option TransportError) :
    let stream : TokenStream := { requestId := job.requestId }
    let answer := awaitTranscription (reads stream delivered timeout)
    let clip := samples.map fun s => (Audio.toI16 s : ℚ) / 2 ^ 15
    let transcript := ((heard clip).text, (heard clip).positions,
      Audio.f32.div (Audio.f32.ofInt samples.length) (Audio.f32.ofInt (rate % 2 ^ 32 : Nat)))
    let failure (message : String) := about job.requestId s.bus = [⟨0, .failed message⟩]
    (∀ result, answer = .ok result → result = transcript) ∧
      (∀ err, answer = .error (.inr err) → err = unanswered ∨ ∃ message, failure message ∧ err = .engine message) ∧
      (∀ m', .acked job.requestId m' ∈ s.main.log → stream.received delivered = stream.received (published s.bus) →
        answer = .ok transcript ∨ ∃ message, failure message ∧ answer = .error (.inr (.engine message))) := by
  intro stream answer clip transcript failure
  have took := read_audioClip codec carries kind some_
  obtain ⟨ds, told, stage⟩ := streams_whole (e := .new rate maxQueued workerId) lawful speaks .fresh
    (fun rid mem => by cases mem) (fun _ => rfl) run distinct hears came decodes uncancelled
  have sent : stream.received (published s.bus) = number 0 ds := (received_published _ _).trans told
  have got : (stream.received delivered).Sublist (number 0 ds) := sent ▸ stream.received_sublist channel
  have ends : ∀ result, awaitTranscription (timeout.map .error).toList ≠ .ok result := by
    intro result is
    rw [await_end] at is
    cases is
  have alone : ∀ err, awaitTranscription (timeout.map .error).toList = .error (.inr err) → err = unanswered := by
    intro err is
    rw [await_end] at is
    cases timeout with
    | none => exact (Sum.inr.inj (Except.error.inj is)).symm
    | some late => cases is
  rw [sent]
  simp only [answer, reads]
  generalize stream.received delivered = msgs at got ⊢
  rcases stage with answered | ⟨begins, open_, unacked, -⟩
  · cases answered with
    | refused why =>
      rw [took] at why
      cases why
    | failed taken message =>
      rcases List.sublist_singleton.mp got with rfl | rfl
      · exact ⟨fun result is => absurd is (ends result), fun err is => .inl (alone err is), fun _ _ is => (by cases is)⟩
      · refine ⟨fun result is => (by cases is), fun err is => ?_, fun _ _ _ => .inr ⟨message, told, rfl⟩⟩
        exact .inr ⟨message, told, (Sum.inr.inj (Except.error.inj is)).symm⟩
    | transcribed taken =>
      rw [took] at taken
      obtain rfl := Except.ok.inj taken
      rcases List.sublist_cons_iff.mp got with later | ⟨rest, rfl, later⟩
      · rcases List.sublist_singleton.mp later with rfl | rfl
        · exact ⟨fun result is => absurd is (ends result), fun err is => .inl (alone err is),
            fun _ _ is => (by cases is)⟩
        · -- the word that it was started is lost, which is noticed
          exact ⟨fun result is => (by cases is), fun err is => (by cases is), fun _ _ is => (by cases is)⟩
      · rcases List.sublist_singleton.mp later with rfl | rfl
        · exact ⟨fun result is => absurd is (ends result), fun err is => .inl (alone err is),
            fun _ _ is => (by cases is)⟩
        · exact ⟨fun result is => (Except.ok.inj is).symm, fun err is => (by cases is), fun _ _ _ => .inl rfl⟩
  · have short : ds = [] ∨ ds = [.started workerId 0] := by
      rcases List.prefix_cons_iff.mp (started_at_most begins open_) with nothing | ⟨rest, is, within⟩
      · exact .inl nothing
      · exact .inr (is.trans (congrArg _ (List.prefix_nil.mp within)))
    have unread : msgs = [] ∨ msgs = [⟨0, .started workerId 0⟩] := by
      rcases short with rfl | rfl
      · exact .inl (List.sublist_nil.mp got)
      · exact List.sublist_singleton.mp got
    have same : awaitTranscription ((stream.listen msgs).2 ++ (timeout.map .error).toList) =
        awaitTranscription (timeout.map .error).toList := by
      rcases unread with rfl | rfl <;> rfl
    rw [same]
    exact ⟨fun result is => absurd is (ends result), fun err is => .inl (alone err is),
      fun m' acked => absurd acked (unacked m')⟩

section Example

def tobase64 (bytes : List UInt8) : String := String.ofList (Base64.encode bytes)

def first : Job := ⟨⟨"a"⟩, .transcription, [], []⟩

/-- Half the range, once, and half of it is lost. -/
theorem transcript_delivered_half : ∃ s : Speaking TranscriptionEngine String,
    let stream : TokenStream := { requestId := ⟨"a"⟩ }
    let clip := [(1 / 2 : ℚ)].map fun s => (Audio.toI16 s : ℚ) / 2 ^ 15
    let transcript := ((listening clip).text, (listening clip).positions,
      Audio.f32.div (Audio.f32.ofInt [(1 / 2 : ℚ)].length) (Audio.f32.ofInt (16000 % 2 ^ 32 : Nat)))
    awaitTranscription (reads stream (published s.bus) none) = .ok transcript ∧
      ∀ result, awaitTranscription (reads stream ((published s.bus).drop 1) none) = .ok result →
        result = transcript := by
  have ran : (follow (Speaking.exec (transcriptionWorker Audio.f32 unbase64 sound) 3 clipOf) twoClips
      (.start (transcriptionWorker Audio.f32 unbase64 sound) (.new 16000 4 "w"))).any (fun s =>
        about ⟨"a"⟩ s.bus = [⟨0, .started "w" 0⟩, ⟨1, .transcribed "heard 1 samples" 0 (Binary32.round (1 / 16000))⟩] ∧
        .delivered ⟨"a"⟩ "a" ∈ s.main.log ∧ .cancelled ⟨"a"⟩ ∉ s.main.log ∧ .acked ⟨"a"⟩ "a" ∈ s.main.log) = true := by
    decide +kernel
  obtain ⟨s, reached, facts⟩ := (Option.any_eq_true _ _).mp ran
  obtain ⟨bus, came, uncancelled, acked⟩ := of_decide_eq_true facts
  have codec : ∀ bytes, unbase64 (tobase64 bytes) = some bytes := fun bytes => by
    simp [unbase64, tobase64, Base64.decode_encode]
  have hears : ∀ transcribe, .turn transcribe ∈ twoClips → HearsAs listening transcribe := by
    intro transcribe mem samples
    simp only [twoClips, List.mem_cons, reduceCtorEq, Label.turn.injEq, List.not_mem_nil, false_or, or_false] at mem
    rcases mem with rfl | rfl
    · exact .inl rfl
    · exact .inr ⟨_, rfl⟩
  have carries : sound ⟨"a"⟩ = some (audioClip tobase64 16000 [1 / 2]) := by decide +kernel
  have came : .delivered first.requestId "a" ∈ s.main.log := came
  have whole := transcript_delivered codec (follow_iff.mp reached) (by decide +kernel) hears came rfl uncancelled rfl
    carries (by simp) (List.Sublist.refl _) none
  have part := transcript_delivered codec (follow_iff.mp reached) (by decide +kernel) hears came rfl uncancelled rfl
    carries (by simp) (List.drop_sublist 1 (published s.bus)) none
  refine ⟨s, (whole.2.2 "a" acked rfl).resolve_right ?_, part.1⟩
  rintro ⟨message, failed, -⟩
  change about ⟨"a"⟩ s.bus = [⟨0, .failed message⟩] at failed
  rw [bus] at failed
  cases failed

end Example

end Vapi.Gateway
