import Vapi.Audio.Wire
import Vapi.Worker.Published

/-!
# The transcription engine

`vapi-worker/src/transcribe.rs`: a clip a step, in the order the clips came.
The audio of a job is found by its request, what decodes base64 and what counts
in 32-bit floats are parameters.
-/

namespace Vapi

/-- Audio as a job carries it: 16-bit PCM in base64. -/
structure Proto.AudioClip where
  sampleRate : Nat
  pcm : String
  deriving DecidableEq

namespace Worker

open Proto Transition

structure Transcript where
  text : String
  /-- Decoder positions the audio occupied. -/
  positions : Nat

structure TranscriptionEngine.Pending where
  requestId : RequestId
  samples : List ℚ
  seconds : ℚ

structure TranscriptionEngine where
  /-- The rate the model's frontend expects. -/
  sampleRate : Nat
  queue : List TranscriptionEngine.Pending := []
  deltaSeq : Numbering := fun _ => none
  maxQueued : Nat
  workerId : String

abbrev Transcribe := List ℚ → Except Error Transcript

namespace TranscriptionEngine

def new (sampleRate maxQueued : Nat) (workerId : String) : TranscriptionEngine :=
  { sampleRate, maxQueued := max maxQueued 1, workerId }

section Intake

variable (k : Audio.F32 ℚ) (base64Decode : String → Option (List UInt8)) (audio : RequestId → Option AudioClip)

/-- A job that an engine of this rate takes up, or why it does not. -/
def read (sampleRate : Nat) (job : Job) : Except Error Pending :=
  if job.kind ≠ .transcription then
    .error (.invalidRequest ("this worker transcribes audio; it was handed a " ++ job.kind.debug ++ " job"))
  else match audio job.requestId with
    | none => .error (.invalidRequest "transcription job carries no audio")
    | some clip =>
      match base64Decode clip.pcm with
      | none => .error (.invalidRequest "audio is not valid base64")
      | some pcm =>
        let samples := Audio.fromI16Le k pcm
        let want := sampleRate % 2 ^ 32
        if samples.isEmpty then .error (.invalidRequest "audio is empty")
        -- the gateway resamples: another rate means that the two disagree about the model
        else if clip.sampleRate ≠ want then
          .error (.invalidRequest
            ("audio is " ++ toString clip.sampleRate ++ " Hz; this model wants " ++ toString want ++ " Hz"))
        else .ok { requestId := job.requestId, samples, seconds := k.div (k.ofInt samples.length) (k.ofInt want) }

def admitJob (e : TranscriptionEngine) (job : Job) : Except Error TranscriptionEngine := do
  let pending ← read k base64Decode audio e.sampleRate job
  return { e with queue := e.queue ++ [pending] }

end Intake

def cancel (e : TranscriptionEngine) (requestId : RequestId) : TranscriptionEngine × Bool :=
  let queue := e.queue.filter (·.requestId ≠ requestId)
  ({ e with queue }, e.queue.length ≠ queue.length)

def failAll (e : TranscriptionEngine) (message : String) : TranscriptionEngine × StepOutput :=
  let events := e.queue.map fun p => (p.requestId, Delta.failed message)
  ({ e with queue := [] }, { events, completed := e.queue.map (·.requestId), didWork := !events.isEmpty })

def isIdle (e : TranscriptionEngine) : Bool := e.queue.isEmpty

def headroom (e : TranscriptionEngine) : Nat := e.maxQueued - e.queue.length

/-- One clip. -/
def step (e : TranscriptionEngine) (transcribe : Transcribe) : TranscriptionEngine × Except Error StepOutput :=
  match e.queue with
  | [] => (e, .ok {})
  | pending :: rest =>
    match transcribe pending.samples with
    -- it is put back: what is not in the queue would not be failed with the others
    | .error err => ({ e with queue := pending :: rest }, .error err)
    | .ok transcript =>
      ({ e with queue := rest }, .ok {
        events := [(pending.requestId, .started e.workerId 0),
          (pending.requestId, .transcribed transcript.text transcript.positions pending.seconds)]
        completed := [pending.requestId]
        didWork := true })

def sequence (e : TranscriptionEngine) (rid : RequestId) (delta : Delta) : TranscriptionEngine × DeltaMsg :=
  let next := e.deltaSeq.sequence rid delta
  ({ e with deltaSeq := next.1 }, next.2)

def forget (e : TranscriptionEngine) (rid : RequestId) : TranscriptionEngine :=
    { e with deltaSeq := e.deltaSeq.forget rid }

def ids (e : TranscriptionEngine) : List RequestId := e.queue.map (·.requestId)

/-- How many messages a request has had. -/
def counted (e : TranscriptionEngine) (rid : RequestId) : Nat := ((e.deltaSeq rid).getD {}).value

end TranscriptionEngine

def transcriptionWorker (k : Audio.F32 ℚ) (base64Decode : String → Option (List UInt8))
    (audio : RequestId → Option AudioClip) : WorkerEngine TranscriptionEngine Transcribe where
  admitJob e job :=
    match e.admitJob k base64Decode audio job with
    | .ok next => (next, none)
    | .error err => (e, some err)
  cancel e rid := e.cancel rid
  failAll e message := e.failAll message
  step e transcribe := e.step transcribe
  isIdle e := e.isIdle
  headroom e := e.headroom
  sequence e rid delta := e.sequence rid delta
  forget e rid := e.forget rid

namespace TranscriptionEngine

variable (k : Audio.F32 ℚ) (base64Decode : String → Option (List UInt8)) (audio : RequestId → Option AudioClip)
  (sampleRate : Nat) (workerId : String) (heard : List ℚ → Transcript)

/-- An engine of this rate and name, whose queue has a request once. -/
structure Stands (e : TranscriptionEngine) : Prop where
  distinct : e.ids.Nodup
  rate : e.sampleRate = sampleRate
  name : e.workerId = workerId

def InQueue (e : TranscriptionEngine) (rid : RequestId) : Prop := rid ∈ e.ids

/-- The job is in the queue, and nothing has been said of it. -/
def Awaits (e : TranscriptionEngine) (job : Job) (ds : List Delta) : Prop :=
  ds = [] ∧ ∃ pending ∈ e.queue, read k base64Decode audio sampleRate job = .ok pending

/-- All that is said of a job. -/
inductive Answered (job : Job) : List Delta → Prop
  | refused {err : Error} (why : read k base64Decode audio sampleRate job = .error err) :
    Answered job [.failed err.display]
  | failed {pending : Pending} (taken : read k base64Decode audio sampleRate job = .ok pending) (message : String) :
    Answered job [.failed message]
  | transcribed {pending : Pending} (taken : read k base64Decode audio sampleRate job = .ok pending) :
    Answered job [.started workerId 0,
      .transcribed (heard pending.samples).text (heard pending.samples).positions pending.seconds]

/-- A device that hears a clip as the model does, or fails. -/
def HearsAs (transcribe : Transcribe) : Prop :=
  ∀ samples, transcribe samples = .ok (heard samples) ∨ ∃ err, transcribe samples = .error err

variable {k base64Decode audio sampleRate workerId heard} {e e' : TranscriptionEngine} {job : Job}

theorem read_requestId {pending : Pending} (ok : read k base64Decode audio sampleRate job = .ok pending) :
    pending.requestId = job.requestId := by
  unfold read at ok
  split at ok
  · cases ok
  · split at ok
    · cases ok
    · split at ok
      · cases ok
      · dsimp only at ok
        split at ok
        · cases ok
        · split at ok
          · cases ok
          · rw [← Except.ok.inj ok]

/-- What a queue loses is completed. -/
theorem Stands.moves (stands : Stands sampleRate workerId e) {completed : List RequestId}
    (perm : e.ids.Perm (e'.ids ++ completed)) (rate : e'.sampleRate = e.sampleRate) (name : e'.workerId = e.workerId) :
    Moves (Stands sampleRate workerId) InQueue InQueue Nobody Nobody e e' completed := by
  obtain ⟨left, -, apart⟩ := List.nodup_append.mp (perm.nodup_iff.mp stands.distinct)
  refine ⟨⟨left, rate.trans stands.rate, name.trans stands.name⟩, ?_, ?_, ?_, ?_⟩
  · exact fun rid mem => .inl (perm.mem_iff.mpr (List.mem_append_left _ mem))
  · intro rid mem
    exact (List.mem_append.mp (perm.mem_iff.mp (mem.resolve_right id))).imp_right .inl
  · intro rid mem
    exact ⟨fun here => apart rid here rid mem rfl, .inl (perm.mem_iff.mpr (List.mem_append_right _ mem))⟩
  · exact fun rid mem => ⟨.inl (perm.mem_iff.mpr (List.mem_append_left _ mem)), id⟩

/-- What a step can do. -/
theorem step_cases (e : TranscriptionEngine) (transcribe : Transcribe) :
    (e.queue = [] ∧ e.step transcribe = (e, .ok {})) ∨
    (∃ err, e.step transcribe = (e, .error err)) ∨
    ∃ pending rest transcript, e.queue = pending :: rest ∧ transcribe pending.samples = .ok transcript ∧
      e.step transcribe = ({ e with queue := rest }, .ok {
        events := [(pending.requestId, .started e.workerId 0),
          (pending.requestId, .transcribed transcript.text transcript.positions pending.seconds)]
        completed := [pending.requestId]
        didWork := true }) := by
  obtain ⟨_, queue, _, _, _⟩ := e
  cases queue with
  | nil => exact .inl ⟨rfl, rfl⟩
  | cons pending rest =>
    cases answer : transcribe pending.samples with
    | error err => exact .inr (.inl ⟨err, by simp [step, answer]⟩)
    | ok transcript => exact .inr (.inr ⟨pending, rest, transcript, rfl, answer, by simp [step, answer]⟩)

variable (k base64Decode audio) in
theorem admitted (e : TranscriptionEngine) (job : Job) :
    (∃ pending, read k base64Decode audio e.sampleRate job = .ok pending ∧
      (transcriptionWorker k base64Decode audio).admitJob e job = ({ e with queue := e.queue ++ [pending] }, none)) ∨
    ∃ err, read k base64Decode audio e.sampleRate job = .error err ∧
      (transcriptionWorker k base64Decode audio).admitJob e job = (e, some err) := by
  cases took : read k base64Decode audio e.sampleRate job with
  | ok pending =>
    refine .inl ⟨pending, rfl, ?_⟩
    have ok : e.admitJob k base64Decode audio job = .ok { e with queue := e.queue ++ [pending] } := by
      rw [admitJob, took]
      rfl
    simp [transcriptionWorker, ok]
  | error err =>
    refine .inr ⟨err, rfl, ?_⟩
    have no : e.admitJob k base64Decode audio job = .error err := by
      rw [admitJob, took]
      rfl
    simp [transcriptionWorker, no]

theorem cancel_ids (e : TranscriptionEngine) (rid : RequestId) : (e.cancel rid).1.ids = e.ids.filter (· ≠ rid) := by
  rw [ids, ids, cancel, List.filter_map]
  rfl

theorem lawful : Lawful (transcriptionWorker k base64Decode audio) (Stands sampleRate workerId) InQueue InQueue where
  live _ _ _ := id
  idle e _ idle rid mem := by
    have empty : e.queue = [] := List.isEmpty_iff.mp idle
    rw [InQueue, ids, empty] at mem
    cases mem
  admitJob e job stands fresh ok := by
    rcases admitted k base64Decode audio e job with ⟨pending, took, is⟩ | ⟨err, -, is⟩
    · rw [is]
      have queue : ({ e with queue := e.queue ++ [pending] } : TranscriptionEngine).ids = e.ids ++ [job.requestId] := by
        simp [ids, read_requestId took]
      have held : ∀ rid, InQueue { e with queue := e.queue ++ [pending] } rid ↔ InQueue e rid ∨
        rid = job.requestId := by
        intro rid
        rw [InQueue, InQueue, queue, List.mem_append, List.mem_singleton]
      refine ⟨⟨?_, stands.rate, stands.name⟩, fun rid => (held rid).mp, fun rid is => .inl ((held rid).mpr is), by simp,
        fun rid is => ⟨(held rid).mp is, id⟩⟩
      rw [queue]
      exact List.nodup_append.mpr ⟨stands.distinct, List.nodup_singleton _, fun rid mem rid' mem' same =>
        fresh (List.mem_singleton.mp mem' ▸ same ▸ mem)⟩
    · rw [is] at ok
      cases ok
  refuse e job err stands fresh no := by
    rcases admitted k base64Decode audio e job with ⟨pending, -, is⟩ | ⟨err, -, is⟩
    · rw [is] at no
      cases no
    · rw [is]
      exact .stay stands
  cancel e rid stands := by
    have held : ∀ k, InQueue (e.cancel rid).1 k ↔ InQueue e k ∧ k ≠ rid := by
      intro k
      rw [InQueue, InQueue, cancel_ids, List.mem_filter, decide_eq_true_eq]
    refine ⟨⟨?_, stands.rate, stands.name⟩, fun k is => .inl ((held k).mp is).1, ?_, by simp,
      fun k is => ⟨.inl ((held k).mp is).1, ((held k).mp is).2⟩⟩
    · change (e.cancel rid).1.ids.Nodup
      rw [cancel_ids]
      exact stands.distinct.filter _
    · intro k is
      by_cases own : k = rid
      · exact .inr (.inr own)
      · exact .inl ((held k).mpr ⟨is.resolve_right id, own⟩)
  failAll e message stands := ⟨stands.moves (.refl _) rfl rfl, fun rid mem => by cases mem⟩
  step e transcribe out stands ok := by
    change (e.step transcribe).2 = _ at ok
    change Moves _ _ _ _ _ e (e.step transcribe).1 _
    rcases step_cases e transcribe with ⟨-, is⟩ | ⟨err, is⟩ | ⟨pending, rest, transcript, queue, -, is⟩
    · rw [is] at ok ⊢
      rw [← Except.ok.inj ok]
      exact .stay stands
    · rw [is] at ok
      cases ok
    · rw [is] at ok ⊢
      rw [← Except.ok.inj ok]
      refine stands.moves ?_ rfl rfl
      simp only [ids, queue, List.map_cons]
      exact (List.perm_append_singleton _ _).symm
  fails e transcribe err stands failed := by
    change (e.step transcribe).2 = _ at failed
    change Moves _ _ _ _ _ e (e.step transcribe).1 _
    rcases step_cases e transcribe with ⟨-, is⟩ | ⟨err, is⟩ | ⟨pending, rest, transcript, -, -, is⟩
    · rw [is] at failed
      cases failed
    · rw [is]
      exact .stay stands
    · rw [is] at failed
      cases failed
  sequence e rid delta stands := stands.moves ((List.append_nil _).symm ▸ .refl _) rfl rfl
  forget e rid stands := stands.moves ((List.append_nil _).symm ▸ .refl _) rfl rfl

theorem speaks : Speaks (transcriptionWorker k base64Decode audio) (Stands sampleRate workerId) InQueue counted
    (Awaits k base64Decode audio sampleRate) (Answered k base64Decode audio sampleRate workerId heard)
    (HearsAs heard) where
  held e job ds awaits := by
    obtain ⟨-, pending, mem, took⟩ := awaits
    exact read_requestId took ▸ List.mem_map_of_mem mem
  sequence e rid delta := by
    refine ⟨rfl, funext fun k => ?_, rfl⟩
    change (((Function.update e.deltaSeq rid _) k).getD {}).value = _
    by_cases same : k = rid
    · subst same
      simp [counted]
    · simp [counted, same]
  forget e rid := by
    refine ⟨funext fun k => ?_, rfl⟩
    change (((Function.update e.deltaSeq rid none) k).getD {}).value = _
    by_cases same : k = rid
    · subst same
      simp
    · simp [counted, same]
  admitJob e job stands fresh := by
    rcases admitted k base64Decode audio e job with ⟨pending, took, is⟩ | ⟨err, why, is⟩
    · rw [is]
      rw [stands.rate] at took
      refine ⟨rfl, ?_, fun _ => ⟨rfl, pending, by simp, took⟩, fun err no => by cases no⟩
      rintro job' ds ⟨nothing, pending', mem, took'⟩
      exact ⟨nothing, pending', List.mem_append_left _ mem, took'⟩
    · rw [is]
      rw [stands.rate] at why
      refine ⟨rfl, fun _ _ => id, nofun, fun err' same => ?_⟩
      rw [← Option.some.inj same]
      exact .refused why
  cancel e rid stands := by
    refine ⟨rfl, ?_⟩
    rintro job ds other ⟨nothing, pending, mem, took⟩
    refine ⟨nothing, pending, List.mem_filter.mpr ⟨mem, ?_⟩, took⟩
    rw [read_requestId took]
    exact decide_eq_true other
  failAll e message stands := by
    refine ⟨rfl, ⟨?_, ?_, ?_, ?_⟩⟩
    · rintro job ds ⟨-, pending, mem, took⟩ going
      exact absurd (read_requestId took ▸ List.mem_map_of_mem mem) going
    · rintro job ds ⟨rfl, pending, mem, took⟩ -
      have once : about job.requestId (e.queue.map fun p => (p.requestId, Delta.failed message)) =
        [.failed message] := by
        refine about_once ?_ (List.mem_map.mpr ⟨pending, mem, by rw [read_requestId took]⟩)
        rw [List.map_map]
        exact stands.distinct
      change Answered _ _ _ _ _ _ job ([] ++ about job.requestId (e.queue.map fun p =>
        (p.requestId, Delta.failed message)))
      rw [once]
      exact .failed took message
    · intro x mem
      obtain ⟨pending, there, rfl⟩ := List.mem_map.mp mem
      exact List.mem_map_of_mem there
    · intro x mem _
      obtain ⟨pending, there, rfl⟩ := List.mem_map.mp mem
      exact List.mem_map_of_mem there
  step e transcribe out stands hears ok := by
    change (e.step transcribe).2 = _ at ok
    change counted (e.step transcribe).1 = _ ∧ Tells _ _ _ e (e.step transcribe).1 _
    rcases step_cases e transcribe with ⟨-, is⟩ | ⟨err, is⟩ | ⟨pending, rest, transcript, queue, answer, is⟩
    · rw [is] at ok ⊢
      rw [← Except.ok.inj ok]
      exact ⟨rfl, ⟨fun job ds awaits _ => by simpa [about] using awaits, by simp, by simp, by simp⟩⟩
    · rw [is] at ok
      cases ok
    · rw [is] at ok ⊢
      rw [← Except.ok.inj ok]
      have first : InQueue e pending.requestId := by simp [InQueue, ids, queue]
      refine ⟨rfl, ⟨?_, ?_, by simp [first], by simp⟩⟩
      · rintro job ds ⟨nothing, pending', mem, took⟩ going
        have other : pending.requestId ≠ job.requestId := fun same => going (by simp [same])
        rw [queue] at mem
        have apart : pending' ≠ pending := fun same => other (same ▸ read_requestId took)
        refine ⟨by simp [about, other, nothing], pending', (List.mem_cons.mp mem).resolve_left apart, took⟩
      · rintro job ds ⟨rfl, pending', mem, took⟩ done
        have same : job.requestId = pending.requestId := List.mem_singleton.mp done
        have distinct := stands.distinct
        rw [ids, queue, List.map_cons, List.nodup_cons] at distinct
        rw [queue] at mem
        obtain rfl := (List.mem_cons.mp mem).resolve_right fun there =>
          distinct.1 (same ▸ read_requestId took ▸ List.mem_map_of_mem there)
        have told : about job.requestId [(pending'.requestId, Delta.started e.workerId 0),
            (pending'.requestId, .transcribed transcript.text transcript.positions pending'.seconds)] =
              [.started workerId 0, .transcribed transcript.text transcript.positions pending'.seconds] := by
          simp [about, same, stands.name]
        rw [List.nil_append, told]
        rcases hears pending'.samples with answers | ⟨err, failed⟩
        · rw [answers] at answer
          rw [← Except.ok.inj answer]
          exact .transcribed took
        · rw [failed] at answer
          cases answer
  fails e transcribe err stands failed := by
    change (e.step transcribe).2 = _ at failed
    change counted (e.step transcribe).1 = _ ∧ ∀ job ds, _ → Awaits _ _ _ _ (e.step transcribe).1 job ds
    rcases step_cases e transcribe with ⟨-, is⟩ | ⟨err, is⟩ | ⟨pending, rest, transcript, -, -, is⟩
    · rw [is] at failed
      cases failed
    · rw [is]
      exact ⟨rfl, fun _ _ => id⟩
    · rw [is] at failed
      cases failed

end TranscriptionEngine

end Worker

end Vapi
