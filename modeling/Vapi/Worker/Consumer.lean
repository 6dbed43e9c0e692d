import Vapi.Proto.Subjects
import Vapi.Worker.Select

/-!
# Queues of a deployment

`vapi-worker/src/consumer.rs`: the durable consumers that the workers share,
against the subjects that the gateway publishes on.
-/

namespace Vapi.Worker

open Proto Subjects Subject

/-- What a worker is told of its queues. -/
structure WorkerConfig where
  partitions : List UInt32 := []
  ackWaitSecs : Nat := 30
  maxConcurrentSeqs : Nat := 64

/-- Repeats that stand side by side go. -/
def dedup : List UInt32 → List UInt32
  | [] => []
  | [a] => [a]
  | a :: b :: rest => if a = b then dedup (b :: rest) else a :: dedup (b :: rest)

/-- The partitions this worker consumes, of so many. -/
def WorkerConfig.ownedPartitions (worker : WorkerConfig) (total : UInt32) : List UInt32 :=
  let total := max total 1
  if worker.partitions = [] then (List.range total.toNat).map UInt32.ofNat
  else dedup ((worker.partitions.filter (· < total)).mergeSort (· ≤ ·))

structure Consumer where
  durableName : String
  filterSubject : String
  ackWait : Nat
  maxDeliver : Nat
  maxAckPending : Nat

def ensurePartitionConsumer (worker : WorkerConfig) (model : ModelId) (partition : Option UInt32) : Consumer :=
  let (name, subject) := match partition with
    | none => (consumerName model, jobs model)
    | some p => (consumerName model ++ "-p" ++ toString p.toNat, jobsPartition model p)
  { durableName := name
    filterSubject := subject
    ackWait := worker.ackWaitSecs
    maxDeliver := 3
    maxAckPending := worker.maxConcurrentSeqs }

/-- One consumer for each partition this worker serves, or why it does not start. -/
def ensureConsumers (worker : WorkerConfig) (jobPartitions : UInt32) (model : ModelId) :
    Except String (List (UInt32 × Consumer)) :=
  let partitions := max jobPartitions 1
  if partitions = 1 then .ok [(0, ensurePartitionConsumer worker model none)]
  else
    let owned := worker.ownedPartitions partitions
    if owned = [] then
      .error ("worker.partitions selects nothing out of " ++ toString partitions.toNat ++ " partitions")
    else .ok (owned.map fun p => (p, ensurePartitionConsumer worker model (some p)))

theorem mem_dedup {p : UInt32} {ps : List UInt32} : p ∈ dedup ps ↔ p ∈ ps := by
  induction ps using dedup.induct with
  | case1 => rfl
  | case2 a => rfl
  | case3 b rest ih => simp [dedup, ih]
  | case4 a b rest apart ih => simp [dedup, apart, ih]

theorem max_one (n : UInt32) : max n 1 = if n ≤ 1 then 1 else n := rfl

/-- A worker that lists no partitions has all there are, and one that lists some has those of them that exist. -/
theorem WorkerConfig.mem_ownedPartitions {worker : WorkerConfig} {total p : UInt32} (many : 1 < total) :
    p ∈ worker.ownedPartitions total ↔ p < total ∧ (worker.partitions = [] ∨ p ∈ worker.partitions) := by
  have more : max total 1 = total := by rw [max_one, if_neg (UInt32.not_le.mpr many)]
  unfold ownedPartitions
  rw [more]
  by_cases none : worker.partitions = []
  · simp only [none, if_true, List.mem_map, List.mem_range, true_or, and_true]
    constructor
    · rintro ⟨n, small, rfl⟩
      rw [UInt32.lt_iff_toNat_lt, UInt32.toNat_ofNat_of_lt' (small.trans total.toNat_lt)]
      exact small
    · intro small
      exact ⟨p.toNat, UInt32.lt_iff_toNat_lt.mp small, UInt32.ofNat_toNat⟩
  · simp [none, mem_dedup, List.mem_mergeSort, and_comm]

/-- The partitions that a worker has a consumer for. -/
def WorkerConfig.serves (worker : WorkerConfig) (jobPartitions : UInt32) : List UInt32 :=
  if jobPartitions ≤ 1 then [0] else worker.ownedPartitions jobPartitions

/-- The queue of a partition, whoever makes it. -/
def durableName (jobPartitions : UInt32) (model : ModelId) (p : UInt32) : String :=
  if jobPartitions ≤ 1 then consumerName model else consumerName model ++ "-p" ++ toString p.toNat

/-- What a worker makes of the queue of a partition. -/
def queueConsumer (worker : WorkerConfig) (jobPartitions : UInt32) (model : ModelId) (p : UInt32) : Consumer where
  durableName := durableName jobPartitions model p
  filterSubject := queueOf jobPartitions model p
  ackWait := worker.ackWaitSecs
  maxDeliver := 3
  maxAckPending := worker.maxConcurrentSeqs

/-- A worker starts on its partitions, or has none. -/
theorem ensureConsumers_eq (worker : WorkerConfig) (jobPartitions : UInt32) (model : ModelId) :
    (worker.serves jobPartitions = [] ∧ ∃ message, ensureConsumers worker jobPartitions model = .error message) ∨
    ensureConsumers worker jobPartitions model =
      .ok ((worker.serves jobPartitions).map fun p => (p, queueConsumer worker jobPartitions model p)) := by
  unfold ensureConsumers WorkerConfig.serves queueConsumer durableName queueOf
  by_cases one : jobPartitions ≤ 1
  · have is : max jobPartitions 1 = 1 := by rw [max_one, if_pos one]
    simp [is, one, ensurePartitionConsumer]
  · have is : max jobPartitions 1 = jobPartitions := by rw [max_one, if_neg one]
    have apart : jobPartitions ≠ 1 := fun same => one (same ▸ UInt32.le_refl _)
    by_cases none : worker.ownedPartitions jobPartitions = [] <;>
      simp [is, apart, one, none, ensurePartitionConsumer]

/-- The consumers of all workers that start. -/
def consumers (jobPartitions : UInt32) (fleet : List (WorkerConfig × ModelId)) : List (UInt32 × Consumer) :=
  fleet.flatMap fun w =>
    match ensureConsumers w.1 jobPartitions w.2 with
    | .ok made => made
    | .error _ => []

theorem consumers_made {jobPartitions : UInt32} {fleet : List (WorkerConfig × ModelId)} {x : UInt32 × Consumer}
    (mem : x ∈ consumers jobPartitions fleet) : ∃ w ∈ fleet, x.1 ∈ w.1.serves jobPartitions ∧
      x.2.durableName = durableName jobPartitions w.2 x.1 ∧ x.2.filterSubject = queueOf jobPartitions w.2 x.1 := by
  obtain ⟨w, there, mem⟩ := List.mem_flatMap.mp mem
  refine ⟨w, there, ?_⟩
  rcases ensureConsumers_eq w.1 jobPartitions w.2 with ⟨-, message, is⟩ | is
  · rw [is] at mem
    cases mem
  · rw [is] at mem
    obtain ⟨p, served, rfl⟩ := List.mem_map.mp mem
    exact ⟨served, rfl, rfl⟩

theorem consumers_make {jobPartitions : UInt32} {fleet : List (WorkerConfig × ModelId)} {w : WorkerConfig × ModelId}
    (there : w ∈ fleet) {p : UInt32} (served : p ∈ w.1.serves jobPartitions) :
    ∃ x ∈ consumers jobPartitions fleet, x.2.filterSubject = queueOf jobPartitions w.2 p := by
  rcases ensureConsumers_eq w.1 jobPartitions w.2 with ⟨none, -⟩ | is
  · rw [none] at served
    cases served
  · refine ⟨(p, queueConsumer w.1 jobPartitions w.2 p), List.mem_flatMap.mpr ⟨w, there, ?_⟩, rfl⟩
    rw [is]
    exact List.mem_map.mpr ⟨p, served, rfl⟩

/-- The queue of a partition, letter by letter. -/
theorem durableName_partition {jobPartitions : UInt32} (many : ¬jobPartitions ≤ 1) (model : ModelId) (p : UInt32) :
    durableName jobPartitions model p = "vapi-workers-" ++ (model.subjectToken ++ "-p" ++ toString p.toNat) := by
  simp [durableName, many, consumerName, String.append_assoc]

theorem queueOf_partition {jobPartitions : UInt32} (many : ¬jobPartitions ≤ 1) (model : ModelId) (p : UInt32) :
    queueOf jobPartitions model p = "vapi.jobs." ++ (model.subjectToken ++ ".p" ++ toString p.toNat) := by
  simp [queueOf, many, jobsPartition, String.append_assoc]

theorem durableName_shared {jobPartitions : UInt32} (one : jobPartitions ≤ 1) (model : ModelId) (p : UInt32) :
    durableName jobPartitions model p = "vapi-workers-" ++ model.subjectToken := by
  simp [durableName, one, consumerName]

theorem queueOf_shared {jobPartitions : UInt32} (one : jobPartitions ≤ 1) (model : ModelId) (p : UInt32) :
    queueOf jobPartitions model p = "vapi.jobs." ++ model.subjectToken := by
  simp [queueOf, one, jobs]

/-- What stands before the number, and the number. -/
theorem numbered_inj {a b : String} {m n : Nat} {c d : Char} :
    a ++ String.ofList [c, 'p'] ++ toString m = b ++ String.ofList [d, 'p'] ++ toString n ↔ a = b ∧ c = d ∧ m = n := by
  constructor
  · intro same
    have lists := congrArg String.toList same
    simp only [String.toList_append, Nat.toString_eq_repr, Nat.toList_repr, String.toList_ofList] at lists
    have free : ∀ n, 'p' ∉ Nat.toDigits 10 n := fun n mem => absurd (digit_of_mem mem) (by decide)
    have halves : a.toList ++ [c] = b.toList ++ [d] ∧ Nat.toDigits 10 m = Nat.toDigits 10 n :=
      split_at_last (free m) (free n) (by simpa using lists)
    obtain ⟨front, mark⟩ := List.append_inj' halves.1 rfl
    have digits := congrArg (Nat.ofDigitChars 10 · 0) halves.2
    simp only [Nat.ofDigitChars_ten_toDigits] at digits
    exact ⟨String.toList_inj.mp front, (List.cons.inj mark).1, digits⟩
  · rintro ⟨rfl, rfl, rfl⟩
    rfl

theorem dash_inj {a b : String} {m n : Nat} : a ++ "-p" ++ toString m = b ++ "-p" ++ toString n ↔ a = b ∧ m = n :=
  (numbered_inj (c := '-') (d := '-')).trans (by simp)

theorem dot_inj {a b : String} {m n : Nat} : a ++ ".p" ++ toString m = b ++ ".p" ++ toString n ↔ a = b ∧ m = n :=
  (numbered_inj (c := '.') (d := '.')).trans (by simp)

theorem dot_ne_dash {a b : String} {m n : Nat} : a ++ ".p" ++ toString m ≠ b ++ "-p" ++ toString n := fun same =>
  absurd ((numbered_inj (c := '.') (d := '-')).mp same).2.1 (by decide)

theorem durableName_inj {jobPartitions : UInt32} {model model' : ModelId} {p p' : UInt32} :
    durableName jobPartitions model p = durableName jobPartitions model' p' ↔
      model.subjectToken = model'.subjectToken ∧ (jobPartitions ≤ 1 ∨ p = p') := by
  by_cases one : jobPartitions ≤ 1
  · rw [durableName_shared one, durableName_shared one, String.append_right_inj]
    simp [one]
  · rw [durableName_partition one, durableName_partition one, String.append_right_inj, dash_inj, UInt32.toNat_inj]
    simp [one]

/-- The partition of a prompt is served by the workers that list it, or none, where there are several. -/
theorem serves_partitionFor {worker : WorkerConfig} {jobPartitions : UInt32} {promptTokens : List Token} {size : Nat} :
    partitionFor promptTokens size jobPartitions ∈ worker.serves jobPartitions ↔
      jobPartitions ≤ 1 ∨ worker.partitions = [] ∨
        partitionFor promptTokens size jobPartitions ∈ worker.partitions := by
  unfold WorkerConfig.serves
  by_cases one : jobPartitions ≤ 1
  · simp [one, partitionFor]
  · have many : 1 < jobPartitions := UInt32.not_le.mp one
    simp [one, WorkerConfig.mem_ownedPartitions many, partitionFor_lt many]

/-- In a deployment of any workers for any models, with one number of partitions, a job is in the stream of jobs and
goes to one queue: the durable consumers that take its subject are those of one name, which take no other subject, and
there is one when a worker of a model of the same token starts with the job's partition. The later turns of a
conversation go where the first went once the first fills a block. -/
theorem job_routed (fleet : List (WorkerConfig × ModelId)) (jobPartitions : UInt32) (model : ModelId)
    (promptTokens : List Token) (size : Nat) :
    let subject := jobsFor model promptTokens size jobPartitions
    let partition := partitionFor promptTokens size jobPartitions
    let queue := durableName jobPartitions model partition
    captures jobsWildcard subject = true ∧
      (∀ x ∈ consumers jobPartitions fleet,
        (captures x.2.filterSubject subject = true ↔ x.2.durableName = queue) ∧
          (x.2.durableName = queue → x.2.filterSubject = subject)) ∧
      ((∃ x ∈ consumers jobPartitions fleet, captures x.2.filterSubject subject = true) ↔
        ∃ w ∈ fleet, w.2.subjectToken = model.subjectToken ∧
          (jobPartitions ≤ 1 ∨ w.1.partitions = [] ∨ partition ∈ w.1.partitions)) ∧
      ∀ later, promptTokens <+: later → size ≤ promptTokens.length →
        jobsFor model later size jobPartitions = subject := by
  intro subject partition queue
  have sent : subject = queueOf jobPartitions model partition := jobsFor_eq _ _ _ _
  have takes : ∀ model' p, captures (queueOf jobPartitions model' p) subject = true ↔
      model'.subjectToken = model.subjectToken ∧ (jobPartitions ≤ 1 ∨ p = partition) := by
    intro model' p
    rw [sent, captures_plain (queueOf_plain _ _ _), tokens_queueOf_inj]
  refine ⟨sent ▸ captures_queueOf _ _ _, fun x mem => ?_, ⟨?_, ?_⟩, fun later begins fills => ?_⟩
  · obtain ⟨w, -, -, name, filter⟩ := consumers_made mem
    rw [name, filter, takes, durableName_inj]
    refine ⟨Iff.rfl, fun ⟨token, part⟩ => ?_⟩
    rw [sent]
    unfold queueOf jobs jobsPartition
    by_cases one : jobPartitions ≤ 1
    · simp [one, token]
    · simp [one, token, part.resolve_left one]
  · rintro ⟨x, mem, taken⟩
    obtain ⟨w, there, served, -, filter⟩ := consumers_made mem
    rw [filter, takes] at taken
    obtain ⟨token, one | same⟩ := taken
    · exact ⟨w, there, token, .inl one⟩
    · rw [same] at served
      exact ⟨w, there, token, serves_partitionFor.mp served⟩
  · rintro ⟨w, there, token, owns⟩
    obtain ⟨x, mem, filter⟩ := consumers_make there (serves_partitionFor.mpr owns)
    refine ⟨x, mem, ?_⟩
    rw [filter, takes]
    exact ⟨token, .inr rfl⟩
  · obtain ⟨more, rfl⟩ := begins
    change jobsFor _ _ _ _ = jobsFor _ _ _ _
    unfold jobsFor partitionFor
    rw [List.take_append_of_le_length fills]

theorem undotted {model : ModelId} {a : String} {n : Nat} : model.subjectToken ≠ a ++ ".p" ++ toString n := fun same =>
  model.subjectToken_whole (by rw [same]; simp)

/-- A subject of a model, and one of a partition of another whose name goes on where the first has a dash. -/
def Collide (x y : String) : Prop :=
  ∃ (token : String) (n : Nat), x = "vapi.jobs." ++ (token ++ "-p" ++ toString n) ∧
    y = "vapi.jobs." ++ (token ++ ".p" ++ toString n)

theorem names_shared {n n' : UInt32} {model model' : ModelId} {p p' : UInt32} :
    durableName n model p = durableName n' model' p' ↔ queueOf n model p = queueOf n' model' p' ∨
      Collide (queueOf n model p) (queueOf n' model' p') ∨ Collide (queueOf n' model' p') (queueOf n model p) := by
  have cut : ∀ {s t : String}, "vapi.jobs." ++ s = "vapi.jobs." ++ t → s = t := (String.append_right_inj _).mp
  by_cases one : n ≤ 1 <;> by_cases one' : n' ≤ 1
  · rw [durableName_shared one, durableName_shared one', queueOf_shared one, queueOf_shared one',
      String.append_right_inj]
    constructor
    · exact fun same => .inl (congrArg _ same)
    · rintro (same | ⟨a, k, -, is⟩ | ⟨a, k, -, is⟩)
      · exact cut same
      · exact absurd (cut is) undotted
      · exact absurd (cut is) undotted
  · rw [durableName_shared one, durableName_partition one', queueOf_shared one, queueOf_partition one',
      String.append_right_inj]
    constructor
    · exact fun same => .inr (.inl ⟨_, _, congrArg _ same, rfl⟩)
    · rintro (same | ⟨a, k, is, is'⟩ | ⟨a, k, is, -⟩)
      · exact absurd (cut same) undotted
      · obtain ⟨rfl, rfl⟩ := dot_inj.mp (cut is')
        exact cut is
      · exact absurd (cut is) dot_ne_dash
  · rw [durableName_partition one, durableName_shared one', queueOf_partition one, queueOf_shared one',
      String.append_right_inj]
    constructor
    · exact fun same => .inr (.inr ⟨_, _, congrArg _ same.symm, rfl⟩)
    · rintro (same | ⟨a, k, is, -⟩ | ⟨a, k, is, is'⟩)
      · exact absurd (cut same).symm undotted
      · exact absurd (cut is) dot_ne_dash
      · obtain ⟨rfl, rfl⟩ := dot_inj.mp (cut is')
        exact (cut is).symm
  · rw [durableName_partition one, durableName_partition one', queueOf_partition one, queueOf_partition one',
      String.append_right_inj, dash_inj]
    constructor
    · rintro ⟨token, number⟩
      exact .inl (by rw [token, number])
    · rintro (same | ⟨a, k, is, -⟩ | ⟨a, k, is, -⟩)
      · exact dot_inj.mp (cut same)
      · exact absurd (cut is) dot_ne_dash
      · exact absurd (cut is) dot_ne_dash

/-- Deployments of any numbers of partitions over one stream: the consumers of two workers have one name if and only if
they take one subject, or one takes a model's own queue and the other a partition of a model whose name the first's
goes on from with a dash. -/
theorem queues_shared (fleet fleet' : List (WorkerConfig × ModelId)) (n n' : UInt32) :
    ∀ x ∈ consumers n fleet, ∀ y ∈ consumers n' fleet',
      (x.2.durableName = y.2.durableName ↔ x.2.filterSubject = y.2.filterSubject ∨
        Collide x.2.filterSubject y.2.filterSubject ∨ Collide y.2.filterSubject x.2.filterSubject) := by
  intro x mem y mem'
  obtain ⟨w, -, -, name, filter⟩ := consumers_made mem
  obtain ⟨w', -, -, name', filter'⟩ := consumers_made mem'
  rw [name, name', filter, filter']
  exact names_shared

theorem queues_shared_dash :
    ∃ x ∈ consumers 1 [({}, ⟨"qwen-p3"⟩)], ∃ y ∈ consumers 8 [({ partitions := [3] }, ⟨"qwen"⟩)],
      x.2.durableName = y.2.durableName ∧ x.2.filterSubject ≠ y.2.filterSubject := by
  have whole : (⟨"qwen-p3"⟩ : ModelId).subjectToken = "qwen-p3" := by decide
  have token : (⟨"qwen"⟩ : ModelId).subjectToken = "qwen" := by decide
  have shared : 0 ∈ ({} : WorkerConfig).serves 1 := by decide
  have third : 3 ∈ ({ partitions := [3] } : WorkerConfig).serves 8 := by
    rw [WorkerConfig.serves, if_neg (by decide), WorkerConfig.mem_ownedPartitions (by decide)]
    decide
  obtain ⟨x, mem, filter⟩ :=
    consumers_make (List.mem_singleton_self (({} : WorkerConfig), ModelId.mk "qwen-p3")) shared
  obtain ⟨y, mem', filter'⟩ :=
    consumers_make (List.mem_singleton_self (({ partitions := [3] } : WorkerConfig), ModelId.mk "qwen")) third
  rw [queueOf_shared (by decide), whole] at filter
  rw [queueOf_partition (by decide), token] at filter'
  refine ⟨x, mem, y, mem', (queues_shared _ _ 1 8 x mem y mem').mpr (.inr (.inl ⟨"qwen", 3, ?_, filter'⟩)), ?_⟩
  · rw [filter]
    decide
  · rw [filter, filter']
    decide

end Vapi.Worker
