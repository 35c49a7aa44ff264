import EloqStore.Foundation.AssocMap
import EloqStore.Foundation.Transition

/-!
# The cloud buffers of a shard

Every transfer between a shard and the object store goes through a buffer of
`direct_io_buffer_pool_`. `AcquireCloudBuffer` counts the buffers handed out and makes a task wait
while the count has reached the size of the pool; `ReleaseCloudBuffer` takes one off the count and
wakes the task that has waited longest, which then tests the count again.

A task may hold a buffer while it asks for another:

* a write task keeps its **upload buffer** from the first range it prepares until the file is
  uploaded, and in between opens and reads files, which may have to be downloaded;
* a download keeps its response while it opens the partition's directory, which may evict a
  descriptor of a file that has to be uploaded first.

So all buffers can be in the hands of tasks that wait for one more, which the default options allow
already. `CloudBuffers.sound_of_free` has the runs in which this cannot happen: those in which a
task that holds a buffer asks for another only while one is free. The waiting itself loses no
wake-up (`CloudBuffers.awake_of_runs`), whatever the tasks do.

The reload of a manifest without a tag takes its buffer from the pool without counting it.
-/

namespace EloqStore

open AssocMap List Option Transition

/-! ### Options -/

/-- The options of cloud mode that bound buffers and tasks, with their defaults. -/
structure CloudOptions where
  /-- The number of buffers that may be handed out; `0` is no bound. -/
  directIoBufferPoolSize : ℕ := 16
  /-- The number of requests to the object store in flight. -/
  maxCloudConcurrency : ℕ := 20
  maxWriteConcurrency : ℕ := 0
deriving DecidableEq, Repr

/-- What `ValidateOptions` makes of them in cloud mode. -/
def CloudOptions.validate (opts : CloudOptions) : Option CloudOptions :=
  if opts.maxCloudConcurrency = 0 then none
  else if opts.maxWriteConcurrency = 0 then
    some { opts with maxWriteConcurrency := opts.maxCloudConcurrency }
  else some opts

/-! ### Tasks -/

/-- What a buffer is used for outside the upload state of a write task. -/
inductive BufferUse
  /-- The response of `DownloadFile`. -/
  | download
  /-- The payload of `UploadFile`: without an owner from the start, with an owner that waits for the
  completion from the submission on. -/
  | upload
  /-- The response of `RefreshManifest` without a tag, which is not counted. -/
  | refresh
deriving DecidableEq, Repr

/-- Where the buffer a task asks for goes. -/
inductive BufferGoal
  | uploadState
  | download
  /-- Into an upload without an owner. -/
  | upload
deriving DecidableEq, Repr

/-- Where a task is, as far as the pool is concerned. -/
inductive BufferWait
  /-- It is not waiting for a buffer. -/
  | running
  | asleep (goal : BufferGoal)
  /-- It has been woken and will test the count again. -/
  | woken (goal : BufferGoal)
deriving DecidableEq, Repr

/-- A task of the shard. -/
structure CloudTask where
  write : Bool
  uploadState : Bool := false
  /-- The buffers it uses otherwise, the innermost call first. -/
  uses : List BufferUse := []
  /-- The upload requests it has submitted and not waited for; each has a buffer. -/
  inflightUploadTasks : ℕ := 0
  wait : BufferWait := .running
deriving DecidableEq, Repr

namespace CloudTask

variable (t : CloudTask)

/-- The buffers in the hands of the task. -/
def held : ℕ := t.uploadState.toNat + t.uses.length

/-- The buffers of the task and of its upload requests. -/
def outstanding : ℕ := t.held + t.inflightUploadTasks

def awake : ℕ :=
  match t.wait with
  | .woken _ => 1
  | _ => 0

/-- Put the buffer where it is wanted. -/
def take : BufferGoal → CloudTask
  | .uploadState => { t with uploadState := true, wait := .running }
  | .download => { t with uses := .download :: t.uses, wait := .running }
  | .upload => { t with uses := .upload :: t.uses, wait := .running }

/-- The buffer of the upload state goes to the upload request. -/
def submit : (waitForCompletion : Bool) → CloudTask
  | true => { t with uploadState := false, uses := .upload :: t.uses }
  | false => { t with uploadState := false, inflightUploadTasks := t.inflightUploadTasks + 1 }

def wake : CloudTask :=
  match t.wait with
  | .asleep goal => { t with wait := .woken goal }
  | _ => t

variable {t}

theorem outstanding_take {goal : BufferGoal} (h : goal = .uploadState → t.uploadState = false) :
    (t.take goal).outstanding = t.outstanding + 1 := by
  cases goal with
  | uploadState =>
    simp only [outstanding, held, take, h rfl, Bool.toNat_true, Bool.toNat_false]
    omega
  | download | upload =>
    simp only [outstanding, held, take, length_cons]
    omega

theorem outstanding_submit (h : t.uploadState = true) (waitForCompletion : Bool) :
    (t.submit waitForCompletion).outstanding = t.outstanding := by
  cases waitForCompletion with
  | false | true =>
    simp only [outstanding, held, submit, h, Bool.toNat_true, Bool.toNat_false, length_cons]
    omega

/-- A task that waits for a buffer holds none, and all its buffers are counted. -/
structure Ok (t : CloudTask) : Prop where
  idle : t.wait ≠ .running → t.held = 0
  /-- No manifest is being reloaded without a tag. -/
  counted : .refresh ∉ t.uses

theorem Ok.of_running (hwait : t.wait = .running) (hcounted : .refresh ∉ t.uses) : t.Ok :=
  ⟨absurd hwait, hcounted⟩

theorem Ok.take (h : t.Ok) (goal : BufferGoal) : (t.take goal).Ok := by
  cases goal with
  | uploadState => exact .of_running rfl h.counted
  | download | upload => exact .of_running rfl (not_mem_cons_of_ne_of_not_mem nofun h.counted)

theorem Ok.submit (h : t.Ok) (hwait : t.wait = .running) (waitForCompletion : Bool) :
    (t.submit waitForCompletion).Ok := by
  cases waitForCompletion with
  | false => exact .of_running hwait h.counted
  | true => exact .of_running hwait (not_mem_cons_of_ne_of_not_mem nofun h.counted)

@[simp] theorem outstanding_wake (t : CloudTask) : t.wake.outstanding = t.outstanding := by
  unfold wake
  split <;> rfl

theorem Ok.wake (h : t.Ok) : t.wake.Ok := by
  unfold CloudTask.wake
  split
  · next hwait => exact ⟨fun _ ↦ h.idle (hwait ▸ nofun), h.counted⟩
  · exact h

end CloudTask

/-! ### The shard -/

/-- The buffers and the tasks of a shard. -/
structure CloudBuffers where
  opts : CloudOptions
  /-- The number of buffers handed out, as counted. -/
  inflightCloudBuffers : ℕ := 0
  /-- The tasks in the waiting zone, the longest waiting first. -/
  cloudBufferWaiting : List ℕ := []
  tasks : AssocMap ℕ CloudTask := .empty

namespace CloudBuffers

variable (s : CloudBuffers)

/-- The condition under which `AcquireCloudBuffer` waits. -/
def Full : Prop :=
  s.opts.directIoBufferPoolSize ≠ 0 ∧ s.opts.directIoBufferPoolSize ≤ s.inflightCloudBuffers

instance : Decidable s.Full := inferInstanceAs (Decidable (_ ∧ _))

/-- One round of the loop of `AcquireCloudBuffer`: wait, or count a buffer and take it. -/
def acquireCloudBuffer (k : ℕ) (t : CloudTask) (goal : BufferGoal) : CloudBuffers :=
  if s.Full then
    { s with
      cloudBufferWaiting := s.cloudBufferWaiting ++ [k]
      tasks := s.tasks.set k { t with wait := .asleep goal } }
  else
    { s with
      inflightCloudBuffers := s.inflightCloudBuffers + 1
      tasks := s.tasks.set k (t.take goal) }

def ensureUploadStateBuffer (k : ℕ) (t : CloudTask) : CloudBuffers :=
  if t.uploadState then s else s.acquireCloudBuffer k t .uploadState

def wakeOne : CloudBuffers :=
  match s.cloudBufferWaiting with
  | [] => s
  | k :: ks =>
    { s with
      cloudBufferWaiting := ks
      tasks := match s.tasks.get? k with
        | none => s.tasks
        | some t => s.tasks.set k t.wake }

/-- `ReleaseCloudBuffer`, the task `k` having become `t` without the buffer. -/
def releaseCloudBuffer (k : ℕ) (t : CloudTask) : CloudBuffers :=
  { s with
    inflightCloudBuffers := s.inflightCloudBuffers - 1
    tasks := s.tasks.set k t : CloudBuffers }.wakeOne

/-- The number of active write tasks. -/
def numActiveWrite : ℕ := s.tasks.weight fun t ↦ if t.write then 1 else 0

/-- A task that is not waiting for a buffer. -/
def running? (k : ℕ) : Option CloudTask :=
  (s.tasks.get? k).filter fun t ↦ t.wait = .running

end CloudBuffers

/-! ### Events -/

/-- What happens in the shard. -/
inductive BufferEvent
  | newTask (k : ℕ) (write : Bool)
  /-- A task ends, having given back its buffers and waited for its uploads. -/
  | endTask (k : ℕ)
  /-- A write task prepares a range of a file it writes (`OnFileRangeWritePrepared`), or begins an
  upload it owns: both need the buffer of the upload state. -/
  | ensureUploadState (k : ℕ)
  | downloadFile (k : ℕ)
  /-- A task begins `UploadFile` without an owner. -/
  | uploadFile (k : ℕ)
  /-- A task begins `RefreshManifest` without a tag. -/
  | refreshManifest (k : ℕ)
  /-- A task that was woken tests the count again. -/
  | resume (k : ℕ)
  /-- A write task submits the upload it owns, and waits for it or not. -/
  | submit (k : ℕ) (waitForCompletion : Bool)
  /-- A write task gives up its upload state (`ResetUploadState`). -/
  | resetUploadState (k : ℕ)
  /-- An upload that was not waited for completes (`CompletePendingUploadTask`). -/
  | uploaded (k : ℕ)
  /-- The innermost download, upload or reload of a task ends, with or without an error. -/
  | finish (k : ℕ)
deriving DecidableEq, Repr

namespace BufferEvent

/-- What an event does; `none` if it cannot happen. -/
def run (s : CloudBuffers) : BufferEvent → Option CloudBuffers
  | .newTask k write =>
    if s.tasks.get? k = none ∧ (write = true → s.numActiveWrite < s.opts.maxWriteConcurrency) then
      some { s with tasks := s.tasks.set k { write } }
    else none
  | .endTask k =>
    ((s.running? k).filter fun t ↦ t.outstanding = 0).map fun _ ↦
      { s with tasks := s.tasks.erase k }
  | .ensureUploadState k =>
    ((s.running? k).filter (·.write)).map fun t ↦ s.ensureUploadStateBuffer k t
  | .downloadFile k => (s.running? k).map fun t ↦ s.acquireCloudBuffer k t .download
  | .uploadFile k => (s.running? k).map fun t ↦ s.acquireCloudBuffer k t .upload
  | .refreshManifest k =>
    -- `direct_io_buffer_pool_.Acquire()`, not `AcquireCloudBuffer`
    (s.running? k).map fun t ↦
      { s with tasks := s.tasks.set k { t with uses := .refresh :: t.uses } }
  | .resume k =>
    (s.tasks.get? k).bind fun t ↦
      match t.wait with
      | .woken goal => some (s.acquireCloudBuffer k t goal)
      | _ => none
  | .submit k waitForCompletion =>
    ((s.running? k).filter (·.uploadState)).map fun t ↦
      { s with tasks := s.tasks.set k (t.submit waitForCompletion) }
  | .resetUploadState k =>
    ((s.running? k).filter (·.uploadState)).map fun t ↦
      s.releaseCloudBuffer k { t with uploadState := false }
  | .uploaded k =>
    ((s.tasks.get? k).filter fun t ↦ 0 < t.inflightUploadTasks).map fun t ↦
      s.releaseCloudBuffer k { t with inflightUploadTasks := t.inflightUploadTasks - 1 }
  | .finish k =>
    (s.running? k).bind fun t ↦
      match t.uses with
      | [] => none
      -- `RecycleBuffer`, which does not count either
      | .refresh :: us => some { s with tasks := s.tasks.set k { t with uses := us } }
      | _ :: us => some (s.releaseCloudBuffer k { t with uses := us })

/-- **A task that holds a buffer asks for another only while one is free**, and no manifest is
reloaded without a tag. -/
def Free (s : CloudBuffers) : BufferEvent → Prop
  | .ensureUploadState k => ∀ t ∈ s.tasks.get? k, t.uploadState = false → 0 < t.held → ¬ s.Full
  | .downloadFile k | .uploadFile k => ∀ t ∈ s.tasks.get? k, 0 < t.held → ¬ s.Full
  | .refreshManifest _ => False
  | _ => True

instance (s : CloudBuffers) (e : BufferEvent) : Decidable (e.Free s) := by
  cases e <;> dsimp only [Free] <;> infer_instance

end BufferEvent

/-- The states a shard reaches under the options by events that meet the guard. -/
def BufferRuns (G : CloudBuffers → BufferEvent → Prop) (opts : CloudOptions) (s : CloudBuffers) :
    Prop :=
  Transition.Reach (fun s e t ↦ BufferEvent.run s e = some t) G { opts } s

namespace CloudBuffers

variable {s s' : CloudBuffers} {k : ℕ} {t t' : CloudTask} {goal : BufferGoal}

theorem running?_eq_some : s.running? k = some t ↔ s.tasks.get? k = some t ∧ t.wait = .running := by
  simp [running?, filter_eq_some_iff]

/-! ### The count and the holders -/

/-- **The count and the holders**: what `AcquireCloudBuffer` counts is what is out, and a task that
waits for a buffer holds none. -/
structure Ok (s : CloudBuffers) : Prop where
  /-- Every buffer that is out is counted once. -/
  count : s.inflightCloudBuffers = s.tasks.weight CloudTask.outstanding
  task : ∀ {k t}, s.tasks.get? k = some t → t.Ok

theorem Ok.setTask (h : s.Ok) (hk : s.tasks.get? k = some t) {n : ℕ} {zone : List ℕ}
    (ht' : t'.Ok) (hcount : n + t.outstanding = s.inflightCloudBuffers + t'.outstanding) :
    Ok { s with
      inflightCloudBuffers := n
      cloudBufferWaiting := zone
      tasks := s.tasks.set k t' } where
  count := by
    have hset := weight_set CloudTask.outstanding hk t'
    have := h.count
    show n = (s.tasks.set k t').weight CloudTask.outstanding
    omega
  task := by
    intro j u hj
    rw [get?_set] at hj
    split at hj
    · cases hj
      exact ht'
    · exact h.task hj

theorem Ok.acquireCloudBuffer (h : s.Ok) (hk : s.tasks.get? k = some t)
    (hstate : goal = .uploadState → t.uploadState = false) (hfree : 0 < t.held → ¬ s.Full) :
    (s.acquireCloudBuffer k t goal).Ok := by
  unfold CloudBuffers.acquireCloudBuffer
  split
  · next hfull =>
    have hheld : t.held = 0 := Nat.eq_zero_of_not_pos fun hpos ↦ hfree hpos hfull
    exact h.setTask hk ⟨fun _ ↦ hheld, (h.task hk).counted⟩ rfl
  · refine h.setTask hk ((h.task hk).take goal) ?_
    rw [CloudTask.outstanding_take hstate]
    omega

theorem Ok.wakeOne (h : s.Ok) : s.wakeOne.Ok := by
  unfold CloudBuffers.wakeOne
  split
  · exact h
  · split
    · exact ⟨h.count, h.task⟩
    · next t hk => exact h.setTask hk (h.task hk).wake (by rw [t.outstanding_wake])

theorem Ok.releaseCloudBuffer (h : s.Ok) (hk : s.tasks.get? k = some t) (ht' : t'.Ok)
    (hout : t'.outstanding + 1 = t.outstanding) : (s.releaseCloudBuffer k t').Ok := by
  have hle := le_weight CloudTask.outstanding hk
  have hcount := h.count
  have hset : Ok { s with
      inflightCloudBuffers := s.inflightCloudBuffers - 1
      tasks := s.tasks.set k t' } := h.setTask hk ht' (by omega)
  exact hset.wakeOne

theorem Ok.event (h : s.Ok) {e : BufferEvent} (hfree : e.Free s) (hstep : e.run s = some s') :
    s'.Ok := by
  cases e with
  | newTask k write =>
    obtain ⟨⟨hk, -⟩, rfl⟩ := ite_some_none_eq_some.1 hstep
    refine ⟨?_, fun {j u} hj ↦ ?_⟩
    · exact h.count.trans (weight_set_of_none CloudTask.outstanding hk { write }).symm
    · rw [get?_set] at hj
      split at hj
      · cases hj
        exact .of_running rfl not_mem_nil
      · exact h.task hj
  | endTask k =>
    obtain ⟨t, ht, rfl⟩ := map_eq_some_iff.1 hstep
    obtain ⟨ht, hout⟩ := filter_eq_some_iff.1 ht
    obtain ⟨hk, -⟩ := running?_eq_some.1 ht
    refine ⟨?_, fun {j u} hj ↦ ?_⟩
    · have herase := weight_erase CloudTask.outstanding hk
      rw [of_decide_eq_true hout] at herase
      exact h.count.trans herase.symm
    · rw [get?_erase] at hj
      obtain ⟨-, hj⟩ := ite_none_left_eq_some.1 hj
      exact h.task hj
  | ensureUploadState k =>
    obtain ⟨t, ht, rfl⟩ := map_eq_some_iff.1 hstep
    obtain ⟨hk, -⟩ := running?_eq_some.1 (filter_eq_some_iff.1 ht).1
    unfold ensureUploadStateBuffer
    split
    · exact h
    · next hstate =>
      have hstate := eq_false_of_ne_true hstate
      exact h.acquireCloudBuffer hk (fun _ ↦ hstate) (hfree t hk hstate)
  | downloadFile k | uploadFile k =>
    obtain ⟨t, ht, rfl⟩ := map_eq_some_iff.1 hstep
    obtain ⟨hk, -⟩ := running?_eq_some.1 ht
    exact h.acquireCloudBuffer hk nofun (hfree t hk)
  | refreshManifest k => exact hfree.elim
  | resume k =>
    obtain ⟨t, hk, hstep⟩ := bind_eq_some_iff.1 hstep
    split at hstep
    · next goal hwait =>
      cases hstep
      -- a task that waits holds nothing, so it may take any buffer
      have hheld : t.held = 0 := (h.task hk).idle (hwait ▸ nofun)
      refine h.acquireCloudBuffer hk (fun _ ↦ ?_) fun hpos ↦ absurd hheld hpos.ne'
      exact Bool.toNat_eq_zero.1 (Nat.eq_zero_of_add_eq_zero_right hheld)
    · cases hstep
  | submit k waitForCompletion =>
    obtain ⟨t, ht, rfl⟩ := map_eq_some_iff.1 hstep
    obtain ⟨ht, hstate⟩ := filter_eq_some_iff.1 ht
    obtain ⟨hk, hwait⟩ := running?_eq_some.1 ht
    refine h.setTask hk ((h.task hk).submit hwait waitForCompletion) ?_
    rw [CloudTask.outstanding_submit hstate]
  | resetUploadState k =>
    obtain ⟨t, ht, rfl⟩ := map_eq_some_iff.1 hstep
    obtain ⟨ht, hstate⟩ := filter_eq_some_iff.1 ht
    obtain ⟨hk, hwait⟩ := running?_eq_some.1 ht
    refine h.releaseCloudBuffer hk (.of_running hwait (h.task hk).counted) ?_
    simp only [CloudTask.outstanding, CloudTask.held, hstate, Bool.toNat_true, Bool.toNat_false]
    omega
  | uploaded k =>
    obtain ⟨t, ht, rfl⟩ := map_eq_some_iff.1 hstep
    obtain ⟨hk, hpos⟩ := filter_eq_some_iff.1 ht
    refine h.releaseCloudBuffer hk ⟨(h.task hk).idle, (h.task hk).counted⟩ ?_
    have hpos := of_decide_eq_true hpos
    simp only [CloudTask.outstanding, CloudTask.held]
    omega
  | finish k =>
    obtain ⟨t, ht, hstep⟩ := bind_eq_some_iff.1 hstep
    obtain ⟨hk, hwait⟩ := running?_eq_some.1 ht
    have hcounted := (h.task hk).counted
    split at hstep
    · cases hstep
    · next huses => exact absurd (huses ▸ mem_cons_self) hcounted
    · next u us huses =>
      cases hstep
      refine h.releaseCloudBuffer hk (.of_running hwait fun hmem ↦ hcounted ?_) ?_
      · exact huses ▸ mem_cons_of_mem _ hmem
      · simp only [CloudTask.outstanding, CloudTask.held, huses, length_cons]
        omega

/-- **Every buffer that is out is in the hands of a task that waits for another one.** -/
def Deadlocked (s : CloudBuffers) : Prop :=
  0 < s.inflightCloudBuffers ∧ ∀ k t, s.tasks.get? k = some t →
    t.inflightUploadTasks = 0 ∧ (0 < t.held → t.wait ≠ .running)

/-- What a run keeps: the count is the number of buffers that are out, and not all of them are with
tasks that wait for another. -/
structure Sound (s : CloudBuffers) : Prop where
  count : s.inflightCloudBuffers = s.tasks.weight CloudTask.outstanding
  not_deadlocked : ¬ s.Deadlocked

theorem Ok.sound (h : s.Ok) : s.Sound where
  count := h.count
  not_deadlocked := by
    rintro ⟨hpos, hall⟩
    obtain ⟨k, t, hk, hout⟩ := exists_of_weight_pos (h.count ▸ hpos)
    obtain ⟨huploads, hwaits⟩ := hall k t hk
    have hheld : 0 < t.held := by
      have : t.outstanding = t.held + t.inflightUploadTasks := rfl
      omega
    exact absurd ((h.task hk).idle (hwaits hheld)) hheld.ne'

/-- **The buffers of a shard**: in every run in which a task that holds a buffer asks for another
only while one is free, and in which no manifest is reloaded without a tag, the count is the number
of buffers that are out, and never are they all with tasks that wait for another one. -/
theorem sound_of_free {opts : CloudOptions} (h : BufferRuns BufferEvent.Free opts s) : s.Sound := by
  refine (Reach.invariant Ok ⟨rfl, fun hk ↦ ?_⟩ ?_ h).sound
  · cases hk
  · intro s e t hs hfree hstep
    exact hs.event hfree hstep

/-- A pool of one buffer: a write task prepares a range and submits the upload; a download waits for
the buffer, is woken by the upload's completion and takes it. -/
theorem sound_of_free_one :
    ∃ s, BufferRuns BufferEvent.Free
        { directIoBufferPoolSize := 1, maxWriteConcurrency := 20 } s ∧
      s.inflightCloudBuffers = 1 ∧ s.Sound :=
  exists_reach_and_of_exec (fun hrun ↦ sound_of_free hrun)
    [.newTask 0 true, .ensureUploadState 0, .submit 0 false, .newTask 1 false, .downloadFile 1,
      .uploaded 0, .resume 1] (by decide +kernel)

/-- The first `n` tasks are write tasks that have prepared a range and then begun a download. -/
def writersDownload (n : ℕ) : List BufferEvent :=
  (List.range n).map (.newTask · true) ++ (List.range n).map .ensureUploadState ++
    (List.range n).map .downloadFile

theorem Deadlocked.of_pairs (hpos : 0 < s.inflightCloudBuffers)
    (h : ∀ x ∈ s.tasks.pairs, x.2.inflightUploadTasks = 0 ∧ x.2.wait ≠ .running) :
    s.Deadlocked :=
  ⟨hpos, fun k t hk ↦
    let hx := h (k, t) (mem_of_lookup hk)
    ⟨hx.1, fun _ ↦ hx.2⟩⟩

/-- **The default options are not enough**: sixteen write tasks that have each prepared a range and
then open a file that is not on the local disk hold all the buffers and wait for another one. And a
manifest that is reloaded without a tag uses a buffer that is not counted. -/
theorem writers_deadlocked :
    ∃ opts, CloudOptions.validate {} = some opts ∧
      (∃ s, BufferRuns (fun _ _ ↦ True) opts s ∧ s.Deadlocked) ∧
      ∃ s, BufferRuns (fun _ _ ↦ True) opts s ∧
        s.inflightCloudBuffers ≠ s.tasks.weight CloudTask.outstanding := by
  refine ⟨_, rfl, ?_, ?_⟩
  · obtain ⟨s, hrun, hpos, hwait⟩ : ∃ s,
        BufferRuns (fun _ _ ↦ True) { maxWriteConcurrency := 20 } s ∧ 0 < s.inflightCloudBuffers ∧
        ∀ x ∈ s.tasks.pairs, x.2.inflightUploadTasks = 0 ∧ x.2.wait ≠ .running :=
      exists_reach_of_exec (writersDownload 16) (by decide +kernel)
    exact ⟨s, hrun, .of_pairs hpos hwait⟩
  · exact exists_reach_of_exec [.newTask 0 false, .refreshManifest 0] (by decide +kernel)

/-! ### The waiting zone -/

/-- **Every free buffer has a task that was woken for it**, but for `d` of them: the zone has
exactly the tasks that sleep, and while there are any, the buffers that are out and the tasks that
were woken together reach the size of the pool. -/
structure Attended (s : CloudBuffers) (d : ℕ) : Prop where
  nodup : s.cloudBufferWaiting.Nodup
  asleep : ∀ {k}, k ∈ s.cloudBufferWaiting ↔
    ∃ t goal, s.tasks.get? k = some t ∧ t.wait = .asleep goal
  /-- Nobody sleeps while a buffer is free for which nobody was woken. -/
  enough : s.cloudBufferWaiting ≠ [] →
    s.opts.directIoBufferPoolSize ≤ s.inflightCloudBuffers + s.tasks.weight CloudTask.awake + d

theorem Attended.notMem {d : ℕ} (h : s.Attended d) (hk : s.tasks.get? k = some t)
    (hwait : ∀ goal, t.wait ≠ .asleep goal) : k ∉ s.cloudBufferWaiting := by
  intro hmem
  obtain ⟨t', goal, hk', hsleep⟩ := h.asleep.1 hmem
  cases hk.symm.trans hk'
  exact hwait goal hsleep

/-- A task changes without falling asleep or waking up. -/
theorem Attended.setTask {d d' : ℕ} (h : s.Attended d) (hk : s.tasks.get? k = some t)
    (hwait : ∀ goal, t'.wait = .asleep goal ↔ t.wait = .asleep goal) {n : ℕ}
    (hn : s.inflightCloudBuffers + t.awake + d ≤ n + t'.awake + d') :
    Attended { s with
      inflightCloudBuffers := n
      tasks := s.tasks.set k t' } d' where
  nodup := h.nodup
  asleep {j} := by
    rw [h.asleep]
    by_cases hj : j = k
    · subst hj
      simp only [get?_set_self, hk, some.injEq, exists_and_left, exists_eq_left', hwait]
    · simp only [get?_set_of_ne hj]
  enough hne := by
    have hset := weight_set CloudTask.awake hk t'
    have := h.enough hne
    show s.opts.directIoBufferPoolSize ≤ n + (s.tasks.set k t').weight CloudTask.awake + d'
    omega

theorem Attended.keepWait (h : s.Attended 0) (hk : s.tasks.get? k = some t) (t' : CloudTask)
    (hwait : t'.wait = t.wait) : Attended { s with tasks := s.tasks.set k t' } 0 := by
  refine h.setTask hk (fun goal ↦ by rw [hwait]) (Nat.le_of_eq ?_)
  simp only [CloudTask.awake, hwait]

theorem Attended.acquireCloudBuffer (h : s.Attended 0) (hk : s.tasks.get? k = some t)
    (hwait : ∀ goal, t.wait ≠ .asleep goal) : (s.acquireCloudBuffer k t goal).Attended 0 := by
  unfold CloudBuffers.acquireCloudBuffer
  split
  · next hfull =>
    refine ⟨?_, fun {j} ↦ ?_, fun _ ↦ ?_⟩
    · exact nodup_append.2 ⟨h.nodup, nodup_singleton k, fun a ha b hb hab ↦
        h.notMem hk hwait (mem_singleton.1 hb ▸ hab ▸ ha)⟩
    · by_cases hj : j = k
      · subst hj
        simp
      · simp only [mem_append, mem_singleton, hj, or_false, h.asleep, get?_set_of_ne hj]
    · exact Nat.le_add_right_of_le (Nat.le_add_right_of_le hfull.2)
  · have hrun : (t.take goal).wait = .running := by cases goal <;> rfl
    refine h.setTask hk (fun g ↦ ?_) ?_
    · rw [hrun]
      exact ⟨nofun, fun hsleep ↦ absurd hsleep (hwait g)⟩
    · have : t.awake ≤ 1 := by
        unfold CloudTask.awake
        split <;> decide
      omega

theorem Attended.wakeOne (h : s.Attended 1) : s.wakeOne.Attended 0 := by
  unfold CloudBuffers.wakeOne
  split
  · next hzone => exact ⟨h.nodup, h.asleep, absurd hzone⟩
  · next k ks hzone =>
    obtain ⟨hks, hnodup⟩ := nodup_cons.1 (hzone ▸ h.nodup)
    obtain ⟨t, goal, hk, hsleep⟩ := h.asleep.1 (hzone ▸ mem_cons_self)
    have hwake : t.wake = { t with wait := .woken goal } := by simp only [CloudTask.wake, hsleep]
    rw [hk]
    refine ⟨hnodup, fun {j} ↦ ?_, fun _ ↦ ?_⟩
    · by_cases hj : j = k
      · subst hj
        simp [hks, hwake]
      · simp only [get?_set_of_ne hj, ← h.asleep, hzone, mem_cons, hj, false_or]
    · have hset := weight_set CloudTask.awake hk t.wake
      have henough := h.enough (hzone ▸ cons_ne_nil k ks)
      have hbefore : t.awake = 0 := by simp only [CloudTask.awake, hsleep]
      have hafter : t.wake.awake = 1 := by rw [hwake]; rfl
      show s.opts.directIoBufferPoolSize ≤
        s.inflightCloudBuffers + (s.tasks.set k t.wake).weight CloudTask.awake + 0
      omega

theorem Attended.releaseCloudBuffer (h : s.Attended 0) (hk : s.tasks.get? k = some t)
    (hwait : t'.wait = t.wait) : (s.releaseCloudBuffer k t').Attended 0 := by
  have hawake : t'.awake = t.awake := by simp only [CloudTask.awake, hwait]
  refine Attended.wakeOne (h.setTask hk (fun goal ↦ by rw [hwait]) ?_)
  omega

theorem not_asleep_of_running (hwait : t.wait = .running) (goal : BufferGoal) :
    t.wait ≠ .asleep goal := hwait ▸ nofun

theorem Attended.event (h : s.Attended 0) {e : BufferEvent} (hstep : e.run s = some s') :
    s'.Attended 0 := by
  cases e with
  | newTask k write =>
    obtain ⟨⟨hk, -⟩, rfl⟩ := ite_some_none_eq_some.1 hstep
    refine ⟨h.nodup, fun {j} ↦ ?_, fun hne ↦ ?_⟩
    · rw [h.asleep]
      by_cases hj : j = k
      · subst hj
        simp [hk]
      · simp only [get?_set_of_ne hj]
    · have hset := weight_set_of_none CloudTask.awake hk { write }
      exact hset ▸ h.enough hne
  | endTask k =>
    obtain ⟨t, ht, rfl⟩ := map_eq_some_iff.1 hstep
    obtain ⟨hk, hwait⟩ := running?_eq_some.1 (filter_eq_some_iff.1 ht).1
    refine ⟨h.nodup, fun {j} ↦ ?_, fun hne ↦ ?_⟩
    · rw [h.asleep]
      by_cases hj : j = k
      · subst hj
        simp [hk, hwait]
      · simp only [get?_erase_of_ne hj]
    · have herase := weight_erase CloudTask.awake hk
      have hawake : t.awake = 0 := by simp only [CloudTask.awake, hwait]
      rw [hawake, Nat.add_zero] at herase
      exact herase ▸ h.enough hne
  | ensureUploadState k =>
    obtain ⟨t, ht, rfl⟩ := map_eq_some_iff.1 hstep
    obtain ⟨hk, hwait⟩ := running?_eq_some.1 (filter_eq_some_iff.1 ht).1
    unfold ensureUploadStateBuffer
    split
    · exact h
    · exact h.acquireCloudBuffer hk (not_asleep_of_running hwait)
  | downloadFile k | uploadFile k =>
    obtain ⟨t, ht, rfl⟩ := map_eq_some_iff.1 hstep
    obtain ⟨hk, hwait⟩ := running?_eq_some.1 ht
    exact h.acquireCloudBuffer hk (not_asleep_of_running hwait)
  | refreshManifest k =>
    obtain ⟨t, ht, rfl⟩ := map_eq_some_iff.1 hstep
    obtain ⟨hk, -⟩ := running?_eq_some.1 ht
    exact h.keepWait hk _ rfl
  | resume k =>
    obtain ⟨t, hk, hstep⟩ := bind_eq_some_iff.1 hstep
    split at hstep
    · next goal hwait =>
      cases hstep
      exact h.acquireCloudBuffer hk fun _ ↦ hwait ▸ nofun
    · cases hstep
  | submit k waitForCompletion =>
    obtain ⟨t, ht, rfl⟩ := map_eq_some_iff.1 hstep
    obtain ⟨hk, -⟩ := running?_eq_some.1 (filter_eq_some_iff.1 ht).1
    cases waitForCompletion with
    | false | true => exact h.keepWait hk _ rfl
  | resetUploadState k =>
    obtain ⟨t, ht, rfl⟩ := map_eq_some_iff.1 hstep
    obtain ⟨hk, -⟩ := running?_eq_some.1 (filter_eq_some_iff.1 ht).1
    exact h.releaseCloudBuffer hk rfl
  | uploaded k =>
    obtain ⟨t, ht, rfl⟩ := map_eq_some_iff.1 hstep
    exact h.releaseCloudBuffer (filter_eq_some_iff.1 ht).1 rfl
  | finish k =>
    obtain ⟨t, ht, hstep⟩ := bind_eq_some_iff.1 hstep
    obtain ⟨hk, -⟩ := running?_eq_some.1 ht
    split at hstep
    · cases hstep
    · cases hstep
      exact h.keepWait hk _ rfl
    · cases hstep
      exact h.releaseCloudBuffer hk rfl

/-- **No wake-up is lost**: in every run, while a task sleeps in the waiting zone, the buffers that
are counted and the tasks that were woken together reach the size of the pool. -/
theorem awake_of_runs {G : CloudBuffers → BufferEvent → Prop} {opts : CloudOptions}
    (h : BufferRuns G opts s) (hne : s.cloudBufferWaiting ≠ []) :
    s.opts.directIoBufferPoolSize ≤ s.inflightCloudBuffers + s.tasks.weight CloudTask.awake := by
  refine (Reach.invariant (Attended · 0) ⟨nodup_nil, ?_, ?_⟩ ?_ h).enough hne
  · simp
  · exact fun hne ↦ absurd rfl hne
  · intro s e t hs _ hstep
    exact hs.event hstep

/-- Two downloads wait for the one buffer of a pool; it is given back, and the first is awake. -/
theorem awake_of_runs_woken : ∃ s : CloudBuffers, s.cloudBufferWaiting = [2] ∧
    s.inflightCloudBuffers = 0 ∧
    s.opts.directIoBufferPoolSize ≤ s.inflightCloudBuffers + s.tasks.weight CloudTask.awake := by
  obtain ⟨s, hrun, hzone, hs⟩ : ∃ s, BufferRuns (fun _ _ ↦ True) { directIoBufferPoolSize := 1 } s ∧
      s.cloudBufferWaiting = [2] ∧ s.inflightCloudBuffers = 0 :=
    exists_reach_of_exec [.newTask 0 false, .downloadFile 0, .newTask 1 false, .downloadFile 1,
      .newTask 2 false, .downloadFile 2, .finish 0] (by decide +kernel)
  exact ⟨s, hzone, hs, awake_of_runs hrun (hzone ▸ cons_ne_nil _ _)⟩

end CloudBuffers

end EloqStore
