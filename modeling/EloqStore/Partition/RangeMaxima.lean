import EloqStore.Partition.ProvenanceRuns

/-!
# The maxima of the last range against the allocators

A write attempt allocates from private copies of the two allocators, and stamps the files it touches
into the branch file ranges **in place**. An allocation leaves the maximum of the last range at its
allocator's current file, which is what the ascending-order check of `setBranchFileIdTerm` needs.
Two things break the tie.

* An abort drops the copies and keeps the ranges. If the attempt had moved on to another file, the
  ranges are then ahead of the allocators, and a retry that crosses the same boundary asks the check
  to record a smaller file than the one recorded.
* A load under a new term may move an allocator to the next file, and the ranges follow only when a
  page is allocated there: until then they are `MaximumAt.behind`. The two classes move on their
  own, so an attempt without large values flushes segment maxima that are behind.

Attempts that abort only while still in the files they started in, and that flush only what reaches
the files their allocators are in, keep everything in step (`attempts_keep_maxima_in_step`).
-/

namespace EloqStore

open FilePageAllocator Option EloqStore.Partition Transition WriteTask Replayer

variable (opts : KvOptions) (s : Partition) (r : Replayer) (t : WriteTask)

/-- The file a task's next page of a class goes to; `0` when there is no segment mapper. -/
def WriteTask.currentFile : FileClass → ℕ
  | .data => t.cow.mapper.allocator.currentFileId
  | .segment => (t.cow.segmentMapper.map (·.allocator.currentFileId)).getD 0

/-- The file a task started now would allocate from. -/
def Partition.startFile (c : FileClass) : ℕ :=
  ((s.makeCowRoot opts).task.map (·.currentFile c)).getD 0

/-- The file a class has reached in the manifest. -/
def Partition.diskFile (c : FileClass) : ℕ :=
  fileOf (opts.shift c) ((durable s.manifest).boundOf c)

/-- The file a class reaches in the manifest once a task's changes are appended. -/
def Partition.recordedFile (c : FileClass) : ℕ :=
  fileOf (opts.shift c) (t.applied (durable s.manifest) c).2

/-! ### Write attempts -/

/-- What happens in a sequence of write attempts. -/
inductive AttemptEvent
  | begin
  | step (a : TaskStep)
  | commit
  | abort
  /-- The partition is loaded anew, by an instance under the same term or a later one. -/
  | reload (term : ℕ)
deriving DecidableEq, Repr

def TaskStep.isStat : TaskStep → Bool
  | .updateStat _ _ _ => true
  | _ => false

/-- One event. Statistics are kept by compactions, not by write attempts. -/
def AttemptEvent.run : AttemptEvent → Except Failure Partition
  | .begin => if s.task.isSome then .error .disabled else .ok (s.makeCowRoot opts)
  | .step a => if a.isStat then .error .disabled else s.taskStep opts a
  | .commit => s.commit opts
  | .abort => if s.task.isSome then .ok s.abort else .error .disabled
  | .reload term =>
    if s.processTerm ≤ opts.runTerm term then .ok (s.restarted (opts.runTerm term))
    else .error .disabled

/-- The sequences of attempts from a state. -/
abbrev Attempts (G : Partition → AttemptEvent → Prop) : Partition → Partition → Prop :=
  Transition.Reach (fun s e s' ↦ (e.run opts s).toOption = some s') G

/-- **The condition on attempts.** One that aborts is still in the files it started in. One that
commits has recorded a page in each file that an allocator has moved to: what its changes raise the
manifest's maxima to lies in the allocators' current files. -/
def AttemptEvent.Settled : AttemptEvent → Prop
  | .abort => ∀ t ∈ s.task, ∀ c, t.currentFile c = s.startFile opts c
  | .commit => ∀ t ∈ s.task, ∀ c, s.recordedFile opts t c = t.currentFile c
  | .begin | .step _ | .reload _ => True

instance decidableForallClass {p : FileClass → Prop} [DecidablePred p] : Decidable (∀ c, p c) :=
  decidable_of_iff (p .data ∧ p .segment)
    ⟨fun h c ↦ by
      cases c
      · exact h.1
      · exact h.2, fun h ↦ ⟨h .data, h .segment⟩⟩

instance (e : AttemptEvent) : Decidable (e.Settled opts s) := by
  cases e <;> dsimp only [AttemptEvent.Settled] <;> infer_instance

/-! ### The invariant -/

/-- **Where the maximum of a class is** while a task runs: at the task's current file, or still
where the manifest leaves it, with nothing allocated since. -/
inductive MaximumAt (opts : KvOptions) (s : Partition) (t : WriteTask) (c : FileClass) : Prop
  | here (h : lastMax s.branchFileMapping c = t.currentFile c)
  | behind (h : lastMax s.branchFileMapping c = s.diskFile opts c)
      (hle : s.diskFile opts c ≤ t.currentFile c)
      (hrec : s.recordedFile opts t c = s.diskFile opts c)
      (hseen : c = .segment → t.lastSeenSegmentFileId = none)

/-- A partition in the course of an attempt. -/
structure Attempting (opts : KvOptions) (s : Partition) : Prop where
  sorted : RangesSorted s.branchFileMapping
  placed : ∀ t, s.task = some t → ∀ c, MaximumAt opts s t c
  shift : ∀ t, s.task = some t → ∀ m, t.cow.segmentMapper = some m →
    m.allocator.shift = opts.segmentsPerFileShift

/-- The invariant of a sequence of attempts. -/
structure MaximaInv (opts : KvOptions) (s : Partition) : Prop where
  wf : s.WellFormed opts
  sized : s.Sized
  /-- On disk, the last range ends where the file pages do. -/
  disk : ∀ m, s.manifest = some m → RangesSorted (replay m).branchMetadata.fileRanges ∧
    ∀ c, lastMax (replay m).branchMetadata.fileRanges c = s.diskFile opts c
  idle : s.task = none → Attempting opts (s.makeCowRoot opts)
  running : s.task ≠ none → Attempting opts s
  /-- The published segment mapper has files of the configured size. -/
  shift : ∀ m? sm, s.mappers = some (m?, some sm) → sm.allocator.shift = opts.segmentsPerFileShift

variable {opts} {s} {s' : Partition} {t} {t' : WriteTask} {c : FileClass}

theorem Partition.startFile_eq {m? sm? : Option PageMapper} (h : s.mappers = some (m?, sm?))
    (c : FileClass) : s.startFile opts c =
      match c with
      | .data => (m?.getD (.empty (newAllocator opts))).allocator.currentFileId
      | .segment => ((m?.bind fun _ ↦ sm?).map (·.allocator.currentFileId)).getD 0 := by
  obtain ⟨t, ht, -, -, hmap, hseg⟩ := makeCowRoot_of_mappers opts h
  simp only [startFile, ht, map_some, getD_some]
  cases c with
  | data => rw [currentFile, hmap]
  | segment => rw [currentFile, hseg]

namespace MaximumAt

theorem le (h : MaximumAt opts s t c) : lastMax s.branchFileMapping c ≤ t.currentFile c := by
  cases h with
  | here h => exact h.le
  | behind h hle => exact h ▸ hle

/-- A class that a task has recorded up to its current file is there. -/
theorem eq_of_recorded (h : MaximumAt opts s t c)
    (hrec : s.recordedFile opts t c = t.currentFile c) :
    lastMax s.branchFileMapping c = t.currentFile c := by
  cases h with
  | here h => exact h
  | behind h _ hsame => rw [h, ← hsame, hrec]

end MaximumAt

/-- The start of an attempt, from what is published. -/
theorem Attempting.of_mappers {m? sm? : Option PageMapper} (hm : s.mappers = some (m?, sm?))
    (hs : RangesSorted s.branchFileMapping)
    (hshift : ∀ sm, sm? = some sm → sm.allocator.shift = opts.segmentsPerFileShift)
    (hmax : ∀ c, lastMax s.branchFileMapping c = s.startFile opts c ∨
      lastMax s.branchFileMapping c = s.diskFile opts c ∧
        s.diskFile opts c ≤ s.startFile opts c) :
    Attempting opts (s.makeCowRoot opts) := by
  obtain ⟨t, -, -, ht, -, -, hseg, hwal, hdeltas, hseen⟩ := makeCowRoot_spec opts s
  obtain ⟨t₁, ht₁, -, hranges, -, hseg₁⟩ := makeCowRoot_of_mappers opts hm
  obtain ⟨-, -, hman, -⟩ := makeCowRoot_frame opts s
  cases ht.symm.trans ht₁
  have hstart : ∀ c, s.startFile opts c = t.currentFile c := fun c ↦ by simp [startFile, ht]
  have hdisk : ∀ c, (s.makeCowRoot opts).diskFile opts c = s.diskFile opts c := fun c ↦ by
    rw [diskFile, diskFile, hman]
  refine ⟨hranges ▸ hs, fun t' ht' c ↦ ?_, fun t' ht' m hm' ↦ ?_⟩
  · cases ht.symm.trans ht'
    rcases hmax c with h | ⟨h, hle⟩
    · exact .here (by rw [hranges, h, hstart])
    · refine .behind (by rw [hranges, h, hdisk]) (by rw [hdisk, ← hstart]; exact hle) ?_
        fun _ ↦ hseen
      have hnil : t.deltasOf c = [] := by cases c <;> assumption
      rw [recordedFile, applied_of_nil hnil]
      rfl
  · cases ht.symm.trans ht'
    rw [hseg₁] at hm'
    obtain ⟨-, -, hm'⟩ := bind_eq_some_iff.1 hm'
    exact hshift m hm'

/-! ### One step of an attempt -/

namespace Attempting

/-- A data allocation passes its checks and takes the data maximum to its file. -/
private theorem allocatePage (h : Attempting opts s) (ht : s.task = some t) (page? : Option ℕ) :
    ∃ fp t' ranges',
      t.allocatePage opts s.owner s.branchFileMapping page? = some (fp, t', ranges') ∧
      RangesSorted ranges' ∧ lastMax ranges' .data = t'.currentFile .data ∧
      lastMax ranges' .segment = lastMax s.branchFileMapping .segment := by
  have hle : lastMax s.branchFileMapping .data ≤ t.cow.mapper.allocator.currentFileId :=
    (h.placed t ht .data).le
  obtain ⟨ranges', hst, hs, hlast, hother⟩ := stampFiles_of_lastMax (w := s.owner) h.sorted
    ((Nat.eq_or_lt_of_le hle).imp_right fun hlt ↦ ⟨hlt, rfl⟩)
    t.cow.mapper.allocator.currentFileId_le_allocate
  obtain ⟨fp, t', halloc⟩ := exists_allocatePage opts page? hst
  obtain ⟨-, -, hcow, -⟩ := allocatePage_ok halloc
  refine ⟨fp, t', ranges', halloc, hs, ?_, hother .segment (by decide)⟩
  rw [hlast, currentFile, hcow, allocated_allocator]

/-- So does an allocation of a segment. The file is not looked up if the task has seen it, but then
the maximum is there. -/
private theorem allocateSegment (h : Attempting opts s) (ht : s.task = some t) (page? : Option ℕ)
    (hne : t.cow.segmentMapper ≠ none) :
    ∃ fp t' ranges', t.allocateSegment s.owner s.branchFileMapping page? = some (fp, t', ranges') ∧
      RangesSorted ranges' ∧ lastMax ranges' .segment = t'.currentFile .segment ∧
      lastMax ranges' .data = lastMax s.branchFileMapping .data := by
  obtain ⟨m, hm⟩ := ne_none_iff_exists'.1 hne
  have hfile : t.currentFile .segment = m.allocator.currentFileId := by
    rw [currentFile, hm]
    rfl
  have hlast : lastMax s.branchFileMapping .segment = m.allocator.currentFileId ∨
      lastMax s.branchFileMapping .segment < m.allocator.currentFileId ∧
        decide (t.lastSeenSegmentFileId ≠ some m.allocator.currentFileId) = true := by
    rw [← hfile]
    have hle := (h.placed t ht .segment).le
    cases h.placed t ht .segment with
    | here h => exact .inl h
    | behind _ _ _ hseen =>
      exact (Nat.eq_or_lt_of_le hle).imp_right fun hlt ↦ ⟨hlt, by simp [hseen rfl]⟩
  obtain ⟨ranges', hst, hs, hlast, hother⟩ := stampFiles_of_lastMax (w := s.owner) h.sorted
    hlast m.allocator.currentFileId_le_allocate
  obtain ⟨fp, t', halloc⟩ := exists_allocateSegment page? hm hst
  obtain ⟨m', hm', -, -, hcow, -⟩ := allocateSegment_ok halloc
  cases hm.symm.trans hm'
  refine ⟨fp, t', ranges', halloc, hs, ?_, hother .data (by decide)⟩
  rw [hlast, currentFile, hcow]
  rfl

theorem taskStep_ne_checkFailed (hrun : s.task ≠ none → Attempting opts s) (a : TaskStep) :
    s.taskStep opts a ≠ .error .checkFailed := by
  unfold taskStep
  split
  · simp
  · next t ht =>
    have h := hrun (by simp [ht])
    cases a with
    | allocatePage page? =>
      obtain ⟨fp, t', ranges', halloc, -⟩ := h.allocatePage ht page?
      simp [halloc, afterAllocation]
    | allocateSegment page? =>
      by_cases hm : t.cow.segmentMapper = none
      · simp [hm]
      · obtain ⟨fp, t', ranges', halloc, -⟩ := h.allocateSegment ht page? hm
        simp [halloc, afterAllocation, hm]
    | freeSegment page | updateStat c m n | buildDictionary bytes =>
      dsimp only
      split <;> simp
    | getPage | freePage page | ensureSegmentMapper | setRoots r tr n => simp

end Attempting

/-- What a step leaves of a class it allocates nothing in. A first segment mapper starts in file
`0`. -/
private structure QuietClass (r : Replayer) (t t' : WriteTask) (c : FileClass) : Prop where
  file : t'.currentFile c = t.currentFile c
  bound : (t'.applied r c).2 = (t.applied r c).2
  seen : c = .segment → t'.lastSeenSegmentFileId = t.lastSeenSegmentFileId

private theorem QuietClass.of_change {a : TaskStep} (hc : Partition.TaskChange opts s s' t t' a)
    (ha : a.isStat = false) (hnone : ∀ fp, a.allocation t ≠ some (c, fp)) :
    QuietClass r t t' c := by
  cases c with
  | data =>
    cases hc.data with
    | same hm hw =>
      refine ⟨by simp only [currentFile, hm], ?_, fun hc ↦ by cases hc⟩
      rw [applied, deltasOf, hw]
      rfl
    | getPage heq =>
      exact ⟨by simp [heq, getPage, currentFile], by rw [heq]; rfl, fun hc ↦ by cases hc⟩
    | allocatePage => exact absurd rfl (hnone _)
    | freePage page heq =>
      refine ⟨by rw [heq]; rfl, ?_, fun hc ↦ by cases hc⟩
      rw [heq, applied, deltasOf, freePage, applyDeltas_concat]
      rfl
    | updateStat => cases ha
  | segment =>
    cases hc.segment with
    | same hm hd hl =>
      refine ⟨by simp only [currentFile, hm], ?_, fun _ ↦ hl⟩
      rw [applied, deltasOf, hd]
      rfl
    | create hm hm' hd hl =>
      refine ⟨?_, ?_, fun _ ↦ hl⟩
      · simp [currentFile, hm, hm', newSegmentAllocator, PageMapper.empty, currentFileId, fileOf]
      · rw [applied, deltasOf, hd]
        rfl
    | @allocateSegment m _ hm =>
      exact absurd (by simp [TaskStep.allocation, hm]) (hnone m.allocator.allocate.1)
    | freeSegment page hm hm' hd hl =>
      refine ⟨by simp [currentFile, hm, hm'], ?_, fun _ ↦ hl⟩
      rw [applied, deltasOf, hd, applyDeltas_concat]
      rfl
    | updateStat => cases ha

private theorem MaximumAt.of_quiet (h : MaximumAt opts s t c)
    (hq : QuietClass (durable s.manifest) t t' c) (hman : s'.manifest = s.manifest)
    (hlast : lastMax s'.branchFileMapping c = lastMax s.branchFileMapping c) :
    MaximumAt opts s' t' c := by
  have hdisk : s'.diskFile opts c = s.diskFile opts c := by rw [diskFile, diskFile, hman]
  cases h with
  | here h => exact .here (by rw [hlast, h, hq.file])
  | behind h hle hrec hseen =>
    refine .behind (by rw [hlast, h, hdisk]) (by rw [hdisk, hq.file]; exact hle) ?_
      fun hc ↦ (hq.seen hc).trans (hseen hc)
    rw [hdisk, ← hrec, recordedFile, recordedFile, hman, hq.bound]

/-- **One step of an attempt** keeps every maximum in its place. -/
theorem Attempting.taskStep {a : TaskStep} (h : Attempting opts s) (ha : a.isStat = false)
    (hstep : s.taskStep opts a = .ok s') : Attempting opts s' := by
  obtain ⟨t, ht, heff⟩ := taskStep_ok hstep
  obtain ⟨t', ht', hc⟩ := taskStep_change ht hstep
  have hman := hc.manifest
  have hshift : ∀ m, t'.cow.segmentMapper = some m →
      m.allocator.shift = opts.segmentsPerFileShift := by
    intro m hm
    obtain ⟨t₁, ht₁, hmap⟩ := taskStep_effect ht hstep
    cases ht'.symm.trans ht₁
    cases hmap.segment with
    | absent _ h' => cases h'.symm.trans hm
    | create _ h' =>
      cases h'.symm.trans hm
      rfl
    | step h₀ h' hs =>
      cases h'.symm.trans hm
      exact hs.shift_eq.trans (h.shift t ht _ h₀)
  have hmain : RangesSorted s'.branchFileMapping ∧ ∀ c, MaximumAt opts s' t' c := by
    cases a with
    | allocatePage page? =>
      obtain ⟨fp, t₁, ranges', halloc, rfl⟩ := heff
      cases ht'
      obtain ⟨_, _, _, halloc₁, hs, hdata, hseg⟩ := h.allocatePage ht page?
      cases halloc.symm.trans halloc₁
      refine ⟨hs, fun c ↦ ?_⟩
      cases c with
      | data => exact .here hdata
      | segment =>
        exact (h.placed t ht .segment).of_quiet
          (.of_change _ hc ha (by simp [TaskStep.allocation])) rfl hseg
    | allocateSegment page? =>
      obtain ⟨fp, t₁, ranges', halloc, rfl⟩ := heff
      cases ht'
      obtain ⟨m, hm, -⟩ := allocateSegment_ok halloc
      obtain ⟨_, _, _, halloc₁, hs, hseg, hdata⟩ := h.allocateSegment ht page? (by simp [hm])
      cases halloc.symm.trans halloc₁
      refine ⟨hs, fun c ↦ ?_⟩
      cases c with
      | data =>
        exact (h.placed t ht .data).of_quiet
          (.of_change _ hc ha (by simp [TaskStep.allocation])) rfl hdata
      | segment => exact .here hseg
    | updateStat c m n => simp [TaskStep.isStat] at ha
    | _ =>
      have hranges := hc.ranges.resolve_right (by rintro ⟨_, _, _, ⟨⟩, _⟩)
      exact ⟨hranges ▸ h.sorted, fun c ↦ (h.placed t ht c).of_quiet
        (.of_change _ hc ha (by simp [TaskStep.allocation])) hman (by rw [hranges])⟩
  refine ⟨hmain.1, fun t₁ ht₁ ↦ ?_, fun t₁ ht₁ ↦ ?_⟩
  · cases ht'.symm.trans ht₁
    exact hmain.2
  · cases ht'.symm.trans ht₁
    exact hshift

/-! ### One event -/

namespace MaximaInv

private theorem begin (h : MaximaInv opts s) (hidle : s.task = none) :
    MaximaInv opts (s.makeCowRoot opts) := by
  have hrun := h.idle hidle
  have hwf := h.wf.makeCowRoot hidle
  obtain ⟨-, -, hman, -⟩ := makeCowRoot_frame opts s
  obtain ⟨t, m?, sm?, ht, hm, -, hseg, -⟩ := makeCowRoot_spec opts s
  refine ⟨hwf, h.sized.makeCowRoot opts hidle, fun m hm' ↦ ?_, by simp [ht],
    fun _ ↦ hrun, fun m₁ sm hm₁ ↦ ?_⟩
  · rw [hman] at hm'
    obtain ⟨hs, hmax⟩ := h.disk m hm'
    refine ⟨hs, fun c ↦ ?_⟩
    rw [hmax c, diskFile, diskFile, hman]
  · cases hm.symm.trans hm₁
    cases m? with
    | none => cases (hwf.stub _ hm).1
    | some m => exact hrun.shift t ht sm hseg

private theorem taskStep {a : TaskStep} (h : MaximaInv opts s) (ha : a.isStat = false)
    (hstep : s.taskStep opts a = .ok s') : MaximaInv opts s' := by
  obtain ⟨hmap, hman, -⟩ := taskStep_frame hstep
  obtain ⟨t, ht, -⟩ := taskStep_ok hstep
  obtain ⟨t', ht', -⟩ := taskStep_change ht hstep
  have hrun := (h.running (by simp [ht])).taskStep ha hstep
  refine ⟨h.wf.taskStep hstep, h.sized.taskStep hstep, fun m hm ↦ ?_,
    by simp [ht'], fun _ ↦ hrun, fun m? sm hm ↦ h.shift m? sm (hmap ▸ hm)⟩
  rw [hman] at hm
  obtain ⟨hs, hmax⟩ := h.disk m hm
  refine ⟨hs, fun c ↦ ?_⟩
  rw [hmax c, diskFile, diskFile, hman]

/-- **A commit that records up to the allocators' files** leaves the maxima there, in memory and on
disk. -/
private theorem commit (h : MaximaInv opts s) (ht : s.task = some t)
    (hrec : ∀ c, s.recordedFile opts t c = t.currentFile c) :
    MaximaInv opts (s.updateMeta opts t) := by
  have hrun := h.running (by simp [ht])
  have hlast := fun c ↦ (hrun.placed t ht c).eq_of_recorded (hrec c)
  have hentry := (h.wf.task t ht).entry
  obtain ⟨m?, sm?, hm⟩ := exists_mappers hentry
  have hc := updateMeta_spec opts ht hm
  have hmap := hc.mappers
  rw [(h.wf.task t ht).or_segmentMapper hm] at hmap
  -- a snapshot carries the allocators' maxima
  have hsnap : ∀ c, fileOf (opts.shift c) ((deserializeSnapshot (s.snapshotOf t)).boundOf c) =
      t.currentFile c := by
    intro c
    cases c with
    | data =>
      rw [currentFile, currentFileId, h.wf.taskShift t ht]
      rfl
    | segment =>
      cases hseg : t.cow.segmentMapper with
      | none =>
        simp [currentFile, hseg, boundOf, deserializeSnapshot, snapshotOf, fileOf]
      | some m =>
        simp [currentFile, hseg, boundOf, deserializeSnapshot, snapshotOf, currentFileId,
          hrun.shift t ht m hseg, KvOptions.shift]
  refine ⟨h.wf.updateMeta ht, h.sized.updateMeta opts hentry ht, fun m hm' ↦ ?_, fun _ ↦ ?_,
    fun hn ↦ absurd hc.idle hn, fun m₁ sm hm₁ ↦ ?_⟩
  · rw [hc.manifest] at hm'
    have hdisk : ∀ c, (s.updateMeta opts t).diskFile opts c =
        fileOf (opts.shift c) ((replay m).boundOf c) := fun c ↦ by
      rw [diskFile, hc.manifest, hm']
      rfl
    rcases flushManifest_cases opts (h.sized.task t ht) with ⟨heq, -⟩ | ⟨m₁, hm₁, hreplay⟩
    · rw [heq] at hm'
      obtain ⟨hs, hmax⟩ := h.disk m hm'
      refine ⟨hs, fun c ↦ ?_⟩
      rw [hmax c, hdisk c, diskFile, hm']
      rfl
    · cases hm'.symm.trans hm₁
      have hmeta : (replay m).branchMetadata = s.branchMetadata := by
        rcases hreplay with hr | hr <;> rw [hr] <;> rfl
      rw [hmeta]
      refine ⟨hrun.sorted, fun c ↦ ?_⟩
      rw [hdisk]
      refine (hlast c).trans ?_
      rcases hreplay with hr | hr
      · rw [hr, ← hrec c]
        cases c <;> rfl
      · rw [hr, hsnap]
  · refine .of_mappers hmap (hc.ranges ▸ hrun.sorted) (hrun.shift t ht) fun c ↦ .inl ?_
    rw [hc.ranges, hlast c, startFile_eq hmap]
    cases c <;> rfl
  · exact hrun.shift t ht sm (Prod.mk.inj (some.inj (hmap.symm.trans hm₁))).2

/-- **An abort in the start files** leaves the maxima where the next attempt may find them. -/
private theorem abort (h : MaximaInv opts s) (ht : s.task = some t)
    (hfile : ∀ c, t.currentFile c = s.startFile opts c) : MaximaInv opts s.abort := by
  have hrun := h.running (by simp [ht])
  obtain ⟨m?, sm?, hm⟩ := exists_mappers (h.wf.task t ht).entry
  have hm' : s.abort.mappers = some (m?, sm?) := hm
  refine ⟨h.wf.abort, h.sized.abort, h.disk, fun _ ↦ ?_, fun hn ↦ absurd rfl hn, h.shift⟩
  refine .of_mappers hm' hrun.sorted (fun sm hsm ↦ h.shift m? sm (hsm ▸ hm)) fun c ↦ ?_
  have hstart : s.abort.startFile opts c = t.currentFile c := by
    rw [hfile c, startFile_eq hm, startFile_eq hm']
  rw [hstart]
  cases hrun.placed t ht c with
  | here h => exact .inl h
  | behind h hle => exact .inr ⟨h, hle⟩

/-- A loaded data allocator is in the manifest's last file or ahead of it. -/
private theorem fileOf_le_getMapper (term : ℕ) :
    fileOf opts.pagesPerFileShift r.maxFpId ≤ (r.getMapper opts term).allocator.currentFileId := by
  rw [getMapper, allocator_mapperOfTable]
  split
  · rw [currentFileId, appendAllocatorOf_maxFpId, appendAllocatorOf_shift]
    refine fileOf_mono _ ?_
    unfold dataMaxFpId
    split
    · exact bumpToNextFile_ge _ _
    · exact le_rfl
  · exact le_rfl

/-- So is a loaded segment allocator; without one, the manifest has no segment file. -/
private theorem getSegmentMapper_cases (opts : KvOptions) (r : Replayer) (term : ℕ) :
    (r.getSegmentMapper opts term = none ∧ r.maxSegmentFpId = 0) ∨
      ∃ sm, r.getSegmentMapper opts term = some sm ∧
        sm.allocator.shift = opts.segmentsPerFileShift ∧
        fileOf opts.segmentsPerFileShift r.maxSegmentFpId ≤ sm.allocator.currentFileId := by
  unfold getSegmentMapper
  split
  · next hnone => exact .inl ⟨rfl, hnone.2⟩
  · refine .inr ⟨_, rfl, ?_⟩
    rw [allocator_mapperOfTable, currentFileId, appendAllocatorOf_maxFpId, appendAllocatorOf_shift]
    refine ⟨rfl, fileOf_mono _ ?_⟩
    unfold segmentMaxFpId
    split
    · exact bumpToNextFile_ge _ _
    · exact le_rfl

/-- **A load** finds the maxima where the manifest has them, and its allocators there or ahead. -/
theorem ofBranch (branch : BranchName) (term : ℕ) {manifest : Option Manifest}
    (hsound : (durable manifest).Sound)
    (hdisk : ∀ m, manifest = some m → RangesSorted (replay m).branchMetadata.fileRanges ∧
      ∀ c, lastMax (replay m).branchMetadata.fileRanges c =
        (ofBranch branch term manifest).diskFile opts c) :
    MaximaInv opts (.ofBranch branch term manifest) := by
  have hunloaded : (Partition.ofBranch branch term manifest).Unloaded := ⟨rfl, rfl, rfl, hsound⟩
  refine ⟨hunloaded.wellFormed, ⟨fun root hroot ↦ ?_, fun t ht ↦ ?_⟩, hdisk, fun _ ↦ ?_,
    fun hn ↦ absurd rfl hn, fun m? sm hm ↦ ?_⟩
  · cases hroot
  · cases ht
  · cases manifest with
    | none =>
      -- the attempt starts from a stub, with everything in file 0
      have hstub : (Partition.ofBranch branch term none).makeCowRoot opts =
          { Partition.ofBranch branch term none with entry := some {} }.makeCowRoot opts := rfl
      have hm : { Partition.ofBranch branch term none with entry := some {} }.mappers =
        some (none, none) := rfl
      rw [hstub]
      refine .of_mappers hm rangesSorted_nil (fun sm hsm ↦ by cases hsm) fun c ↦ .inl ?_
      rw [startFile_eq hm]
      cases c <;> simp [Partition.ofBranch, lastMax, PageMapper.empty, newAllocator, currentFileId,
        fileOf]
    | some m =>
      have hload : (Partition.ofBranch branch term (some m)).makeCowRoot opts =
        ((Partition.ofBranch branch term (some m)).loadMeta opts m).makeCowRoot opts := rfl
      have hm : ((Partition.ofBranch branch term (some m)).loadMeta opts m).mappers =
        some (some ((replay m).getMapper opts term), (replay m).getSegmentMapper opts term) := rfl
      obtain ⟨hs, hmax⟩ := hdisk m rfl
      rw [hload]
      refine .of_mappers hm hs (fun sm hsm ↦ ?_) fun c ↦ .inr ⟨hmax c, ?_⟩
      · rcases getSegmentMapper_cases opts (replay m) term with ⟨hnone, -⟩ | ⟨sm', hsm', hshift, -⟩
        · cases hnone.symm.trans hsm
        · cases hsm'.symm.trans hsm
          exact hshift
      · rw [startFile_eq hm]
        cases c with
        | data => exact fileOf_le_getMapper _ _
        | segment =>
          rcases getSegmentMapper_cases opts (replay m) term with ⟨hnone, hzero⟩ | ⟨sm, hsm, -, hle⟩
          · simp [hnone, diskFile, loadMeta, Partition.ofBranch, durable, boundOf, hzero,
              fileOf]
          · simp only [hsm]
            exact hle
  · cases hm

/-- **One event of a sequence of attempts keeps the invariant.** -/
theorem event {e : AttemptEvent} (h : MaximaInv opts s) (hg : e.Settled opts s)
    (hrun : e.run opts s = .ok s') : MaximaInv opts s' := by
  cases e with
  | begin =>
    simp only [AttemptEvent.run] at hrun
    split at hrun
    · cases hrun
    · next hidle =>
      rw [← Except.ok.inj hrun]
      exact h.begin (by simpa using hidle)
  | step a =>
    simp only [AttemptEvent.run] at hrun
    split at hrun
    · cases hrun
    · next hstat => exact h.taskStep (by simpa using hstat) hrun
  | commit =>
    obtain ⟨t, ht, -, rfl⟩ := commit_ok hrun
    exact h.commit ht (hg t ht)
  | abort =>
    simp only [AttemptEvent.run] at hrun
    split at hrun
    · next hsome =>
      rw [← Except.ok.inj hrun]
      obtain ⟨t, ht⟩ := isSome_iff_exists.1 hsome
      exact h.abort ht (hg t ht)
    · cases hrun
  | reload term =>
    simp only [AttemptEvent.run] at hrun
    split at hrun
    · rw [← Except.ok.inj hrun]
      exact .ofBranch _ _ h.wf.durable h.disk
    · cases hrun

theorem run_ne_checkFailed (h : MaximaInv opts s) (e : AttemptEvent) :
    e.run opts s ≠ .error .checkFailed := by
  cases e with
  | begin | abort | reload term =>
    simp only [AttemptEvent.run]
    split <;> simp
  | step a =>
    simp only [AttemptEvent.run]
    split
    · simp
    · exact Attempting.taskStep_ne_checkFailed h.running a
  | commit =>
    simp only [AttemptEvent.run, Partition.commit]
    split
    · simp
    · split <;> simp

end MaximaInv

/-! ### Sequences of attempts -/

/-- **Settled attempts** never fail an ascending-order check, and whenever one of them flushes the
manifest, the ranges it writes end in the files its allocators are in. -/
theorem attempts_keep_maxima_in_step (opts : KvOptions) (branch : BranchName) (term : ℕ)
    {s : Partition} (hrun : Attempts opts (AttemptEvent.Settled opts) (.fresh branch term) s) :
    (∀ e : AttemptEvent, e.run opts s ≠ .error .checkFailed) ∧
      ∀ t, s.task = some t → AttemptEvent.commit.Settled opts s → ∀ c,
        lastMax (s.snapshotOf t).branchMetadata.fileRanges c = t.currentFile c ∧
        lastMax (s.logOf t).branchMetadata.fileRanges c = t.currentFile c := by
  have h : MaximaInv opts s := by
    have hfresh : MaximaInv opts (.fresh branch term) :=
      .ofBranch branch term ⟨MappingTbl.below_nil _, MappingTbl.below_nil _⟩ fun m hm ↦ by cases hm
    refine hrun.invariant (MaximaInv opts) hfresh fun hs hg hstep ↦ ?_
    exact hs.event hg (ok_of_toOption hstep)
  refine ⟨h.run_ne_checkFailed, fun t ht hrec c ↦ ?_⟩
  have hlast := ((h.running (by simp [ht])).placed t ht c).eq_of_recorded (hrec t ht c)
  exact ⟨hlast, hlast⟩

/-- Append mode, with files of two pages and of two segments. -/
def smallFiles : KvOptions := ⟨true, 1, 1, 1000000, 2, 2, false, "", ""⟩

/-- The same with an object store. -/
def smallCloudFiles : KvOptions := { smallFiles with cloudStorePath := "bucket" }

/-- An attempt that aborts in its start files, one that commits a page of each class, and, after a
load under the next term, one that crosses a boundary of each class. -/
theorem attempts_in_step_after_reload : ∃ s t,
    Attempts smallCloudFiles (AttemptEvent.Settled smallCloudFiles) (.fresh "main" 1) s ∧
      s.task = some t ∧ t.currentFile .data = 2 ∧ t.currentFile .segment = 2 ∧
      (∀ e : AttemptEvent, e.run smallCloudFiles s ≠ .error .checkFailed) ∧
      ∀ c, lastMax (s.snapshotOf t).branchMetadata.fileRanges c = t.currentFile c := by
  obtain ⟨s, hrun, hs, hsettled⟩ : ∃ s,
      Attempts smallCloudFiles (AttemptEvent.Settled smallCloudFiles) (.fresh "main" 1) s ∧
      (s.task.map fun t ↦ (t.currentFile .data, t.currentFile .segment)) = some (2, 2) ∧
      AttemptEvent.commit.Settled smallCloudFiles s :=
    exists_reach_of_exec
      [.begin, .step (.allocatePage none), .abort, .begin, .step (.allocatePage none),
        .step .ensureSegmentMapper, .step (.allocateSegment none), .commit, .reload 2, .begin,
        .step (.allocatePage none), .step (.allocatePage none), .step (.allocateSegment none),
        .step (.allocateSegment none)] (by decide)
  obtain ⟨t, ht, hfiles⟩ := map_eq_some_iff.1 hs
  obtain ⟨hdata, hseg⟩ := Prod.mk.inj hfiles
  have h := attempts_keep_maxima_in_step smallCloudFiles "main" 1 hrun
  exact ⟨s, t, hrun, ht, hdata, hseg, h.1, fun c ↦ (h.2 t ht hsettled c).1⟩

/-- **A retry fails the check, and a flush leaves the segments behind.** An attempt allocates four
pages, moves on to its third file, and aborts; the retry starts again in the first file, and when it
moves on to the second, the ranges already record the third. And an attempt without large values,
after a load under a new term, flushes a segment maximum in the file before the allocator's. -/
theorem retry_after_abort_fails_check :
    (∃ s, Attempts smallFiles (fun _ _ ↦ True) (.fresh "main" 0) s ∧
      (AttemptEvent.step (.allocatePage none)).run smallFiles s = .error .checkFailed) ∧
    ∃ s, Attempts smallCloudFiles (fun _ e ↦ e ≠ .abort) (.fresh "main" 1) s ∧
      (AttemptEvent.commit.run smallCloudFiles s).toOption.isSome ∧
      ∃ t ∈ s.task, t.currentFile .segment = 1 ∧
        lastMax (s.logOf t).branchMetadata.fileRanges .segment = 0 := by
  refine ⟨exists_reach_of_exec [.begin, .step (.allocatePage none), .step (.allocatePage none),
    .step (.allocatePage none), .step (.allocatePage none), .abort, .begin,
    .step (.allocatePage none)] (by decide), ?_⟩
  exact exists_reach_of_exec [.begin, .step (.allocatePage none), .step .ensureSegmentMapper,
    .step (.allocateSegment none), .commit, .reload 2, .begin, .step (.allocatePage none)]
    (by decide)

end EloqStore
