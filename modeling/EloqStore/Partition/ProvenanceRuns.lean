import EloqStore.Partition.FileProvenance

/-!
# Files and their names along runs

The runs of a partition in append mode, with the record of who wrote what: tasks that commit or
abort, truncates, restarts under a larger term, and starts on a forked branch (`TraceEvent`). In
every run whose events are `Careful`, an allocation resolves to its writer at the moment it is made,
and every page of the published root is found at the file it was written to
(`pages_found_where_written`).

The invariant has three parts: what is on disk is in order under the ranges on disk, what a task
would start from is in order under the ranges in memory (`StartNames`), and a running task is in
order under the ranges as it has changed them (`Running`). `mark` remembers the ranges the task
found, since an abort gives back the mappers and keeps the ranges.
-/

namespace EloqStore

open FilePageAllocator MappingTbl Option EloqStore.Partition Replayer Transition WriteTask

/-! ### Runs -/

/-- A partition with the history of its file pages. -/
structure Traced where
  part : Partition
  writer : Writers
  /-- The file ranges the running task found when it began. -/
  mark : BranchFileMapping

def Traced.fresh (branch : BranchName) (term : ℕ) : Traced :=
  ⟨.fresh branch term, fun _ _ ↦ none, []⟩

variable (opts : KvOptions) (x : Traced)

/-- The term an instance runs under: local mode has no terms. -/
def KvOptions.runTerm (term : ℕ) : ℕ :=
  if deriveStoreMode opts = .localMode then 0 else term

/-- The partition as a new instance on the same branch finds it. -/
def Partition.restarted (s : Partition) (term : ℕ) : Partition :=
  .ofBranch s.activeBranch term s.manifest

/-- What happens to a partition. -/
inductive TraceEvent
  | begin
  | step (a : TaskStep)
  | commit
  | abort
  | truncateAll
  /-- The instance stops, and one with a larger term starts. -/
  | restart (term : ℕ)
  | fork (child : BranchName) (term : ℕ)
deriving DecidableEq, Repr

def TraceEvent.run : TraceEvent → Option Traced
  | .begin =>
    if x.part.task = none then
      some { x with
        part := x.part.makeCowRoot opts
        mark := (x.part.makeCowRoot opts).branchFileMapping }
    else none
  | .step a => (x.part.taskStep opts a).toOption.map fun s ↦
    { x with
      part := s
      writer := x.writer.after x.part.owner (x.part.task.bind fun t ↦ a.allocation t) }
  | .commit => (x.part.commit opts).toOption.map fun s ↦ { x with part := s }
  | .abort => if x.part.task = none then none else some { x with part := x.part.abort }
  | .truncateAll =>
    if x.part.task = none then
      (x.part.runOp opts .truncateAll).toOption.map fun s ↦ { x with part := s }
    else none
  | .restart term =>
    if x.part.processTerm < opts.runTerm term then
      some { x with part := x.part.restarted (opts.runTerm term) }
    else none
  | .fork child term =>
    -- a fork in append mode compacts first, which loads the root
    if x.part.task = none ∧ (x.part.entry ≠ none ∨ x.part.manifest = none) then
      let m? := x.part.branchManifest opts child x.part.branchFileMapping
      some { x with part := .ofBranch child (opts.runTerm term) m? }
    else none

/-- **The condition on events.** A first segment mapper is created only where no one claims its
files. A commit that writes no manifest has changed no segment. A task that aborts has recorded no
file. A partition with segments is restarted only with an object store. -/
def TraceEvent.Careful : TraceEvent → Prop
  | .step a => a = .ensureSegmentMapper → ∀ t ∈ x.part.task, t.cow.segmentMapper = none →
      SegmentsUnclaimed x.part.branchFileMapping x.part.owner
  | .commit => ∀ t ∈ x.part.task, t.walBuilder = [] → Partition.needEmptySnapshot t = false →
      t.segMappingDeltas = []
  | .abort => x.part.branchFileMapping = x.mark
  | .restart term => ∀ m ∈ x.part.manifest,
      (replay m).getSegmentMapper opts (opts.runTerm term) = none ∨ opts.cloudStorePath ≠ ""
  | .begin | .truncateAll | .fork _ _ => True

instance TraceEvent.decidableCareful (e : TraceEvent) : Decidable (e.Careful opts x) := by
  cases e <;> dsimp only [TraceEvent.Careful] <;> infer_instance

abbrev Traces (G : Traced → TraceEvent → Prop) : Traced → Traced → Prop :=
  Transition.Reach (fun x e y ↦ TraceEvent.run opts x e = some y) G

/-! ### The invariant -/

/-- What a task starts from, given the published mappers. -/
def startOf (m? sm? : Option PageMapper) : FileClass → Option PageMapper
  | .data => some (m?.getD (.empty (newAllocator opts)))
  | .segment => m?.bind fun _ ↦ sm?

/-- **Published mappers in order** under some ranges, against what is on disk. -/
structure PublishedNames (opts : KvOptions) (s : Partition) (ranges : BranchFileMapping)
    (W : Writers) (m? sm? : Option PageMapper) : Prop where
  sorted : RangesSorted ranges
  cls : ∀ c, ClassInv opts ranges s.owner W c (startOf opts m? sm? c)
    ((durable s.manifest).tblOf c) ((durable s.manifest).boundOf c)

/-- What a task started now would start from is in order. -/
def StartNames (s : Partition) (W : Writers) : Prop :=
  ∀ m? sm?, (s.makeCowRoot opts).mappers = some (m?, sm?) →
    PublishedNames opts s (s.makeCowRoot opts).branchFileMapping W m? sm?

/-- A running task and the root it was copied from. -/
structure Running (opts : KvOptions) (x : Traced) (t : WriteTask) : Prop where
  names : TaskNames opts x.part x.writer t
  /-- So is the root, under the ranges the task found. -/
  published : ∀ m? sm?, x.part.mappers = some (m?, sm?) →
    PublishedNames opts x.part x.mark x.writer m? sm?
  progress : ∀ m? sm?, x.part.mappers = some (m?, sm?) → ∀ c m, startOf opts m? sm? c = some m →
    ∃ m', t.mapperOf c = some m' ∧ m.allocator.maxFpId ≤ m'.allocator.maxFpId
  extend : Extends x.mark x.part.branchFileMapping

/-- A partition that remembers a manifest size has a manifest. -/
structure Partition.Sized (s : Partition) : Prop where
  entry : ∀ root, s.entry = some root → 0 < root.manifestSize → s.manifest ≠ none
  task : ∀ t, s.task = some t → 0 < t.cow.manifestSize → s.manifest ≠ none

/-- A manifest in order. -/
structure ManifestNames (opts : KvOptions) (term : ℕ) (W : Writers) (m : Manifest) : Prop where
  sorted : RangesSorted (replay m).branchMetadata.fileRanges
  /-- The manifest is not from a later term. -/
  term_le : (replay m).branchMetadata.term ≤ term
  cls : ∀ c, DiskInv opts (replay m).branchMetadata.fileRanges W c ((replay m).tblOf c)
    ((replay m).boundOf c)

/-- **The invariant of a run.** -/
structure TraceInv (opts : KvOptions) (x : Traced) : Prop where
  wf : x.part.WellFormed opts
  /-- It remembers the size of a manifest that exists. -/
  sized : x.part.Sized
  disk : ∀ m, x.part.manifest = some m → ManifestNames opts x.part.processTerm x.writer m
  idle : x.part.task = none → StartNames opts x.part x.writer
  running : ∀ t, x.part.task = some t → Running opts x t

variable {opts} {x} {y : Traced} {t : WriteTask}

/-! ### Starting, stepping, aborting -/

variable {c : FileClass}

theorem WriteTask.applied_of_nil {t : WriteTask} (h : t.deltasOf c = []) (r : Replayer) :
    t.applied r c = (r.tblOf c, r.boundOf c) := by
  rw [applied, h, applyDeltas_nil]

namespace Partition.Sized

variable {s s' : Partition}

theorem findRoot (opts : KvOptions) (h : s.Sized) (hidle : s.task = none) :
    (s.findRoot opts).Sized := by
  unfold Partition.findRoot
  split
  · exact h
  · split
    · exact h
    · next m hm =>
      exact ⟨fun _ _ _ ↦ by simp [loadMeta, hm], by simp [loadMeta, hidle]⟩

theorem makeCowRoot (opts : KvOptions) (h : s.Sized) (hidle : s.task = none) :
    (s.makeCowRoot opts).Sized := by
  obtain ⟨hentry, -⟩ := h.findRoot opts hidle
  unfold Partition.makeCowRoot
  dsimp only
  split
  · next root hroot =>
    split
    · refine ⟨hentry, fun t ht ↦ ?_⟩
      cases ht
      exact hentry root hroot
    · refine ⟨hentry, fun t ht ↦ ?_⟩
      cases ht
      exact fun hpos ↦ absurd hpos (lt_irrefl 0)
  · refine ⟨fun root hroot ↦ ?_, fun t ht ↦ ?_⟩
    · cases hroot
      exact fun hpos ↦ absurd hpos (lt_irrefl 0)
    · cases ht
      exact fun hpos ↦ absurd hpos (lt_irrefl 0)

theorem abort (h : s.Sized) : s.abort.Sized :=
  ⟨h.entry, by simp [Partition.abort]⟩

theorem taskStep {a : TaskStep} (h : s.Sized) (hstep : s.taskStep opts a = .ok s') : s'.Sized := by
  obtain ⟨t, ht, -⟩ := taskStep_ok hstep
  obtain ⟨t', ht', hc⟩ := taskStep_change ht hstep
  obtain ⟨f, hentry⟩ := hc.entry
  refine ⟨fun root hroot hpos ↦ ?_, fun t₁ ht₁ hpos ↦ ?_⟩
  · rw [hentry] at hroot
    obtain ⟨root₀, hroot₀, rfl⟩ := map_eq_some_iff.1 hroot
    rw [hc.manifest]
    exact h.entry root₀ hroot₀ hpos
  · cases ht'.symm.trans ht₁
    rw [hc.manifest]
    exact h.task t ht (hc.size ▸ hpos)

theorem updateMeta (opts : KvOptions) (h : s.Sized) (he : s.entry.isSome) (ht : s.task = some t) :
    (s.updateMeta opts t).Sized := by
  obtain ⟨m?, sm?, hm⟩ := exists_mappers he
  have hc := updateMeta_spec opts ht hm
  refine ⟨fun root hroot hpos ↦ ?_, by simp [hc.idle]⟩
  rw [hc.manifest]
  rcases flushManifest_cases opts (h.task t ht) with ⟨heq, -⟩ | ⟨m, hm', -⟩
  · rw [heq]
    simp only [Partition.updateMeta, heq, ht, Partition.updateRoot] at hroot
    obtain ⟨root₀, -, rfl⟩ := map_eq_some_iff.1 hroot
    exact h.task t ht hpos
  · simp [hm']

end Partition.Sized

variable {s s' : Partition} {W : Writers} {m? sm? : Option PageMapper}

theorem PublishedNames.congr {ranges : BranchFileMapping}
    (h : PublishedNames opts s ranges W m? sm?) (howner : s'.owner = s.owner)
    (hman : s'.manifest = s.manifest) : PublishedNames opts s' ranges W m? sm? := by
  refine ⟨h.sorted, ?_⟩
  rw [howner, hman]
  exact h.cls

theorem StartNames.of_mappers (hm : s.mappers = some (m?, sm?))
    (h : PublishedNames opts s s.branchFileMapping W m? sm?) : StartNames opts s W := by
  obtain ⟨t, -, hm', hranges, -⟩ := makeCowRoot_of_mappers opts hm
  intro m₁ sm₁ hm₁
  cases hm'.symm.trans hm₁
  rw [hranges]
  exact h

namespace TraceInv

/-- **A task starts in order.** -/
theorem begin (h : TraceInv opts x) (hidle : x.part.task = none) :
    TraceInv opts { x with
      part := x.part.makeCowRoot opts
      mark := (x.part.makeCowRoot opts).branchFileMapping } := by
  obtain ⟨-, -, hman, -, howner, -⟩ := makeCowRoot_frame opts x.part
  obtain ⟨t, m?, sm?, ht, hm, hmap, hseg, hwal, hdeltas, hlast⟩ :=
    makeCowRoot_spec opts x.part
  have hterm : (x.part.makeCowRoot opts).processTerm = x.part.processTerm :=
    congrArg Owner.term howner
  have hpub := (h.idle hidle m? sm? hm).congr howner hman
  have hmapper : ∀ c, t.mapperOf c = startOf opts m? sm? c := fun c ↦ by
    cases c with
    | data => exact congrArg some hmap
    | segment => exact hseg
  refine ⟨h.wf.makeCowRoot hidle, h.sized.makeCowRoot opts hidle, fun m hm' ↦ ?_,
    by simp [ht], fun t' ht' ↦ ?_⟩
  · rw [hterm]
    exact h.disk m (hman ▸ hm')
  · cases ht.symm.trans ht'
    refine ⟨⟨hpub.sorted, fun c ↦ ?_, by simp [hlast]⟩, fun m₁ sm₁ hm₁ ↦ ?_,
      fun m₁ sm₁ hm₁ c m hc ↦ ?_, fun _ _ ho ↦ ho⟩
    · have hnil : t.deltasOf c = [] := by cases c <;> assumption
      rw [hmapper, applied_of_nil hnil]
      exact hpub.cls c
    · cases hm.symm.trans hm₁
      exact hpub
    · cases hm.symm.trans hm₁
      exact ⟨m, (hmapper c).trans hc, le_rfl⟩

section

variable (h : TraceInv opts x) (ht : x.part.task = some t)

include h ht

/-- What a running task allocates lies at or above everything the root and the manifest know. -/
private theorem allocation_ge {a : TaskStep} {fp : ℕ} (ha : a.allocation t = some (c, fp)) :
    ∃ m, t.mapperOf c = some m ∧ fp = m.allocator.maxFpId := by
  have hnames := (h.running t ht).names
  cases a with
  | allocatePage page? =>
    obtain ⟨rfl, rfl⟩ := Prod.mk.inj (some.inj ha)
    refine ⟨t.cow.mapper, rfl, ?_⟩
    rw [((hnames.cls .data).allocator _ rfl).1.allocate_eq]
  | allocateSegment page? =>
    obtain ⟨m, hm, heq⟩ := map_eq_some_iff.1 ha
    obtain ⟨rfl, rfl⟩ := Prod.mk.inj heq
    refine ⟨m, hm, ?_⟩
    rw [((hnames.cls .segment).allocator m hm).1.allocate_eq]
  | getPage | freePage _ | ensureSegmentMapper | freeSegment _ | updateStat _ _ _
  | buildDictionary _ | setRoots _ _ _ => simp [TaskStep.allocation] at ha

/-- **A step of a task keeps a run in order.** -/
theorem step {a : TaskStep} (hstep : x.part.taskStep opts a = .ok s')
    (hcareful : (TraceEvent.step a).Careful opts x) :
    TraceInv opts { x with
      part := s', writer := x.writer.after x.part.owner (a.allocation t) } := by
  have hrun := h.running t ht
  obtain ⟨hmap, hman, -, howner⟩ := taskStep_frame hstep
  have hterm : s'.processTerm = x.part.processTerm := congrArg Owner.term howner
  have hentry := (h.wf.task t ht).entry
  obtain ⟨t', ht', hnext⟩ := hrun.names.step ht hstep fun ha ↦ hcareful ha t ht
  obtain ⟨m?, sm?, hm⟩ := exists_mappers hentry
  have hpub := hrun.published m? sm? hm
  have hprog := hrun.progress m? sm? hm
  -- the file page taken, if any, is new to the root and to the manifest
  have hge : ∀ c fp, a.allocation t = some (c, fp) →
      (∀ m, startOf opts m? sm? c = some m → m.allocator.maxFpId ≤ fp) ∧
        (durable x.part.manifest).boundOf c ≤ fp := by
    intro c fp ha
    obtain ⟨m, hm, rfl⟩ := h.allocation_ge ht ha
    have hstart : ∀ m₀, startOf opts m? sm? c = some m₀ →
        m₀.allocator.maxFpId ≤ m.allocator.maxFpId := by
      intro m₀ hm₀
      obtain ⟨m', hm', hle⟩ := hprog c m₀ hm₀
      cases hm.symm.trans hm'
      exact hle
    refine ⟨hstart, ?_⟩
    cases hc : startOf opts m? sm? c with
    | none =>
      rw [((hpub.cls c).absent hc).2]
      exact Nat.zero_le _
    | some m₀ => exact ((hpub.cls c).bound_le m₀ hc).trans (hstart m₀ hc)
  have hpub' : PublishedNames opts x.part x.mark (x.writer.after x.part.owner (a.allocation t)) m?
      sm? := by
    cases ha : a.allocation t with
    | none => exact hpub
    | some p =>
      obtain ⟨c, fp⟩ := p
      exact ⟨hpub.sorted, fun c' ↦ (hpub.cls c').record _ fun hc ↦ hc ▸ (hge c fp ha).1⟩
  refine ⟨h.wf.taskStep hstep, h.sized.taskStep hstep, fun m hm' ↦ ?_,
    by simp [ht'], fun t₁ ht₁ ↦ ?_⟩
  · have hm₀ : x.part.manifest = some m := hman ▸ hm'
    have hdisk := h.disk m hm₀
    refine ⟨hdisk.sorted, hterm.symm ▸ hdisk.term_le, fun c' ↦ ?_⟩
    cases ha : a.allocation t with
    | none => exact hdisk.cls c'
    | some p =>
      obtain ⟨c, fp⟩ := p
      refine (hdisk.cls c').record _ fun hc ↦ ?_
      have hle := (hge c fp ha).2
      rw [hm₀] at hle
      exact hc ▸ hle
  · cases ht'.symm.trans ht₁
    refine ⟨hnext.names, fun m₁ sm₁ hm₁ ↦ ?_, fun m₁ sm₁ hm₁ c m hc ↦ ?_, fun fid o ho ↦ ?_⟩
    · obtain ⟨rfl, rfl⟩ : m? = m₁ ∧ sm? = sm₁ := by simpa [hmap, hm] using hm₁
      exact hpub'.congr howner hman
    · obtain ⟨rfl, rfl⟩ : m? = m₁ ∧ sm? = sm₁ := by simpa [hmap, hm] using hm₁
      obtain ⟨m', hm', hle⟩ := hprog c m hc
      obtain ⟨m'', hm'', hle'⟩ := hnext.progress c m' hm'
      exact ⟨m'', hm'', hle.trans hle'⟩
    · exact hnext.extend fid o (hrun.extend fid o ho)

/-- **An abort that has recorded no file** leaves the root in order. -/
theorem abort (hcareful : x.part.branchFileMapping = x.mark) :
    TraceInv opts { x with part := x.part.abort } := by
  have hrun := h.running t ht
  obtain ⟨m?, sm?, hm⟩ := Partition.exists_mappers (h.wf.task t ht).entry
  refine ⟨h.wf.abort, h.sized.abort, h.disk, fun _ ↦ ?_, by simp [Partition.abort]⟩
  refine StartNames.of_mappers (s := x.part.abort) hm ?_
  have hpub := hrun.published m? sm? hm
  rw [← hcareful] at hpub
  exact hpub.congr rfl rfl

end

/-- The manifest after a flush, against the copy: each class as the copy has it. -/
private theorem flushed_cls (opts : KvOptions) (h : TaskNames opts s W t) (hs : s.Sized)
    (ht : s.task = some t)
    (hcareful : t.walBuilder = [] → needEmptySnapshot t = false →
      t.segMappingDeltas = []) (c : FileClass) :
    ClassInv opts s.branchFileMapping s.owner W c (t.mapperOf c)
      ((durable (s.flushManifest opts t).manifest).tblOf c)
      ((durable (s.flushManifest opts t).manifest).boundOf c) := by
  rcases flushManifest_cases opts (hs.task t ht) with ⟨heq, hwal, hempty⟩ | ⟨m, hm, hlog | hsnap⟩
  · -- nothing is written, and nothing was recorded
    have hnil : t.deltasOf c = [] := by
      cases c with
      | data => exact hwal
      | segment => exact hcareful hwal hempty
    have hcls := h.cls c
    rw [applied_of_nil hnil] at hcls
    rw [heq]
    exact hcls
  · rw [hm, durable, hlog]
    cases c <;> exact h.cls _
  · rw [hm, durable, hsnap]
    cases c with
    | data => exact (h.cls .data).ofMapper
    | segment =>
      have hcls := h.cls .segment
      cases hseg : t.cow.segmentMapper with
      | none =>
        simp only [mapperOf, hseg, tblOf, boundOf, deserializeSnapshot,
          snapshotOf, map_none, getD_none]
        exact .unknown
      | some m =>
        simp only [mapperOf, hseg] at hcls
        simp only [mapperOf, hseg, tblOf, boundOf, deserializeSnapshot,
          snapshotOf, map_some, getD_some]
        exact hcls.ofMapper

/-- **A commit keeps a run in order**, if it writes the segments it has changed. -/
theorem commit (h : TraceInv opts x) (ht : x.part.task = some t)
    (hcareful : t.walBuilder = [] → needEmptySnapshot t = false →
      t.segMappingDeltas = []) :
    TraceInv opts { x with part := x.part.updateMeta opts t } := by
  have hrun := h.running t ht
  have hentry := (h.wf.task t ht).entry
  obtain ⟨m?, sm?, hm⟩ := exists_mappers hentry
  have hc := updateMeta_spec opts ht hm
  have hmap := hc.mappers
  rw [(h.wf.task t ht).or_segmentMapper hm] at hmap
  have hcls := flushed_cls opts hrun.names h.sized ht hcareful
  have hterm : (x.part.updateMeta opts t).processTerm = x.part.processTerm :=
    congrArg Owner.term hc.owner
  refine ⟨h.wf.updateMeta ht, h.sized.updateMeta opts hentry ht, fun m hm' ↦ ?_, fun _ ↦ ?_,
    by simp [hc.idle]⟩
  · simp only [hc.manifest] at hm'
    rw [hterm]
    rcases flushManifest_cases opts (h.sized.task t ht) with ⟨heq, -⟩ | ⟨m₁, hm₁, hreplay⟩
    · exact h.disk m (heq ▸ hm')
    · cases hm'.symm.trans hm₁
      have hmeta : (replay m).branchMetadata = x.part.branchMetadata := by
        rcases hreplay with hr | hr
        · rw [hr]
          rfl
        · rw [hr]
          rfl
      refine ⟨?_, ?_, fun c ↦ ?_⟩
      · rw [hmeta]
        exact hrun.names.sorted
      · rw [hmeta]
        exact le_rfl
      · rw [hmeta]
        have hclass := hcls c
        rw [hm'] at hclass
        exact hclass.toDisk fun hdata ↦ by simp [hdata, mapperOf]
  · refine StartNames.of_mappers hmap ?_
    rw [hc.ranges]
    refine ⟨hrun.names.sorted, fun c ↦ ?_⟩
    have hsame : startOf opts (some t.cow.mapper) t.cow.segmentMapper c = t.mapperOf c := by
      cases c <;> rfl
    rw [hsame, hc.owner, hc.manifest]
    exact hcls c

/-- The copy of a truncated partition maps nothing new. -/
theorem shrinks_truncated (opts : KvOptions) (t : WriteTask) :
    t.cow.mapper.Shrinks (truncated opts t).cow.mapper ∧
      (truncated opts t).cow.segmentMapper = t.cow.segmentMapper ∧
      (truncated opts t).segMappingDeltas = t.segMappingDeltas ∧
      (truncated opts t).lastSeenSegmentFileId = t.lastSeenSegmentFileId := by
  unfold truncated
  generalize t.cow.mapper.tbl.mapped.map (·.2) = pages
  induction pages generalizing t with
  | nil => exact ⟨.refl _, rfl, rfl, rfl⟩
  | cons page pages ih =>
    obtain ⟨hs, hseg, hdeltas, hlast⟩ := ih (t.freePage opts page)
    have hfree : t.cow.mapper.Shrinks (t.freePage opts page).cow.mapper := .freePage _ page
    exact ⟨⟨fun happ ↦ hs.append (hfree.append happ), hs.shift.trans hfree.shift,
      hfree.le.trans hs.le, fun q fp hq ↦ hfree.map q fp (hs.map q fp hq)⟩, hseg, hdeltas,
      hlast⟩

/-- A task that has just begun may empty its copy. -/
theorem truncated (h : TraceInv opts x) (ht : x.part.task = some t)
    (hwal : t.walBuilder = []) :
    TraceInv opts { x with
      part := { x.part with task := some (truncated opts t) } } := by
  have hrun := h.running t ht
  obtain ⟨hshrink, hseg, hdeltas, hlast⟩ := shrinks_truncated opts t
  obtain ⟨hsound, hsize⟩ := (h.wf.task t ht).foldl_freePage opts
    (t.cow.mapper.tbl.mapped.map (·.2))
  have htask : ∀ t', some (Partition.truncated opts t) = some t' →
      Partition.truncated opts t = t' :=
    fun t' ht' ↦ some.inj ht'
  refine ⟨⟨h.wf.durable, h.wf.published, h.wf.stub, h.wf.unloaded, fun t' ht' ↦ ?_, h.wf.shift,
    fun t' ht' ↦ ?_⟩, ⟨h.sized.entry, fun t' ht' ↦ ?_⟩, h.disk, by simp,
    fun t' ht' ↦ ?_⟩
  · obtain rfl := htask t' ht'
    exact { hsound with }
  · obtain rfl := htask t' ht'
    exact hshrink.shift.trans (h.wf.taskShift t ht)
  · obtain rfl := htask t' ht'
    intro hpos
    exact h.sized.task t ht (by simpa [Partition.truncated, hsize] using hpos)
  · obtain rfl := htask t' ht'
    refine ⟨⟨hrun.names.sorted, fun c ↦ ?_, fun f hf ↦ hrun.names.seen f (hlast ▸ hf)⟩,
      fun m? sm? hm ↦ (hrun.published m? sm? hm).congr rfl rfl, fun m? sm? hm c m hc ↦ ?_,
      hrun.extend⟩
    · have hcls := hrun.names.cls c
      cases c with
      | data =>
        rw [applied_of_nil (c := .data) hwal] at hcls
        rw [WriteTask.applied_of_nil (c := .data) (t := Partition.truncated opts t) rfl]
        exact hcls.shrink hrun.names.sorted hshrink fun _ _ hq ↦ hq
      | segment =>
        rw [show (Partition.truncated opts t).mapperOf .segment = t.mapperOf .segment from hseg,
          applied, deltasOf, hdeltas]
        exact hcls
    · obtain ⟨m', hm', hle⟩ := hrun.progress m? sm? hm c m hc
      cases c with
      | data =>
        cases hm'
        exact ⟨_, rfl, hle.trans hshrink.le⟩
      | segment => exact ⟨m', hseg.trans hm', hle⟩

/-- **A truncate keeps a run in order.** -/
theorem truncateAll (h : TraceInv opts x) (hidle : x.part.task = none)
    (hop : x.part.runOp opts .truncateAll = .ok s') : TraceInv opts { x with part := s' } := by
  have h₁ := h.begin hidle
  obtain ⟨t, m?, sm?, ht, -, -, -, hwal, hdeltas, -⟩ := makeCowRoot_spec opts x.part
  obtain ⟨mark, hidle', h'⟩ : ∃ mark, s'.task = none ∧
      TraceInv opts { x with part := s', mark := mark } := by
    simp only [runOp, ht] at hop
    split at hop
    · rw [← Except.ok.inj hop]
      exact ⟨_, rfl, h₁.abort ht rfl⟩
    · rw [← Except.ok.inj hop]
      have h₂ := (h₁.truncated ht hwal).commit rfl fun _ _ ↦
        (shrinks_truncated opts t).2.2.1.trans hdeltas
      refine ⟨_, ?_, h₂⟩
      have hentry := (h₁.wf.task t ht).entry
      obtain ⟨⟨m₁, sm₁⟩, hm₁⟩ := isSome_iff_exists.1
        ((isSome_mappers (x.part.makeCowRoot opts)).trans hentry)
      exact (updateMeta_spec opts
        (s := { x.part.makeCowRoot opts with task := some (Partition.truncated opts t) }) rfl
        hm₁).idle
  -- no task runs, so nothing is remembered of the ranges it found
  exact ⟨h'.wf, h'.sized, h'.disk, h'.idle, by simp [hidle']⟩

end TraceInv

/-! ### Restarts and forks -/

theorem fileOf_bumpToNextFile (shift maxFp : ℕ) :
    fileOf shift (bumpToNextFile shift maxFp) = fileOf shift maxFp + 1 := by
  rw [bumpToNextFile, fileOf, Nat.shiftLeft_shiftRight]

/-- An instance that finds no manifest starts in order. -/
theorem startNames_of_none (happ : opts.dataAppendMode = true) (branch : BranchName) (term : ℕ)
    (W : Writers) : StartNames opts (.ofBranch branch term none) W := by
  intro m? sm? hm
  have hstub : (none, none) = (m?, sm?) := some.inj hm
  obtain ⟨rfl, rfl⟩ := Prod.mk.inj hstub
  refine ⟨rangesSorted_nil, fun c ↦ ?_⟩
  cases c with
  | segment => exact .unknown
  | data =>
    refine ⟨fun m hm ↦ ?_, fun m hm ↦ ready_nil _ _ _, fun m hm q fp hq ↦ ?_,
      by simp [startOf], below_nil _,
      by simp [ofBranch, durable, tblOf],
      fun m hm ↦ Nat.zero_le _,
      fun _ ↦ Nat.zero_le _, by simp [startOf]⟩
    · cases hm
      exact ⟨⟨0, 0, by simp [PageMapper.empty, newAllocator, happ]⟩, rfl⟩
    · cases hm
      cases hq

/-- **An instance that loads a manifest starts in order** when the loaded allocators are past every
file the ranges claim. -/
theorem startNames_of_some (happ : opts.dataAppendMode = true) (branch : BranchName) {term : ℕ}
    {m : Manifest} (h : ManifestNames opts term W m)
    (hdata : lastMax (replay m).branchMetadata.fileRanges .data <
      fileOf opts.pagesPerFileShift ((replay m).dataMaxFpId opts term))
    (hseg : (replay m).getSegmentMapper opts term ≠ none →
      lastMax (replay m).branchMetadata.fileRanges .segment <
        fileOf opts.segmentsPerFileShift ((replay m).segmentMaxFpId opts term)) :
    StartNames opts (.ofBranch branch term (some m)) W := by
  intro m? sm? hm
  have hloaded : (some ((replay m).getMapper opts term), (replay m).getSegmentMapper opts term) =
      (m?, sm?) := some.inj hm
  obtain ⟨rfl, rfl⟩ := Prod.mk.inj hloaded
  refine ⟨h.sorted, fun c ↦ ?_⟩
  cases c with
  | data =>
    have hle : (replay m).maxFpId ≤ (replay m).dataMaxFpId opts term := by
      unfold dataMaxFpId
      split
      · exact bumpToNextFile_ge _ _
      · exact le_rfl
    have halloc : ((replay m).getMapper opts term).allocator = appendAllocatorOf
        opts.pagesPerFileShift ((replay m).dataMaxFpId opts term) (replay m).mappingTbl := by
      rw [getMapper, allocator_mapperOfTable, if_pos happ]
    have hstart : startOf opts (some ((replay m).getMapper opts term))
        ((replay m).getSegmentMapper opts term) .data = some ((replay m).getMapper opts term) := rfl
    rw [hstart]
    refine .ofDisk (h.cls .data) ?_ ?_ (toFilePage_mapperOfTable _ _) ?_ h.sorted ?_ (.inl rfl)
    · rw [halloc]
      exact isAppend_appendAllocatorOf _ _ _
    · rw [halloc]
      exact appendAllocatorOf_shift _ _ _
    · rw [halloc, appendAllocatorOf_maxFpId]
      exact hle
    · rw [halloc, currentFileId, appendAllocatorOf_maxFpId,
        appendAllocatorOf_shift]
      exact hdata
  | segment =>
    have hstart : startOf opts (some ((replay m).getMapper opts term))
        ((replay m).getSegmentMapper opts term) .segment =
        (replay m).getSegmentMapper opts term := rfl
    rw [hstart]
    by_cases huse : (replay m).segmentMappingTbl.length = 0 ∧ (replay m).maxSegmentFpId = 0
    · have htbl := List.length_eq_zero_iff.1 huse.1
      rw [getSegmentMapper, if_pos huse]
      simp only [ofBranch, durable, tblOf, boundOf, htbl, huse.2]
      exact .unknown
    · have hle : (replay m).maxSegmentFpId ≤ (replay m).segmentMaxFpId opts term := by
        unfold segmentMaxFpId
        split
        · exact bumpToNextFile_ge _ _
        · exact le_rfl
      have hlt := hseg (by rw [getSegmentMapper, if_neg huse]; simp)
      rw [getSegmentMapper, if_neg huse]
      refine .ofDisk (h.cls .segment) ?_ ?_ (toFilePage_mapperOfTable _ _) ?_ h.sorted ?_ (.inr ?_)
      · rw [allocator_mapperOfTable]
        exact isAppend_appendAllocatorOf _ _ _
      · rw [allocator_mapperOfTable]
        exact appendAllocatorOf_shift _ _ _
      · rw [allocator_mapperOfTable, appendAllocatorOf_maxFpId]
        exact hle
      · rw [allocator_mapperOfTable, currentFileId, appendAllocatorOf_maxFpId,
          appendAllocatorOf_shift]
        exact hlt
      · by_contra hnone
        rw [not_or, not_not, not_not] at hnone
        exact huse ⟨List.length_eq_zero_iff.2 hnone.1, hnone.2⟩

private theorem TraceInv.of_ofBranch {branch : BranchName} {term : ℕ} {manifest : Option Manifest}
    {mark : BranchFileMapping} (hsound : (durable manifest).Sound)
    (hdisk : ∀ m, manifest = some m → ManifestNames opts term W m)
    (hstart : StartNames opts (.ofBranch branch term manifest) W) :
    TraceInv opts ⟨.ofBranch branch term manifest, W, mark⟩ := by
  have hunloaded : (ofBranch branch term manifest).Unloaded := ⟨rfl, rfl, rfl, hsound⟩
  refine ⟨hunloaded.wellFormed, ⟨fun root hroot ↦ ?_, fun t ht ↦ ?_⟩, hdisk, fun _ ↦ hstart,
    fun t ht ↦ ?_⟩
  · simp [ofBranch] at hroot
  · simp [ofBranch] at ht
  · simp [ofBranch] at ht

section

variable (happ : opts.dataAppendMode = true)

include happ

/-- **A restart under a larger term keeps a run in order**, if the segment allocator moves on. -/
theorem TraceInv.restart (h : TraceInv opts x) {term : ℕ}
    (hlt : x.part.processTerm < opts.runTerm term)
    (hcareful : ∀ m ∈ x.part.manifest, (replay m).getSegmentMapper opts (opts.runTerm term) =
      none ∨ opts.cloudStorePath ≠ "") :
    TraceInv opts { x with part := x.part.restarted (opts.runTerm term) } := by
  have hmode : deriveStoreMode opts ≠ .localMode := by
    intro hlocal
    rw [KvOptions.runTerm, if_pos hlocal] at hlt
    exact absurd hlt (Nat.not_lt_zero _)
  have hpos : opts.runTerm term ≠ 0 := (Nat.lt_of_le_of_lt (Nat.zero_le _) hlt).ne'
  have hdisk : ∀ m, x.part.manifest = some m → ManifestNames opts (opts.runTerm term) x.writer m :=
    fun m hm ↦ { h.disk m hm with
      term_le := Nat.le_trans (h.disk m hm).term_le hlt.le }
  refine .of_ofBranch h.wf.durable hdisk ?_
  cases hman : x.part.manifest with
  | none => exact startNames_of_none happ _ _ _
  | some m =>
    have hm := h.disk m hman
    have hterm : (replay m).branchMetadata.term ≠ opts.runTerm term :=
      (Nat.lt_of_le_of_lt hm.term_le hlt).ne
    refine startNames_of_some happ _ (hdisk m hman) ?_ fun hsome ↦ ?_
    · rw [dataMaxFpId, if_pos ⟨happ, hmode, hpos, hterm⟩, fileOf_bumpToNextFile]
      exact Nat.lt_succ_of_le ((hm.cls .data).lastMax_le (.inl rfl))
    · have hcloud : opts.cloudStorePath ≠ "" := (hcareful m hman).resolve_left hsome
      rw [segmentMaxFpId, if_pos ⟨hcloud, hpos, hterm⟩, fileOf_bumpToNextFile]
      refine Nat.lt_succ_of_le ((hm.cls .segment).lastMax_le (.inr ?_))
      by_contra hnone
      rw [not_or, not_not, not_not] at hnone
      exact hsome (if_pos ⟨List.length_eq_zero_iff.2 hnone.1, hnone.2⟩)

/-- **A start on a forked branch keeps a run in order**: the child's data files come after every
file its parent claims, and its manifest knows of no segment. -/
theorem TraceInv.fork (h : TraceInv opts x) (hidle : x.part.task = none) (child : BranchName)
    (term : ℕ) :
    TraceInv opts ⟨.ofBranch child term (x.part.branchManifest opts child x.part.branchFileMapping),
      x.writer, x.mark⟩ := by
  cases hroot : x.part.liveRoot with
  | none =>
    have hnone : x.part.branchManifest opts child x.part.branchFileMapping = none := by
      simp [branchManifest, hroot]
    rw [hnone]
    exact .of_ofBranch ⟨below_nil _, below_nil _⟩ (by simp)
      (startNames_of_none happ _ _ _)
  | some root =>
    obtain ⟨hentry, hsome⟩ := filter_eq_some_iff.1 hroot
    obtain ⟨mapper, hmapper⟩ := isSome_iff_exists.1 hsome
    have hmanifest : x.part.branchManifest opts child x.part.branchFileMapping =
        some ⟨branchSnapshot opts child x.part.branchFileMapping root mapper, []⟩ := by
      simp [branchManifest, hroot, hmapper]
    have hm : x.part.mappers = some (some mapper, root.segmentMapper) := by
      simp [mappers, hentry, hmapper]
    obtain ⟨-, -, hm', hranges, -⟩ := makeCowRoot_of_mappers opts hm
    have hpub := h.idle hidle _ _ hm'
    rw [hranges] at hpub
    have hcls : ClassInv opts x.part.branchFileMapping x.part.owner x.writer .data (some mapper)
      _ _ := hpub.cls .data
    have hshift : mapper.allocator.shift = opts.pagesPerFileShift := (hcls.allocator mapper rfl).2
    have hlast : lastMax x.part.branchFileMapping .data ≤ mapper.allocator.currentFileId :=
      (hcls.ready mapper rfl).lastMax_le
    -- the child's maximum opens the file after the parent's current one
    have hfile : fileOf opts.pagesPerFileShift
        ((mapper.allocator.currentFileId + 1) <<< opts.pagesPerFileShift) =
          mapper.allocator.currentFileId + 1 := by
      rw [fileOf, Nat.shiftLeft_shiftRight]
    have hbelow : mapper.tbl.Below
        ((mapper.allocator.currentFileId + 1) <<< opts.pagesPerFileShift) := by
      have hbump := bumpToNextFile_ge opts.pagesPerFileShift mapper.allocator.maxFpId
      rw [bumpToNextFile, ← hshift] at hbump
      refine Below.mono (hcls.below mapper rfl) ?_
      rw [← hshift]
      exact hbump
    set m : Manifest := ⟨branchSnapshot opts child x.part.branchFileMapping root mapper, []⟩
    have hnames : ManifestNames opts term x.writer m := by
      refine ⟨hpub.sorted, Nat.zero_le _, fun c ↦ ?_⟩
      cases c with
      | data =>
        refine ⟨hbelow, hcls.found, fun _ ↦ ?_⟩
        have hle : lastMax x.part.branchFileMapping .data ≤ fileOf opts.pagesPerFileShift
            ((mapper.allocator.currentFileId + 1) <<< opts.pagesPerFileShift) := by
          rw [hfile]
          exact Nat.le_succ_of_le hlast
        exact hle
      | segment =>
        refine ⟨below_nil _, fun q fp hq ↦ absurd hq ?_, fun huse ↦ absurd huse ?_⟩
        · simp [m, replay, deserializeSnapshot, branchSnapshot, tblOf]
        · simp [m, replay, deserializeSnapshot, branchSnapshot, tblOf, boundOf]
    rw [hmanifest]
    refine .of_ofBranch ⟨hbelow, below_nil _⟩
      (fun m' hm' ↦ some.inj hm' ▸ hnames) ?_
    refine startNames_of_some happ child hnames ?_ fun hne ↦ absurd rfl hne
    have hmax : (replay m).maxFpId =
      (mapper.allocator.currentFileId + 1) <<< opts.pagesPerFileShift := rfl
    have hgoal : lastMax x.part.branchFileMapping .data <
        fileOf opts.pagesPerFileShift ((replay m).dataMaxFpId opts term) := by
      rw [dataMaxFpId]
      split
      · rw [fileOf_bumpToNextFile, hmax, hfile]
        exact Nat.lt_succ_of_le (Nat.le_succ_of_le hlast)
      · rw [hmax, hfile]
        exact Nat.lt_succ_of_le hlast
    exact hgoal

/-! ### Whole runs -/

theorem TraceInv.fresh (branch : BranchName) (term : ℕ) :
    TraceInv opts (.fresh branch term) :=
  .of_ofBranch ⟨below_nil _, below_nil _⟩ (by simp)
    (startNames_of_none happ branch term _)

/-- **Every careful event keeps a run in order.** -/
theorem TraceInv.event {e : TraceEvent} (h : TraceInv opts x) (hcareful : e.Careful opts x)
    (hrun : e.run opts x = some y) : TraceInv opts y := by
  cases e with
  | begin =>
    obtain ⟨hidle, rfl⟩ := ite_some_none_eq_some.1 hrun
    exact h.begin hidle
  | step a =>
    obtain ⟨s', hs', rfl⟩ := map_eq_some_iff.1 hrun
    have hstep := ok_of_toOption hs'
    obtain ⟨t, ht, -⟩ := taskStep_ok hstep
    have hinv := h.step ht hstep hcareful
    rwa [← bind_some (f := a.allocation), ← ht] at hinv
  | commit =>
    obtain ⟨s', hs', rfl⟩ := map_eq_some_iff.1 hrun
    have hcommit := ok_of_toOption hs'
    obtain ⟨t, ht, -, rfl⟩ := commit_ok hcommit
    exact h.commit ht (hcareful t ht)
  | abort =>
    obtain ⟨hsome, hrun⟩ := ite_none_left_eq_some.1 hrun
    obtain ⟨t, ht⟩ := ne_none_iff_exists'.1 hsome
    cases hrun
    exact h.abort ht hcareful
  | truncateAll =>
    obtain ⟨hidle, hrun⟩ := ite_none_right_eq_some.1 hrun
    obtain ⟨s', hs', rfl⟩ := map_eq_some_iff.1 hrun
    exact h.truncateAll hidle (ok_of_toOption hs')
  | restart term =>
    obtain ⟨hlt, rfl⟩ := ite_some_none_eq_some.1 hrun
    exact h.restart happ hlt hcareful
  | fork child term =>
    obtain ⟨hidle, rfl⟩ := ite_some_none_eq_some.1 hrun
    exact h.fork happ hidle.1 child (opts.runTerm term)

end

/-- What is published is what a task would start from. -/
theorem startOf_of_liveMapper (opts : KvOptions) {s : Partition} {m? sm? : Option PageMapper}
    (hm : s.mappers = some (m?, sm?)) {q fp : ℕ} (hq : denote (s.liveMapper c) q = some fp) :
    denote (startOf opts m? sm? c) q = some fp := by
  obtain ⟨hdata, hseg⟩ := liveMapper_of_mappers hm
  cases c with
  | data =>
    rw [hdata] at hq
    obtain ⟨m, rfl, hq⟩ := bind_eq_some_iff.1 hq
    exact hq
  | segment =>
    rw [hseg] at hq
    exact hq

/-- The published pages of a run in order are found where they were written. -/
theorem TraceInv.found (h : TraceInv opts x) {q fp : ℕ}
    (hq : denote (x.part.liveMapper c) q = some fp) :
    FoundAt opts x.writer x.part.branchFileMapping c fp := by
  cases hm : x.part.mappers with
  | none =>
    rw [liveMapper_of_none hm] at hq
    cases hq
  | some p =>
    obtain ⟨m?, sm?⟩ := p
    have hstart := startOf_of_liveMapper opts hm hq
    cases ht : x.part.task with
    | none =>
      obtain ⟨-, -, hm', hranges, -⟩ := makeCowRoot_of_mappers opts hm
      have hpub := h.idle ht m? sm? hm'
      rw [hranges] at hpub
      exact (hpub.cls c).found q fp hstart
    | some t =>
      have hrun := h.running t ht
      exact (((hrun.published m? sm? hm).cls c).found q fp hstart).mono hrun.extend

/-- **Files are found under the names they were written with.** In append mode, in every careful run
of a partition: what a running task allocates resolves, through the ranges as the allocation leaves
them, to the branch and term it runs under, and every page of the published root resolves to the
branch and term that wrote it. -/
theorem pages_found_where_written (opts : KvOptions) (happ : opts.dataAppendMode = true)
    {branch : BranchName} {term : ℕ} {x : Traced}
    (hrun : Traces opts (TraceEvent.Careful opts) (.fresh branch term) x) :
    (∀ t a s' c fp, x.part.task = some t → x.part.taskStep opts a = .ok s' →
      a.allocation t = some (c, fp) →
      getBranchNameAndTerm s'.branchFileMapping ⟨c, fileOf (opts.shift c) fp⟩ =
        some x.part.owner) ∧
    ∀ c q fp, denote (x.part.liveMapper c) q = some fp →
      ∃ w, x.writer c fp = some w ∧
        getBranchNameAndTerm x.part.branchFileMapping ⟨c, fileOf (opts.shift c) fp⟩ = some w := by
  have h : TraceInv opts x :=
    hrun.invariant (TraceInv opts) (.fresh happ branch term)
      fun hx hcareful hstep ↦ hx.event happ hcareful hstep
  refine ⟨fun t a s' c fp ht hstep ha ↦ ?_, fun c q fp hq ↦ h.found hq⟩
  -- a step that allocates creates no mapper
  have hcreate : a = .ensureSegmentMapper → t.cow.segmentMapper = none →
      SegmentsUnclaimed x.part.branchFileMapping x.part.owner := by
    rintro rfl
    simp [TaskStep.allocation] at ha
  obtain ⟨t', -, hnext⟩ :=
    (h.running t ht).names.step ht hstep hcreate
  exact hnext.own c fp ha

/-- Append mode with an object store, files of two pages and of two segments. -/
def cloudOptions : KvOptions := ⟨true, 1, 1, 1000000, 2, 2, false, "", "bucket"⟩

/-- A write of a segment and two pages, a restart under term 2, a write of both classes, and a fork
with a write of its own. -/
def carefulRun : List TraceEvent :=
  [.begin, .step .ensureSegmentMapper, .step (.allocateSegment none), .step (.allocatePage none),
    .step (.allocatePage none), .step (.setRoots (some 1) none 0), .commit,
    .restart 2, .begin, .step (.allocateSegment none), .step (.allocatePage (some 0)), .commit,
    .fork "dev" 0, .begin, .step (.allocatePage (some 1)), .commit]

/-- The run above ends with pages of two writers, each found under its writer's name. -/
theorem pages_found_after_carefulRun : ∃ x,
    Traces cloudOptions (TraceEvent.Careful cloudOptions) (.fresh "main" 1) x ∧
      x.part.owner = ⟨"dev", 0⟩ ∧ denote (x.part.liveMapper .data) 0 = some 4 ∧
      denote (x.part.liveMapper .data) 1 = some 6 ∧
      x.writer .data 4 = some ⟨"main", 2⟩ ∧ x.writer .data 6 = some ⟨"dev", 0⟩ ∧
      ∀ c q fp, denote (x.part.liveMapper c) q = some fp → ∃ w, x.writer c fp = some w ∧
        getBranchNameAndTerm x.part.branchFileMapping ⟨c, fileOf (cloudOptions.shift c) fp⟩ =
          some w := by
  obtain ⟨x, hrun, howner, h₀, h₁, hw₀, hw₁⟩ : ∃ x,
      Traces cloudOptions (TraceEvent.Careful cloudOptions) (.fresh "main" 1) x ∧
      x.part.owner = ⟨"dev", 0⟩ ∧
      denote (x.part.liveMapper .data) 0 = some 4 ∧ denote (x.part.liveMapper .data) 1 = some 6 ∧
      x.writer .data 4 = some ⟨"main", 2⟩ ∧ x.writer .data 6 = some ⟨"dev", 0⟩ :=
    exists_reach_of_exec carefulRun (by decide)
  exact ⟨x, hrun, howner, h₀, h₁, hw₀, hw₁, (pages_found_where_written cloudOptions rfl hrun).2⟩

/-- **The first segment after a restart is misnamed.** Under term 1 a page is written and no
segment. Under term 2 the first segment goes to segment file 0 of term 2, which the ranges resolve
to term 1: the range of term 1 carries the default segment maximum 0. -/
theorem first_segment_misnamed : ∃ x t s',
    Traces cloudOptions (fun _ _ ↦ True) (.fresh "main" 1) x ∧ x.part.task = some t ∧
      x.part.owner = ⟨"main", 2⟩ ∧ x.part.taskStep cloudOptions (.allocateSegment none) = .ok s' ∧
      (TaskStep.allocateSegment none).allocation t = some (.segment, 0) ∧
      getBranchNameAndTerm s'.branchFileMapping ⟨.segment, fileOf (cloudOptions.shift .segment) 0⟩ =
        some ⟨"main", 1⟩ := by
  obtain ⟨x, hrun, howner, t, ht, s', hs', halloc, hres⟩ : ∃ x,
      Traces cloudOptions (fun _ _ ↦ True) (.fresh "main" 1) x ∧ x.part.owner = ⟨"main", 2⟩ ∧
      ∃ t ∈ x.part.task, ∃ s' ∈ (x.part.taskStep cloudOptions (.allocateSegment none)).toOption,
      (TaskStep.allocateSegment none).allocation t = some (.segment, 0) ∧
      getBranchNameAndTerm s'.branchFileMapping ⟨.segment, fileOf (cloudOptions.shift .segment) 0⟩ =
      some ⟨"main", 1⟩ :=
    exists_reach_of_exec
      [.begin, .step (.allocatePage none), .step (.setRoots (some 0) none 0), .commit, .restart 2,
        .begin, .step .ensureSegmentMapper] (by decide)
  exact ⟨x, t, s', hrun, ht, howner, ok_of_toOption hs', halloc, hres⟩

end EloqStore
