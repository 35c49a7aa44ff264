import EloqStore.Gc.Collector
import EloqStore.Partition.ProvenanceRuns

/-!
# What a commit changes for a collector

A collector reads the manifests of other branches while their instances go on writing, so it may see
one manifest of a branch where a later one holds when it deletes. What makes that safe is that a
commit refers to little that is new (`Succeeds`): **the files of the new manifest are files of the
old one, or files of the committing instance at or above the maximum the old manifest recorded**,
and the ranges of all other writers are the old ones.

The proof follows a task along the runs of `TraceEvent`. Everything its copy maps is mapped by the
manifest with the task's changes appended; everything that maps is mapped by the manifest already,
or was allocated by the task, above the maximum recorded (`Committing`).
-/

namespace EloqStore

open MappingTbl Option EloqStore.Partition Replayer Transition WriteTask

/-! ### The files a manifest refers to -/

/-- The file ranges a replay gives. -/
def Replayer.ranges (r : Replayer) : BranchFileMapping := r.branchMetadata.fileRanges

def Replayer.files (opts : KvOptions) (r : Replayer) : List FileName :=
  getRetainedFiles opts .data r.mappingTbl r.ranges ++
    getRetainedFiles opts .segment r.segmentMappingTbl r.ranges

theorem Replayer.mem_files {opts : KvOptions} {r : Replayer} {f : FileName} :
    f ∈ r.files opts ↔
      ∃ c q fp, (r.tblOf c).toFilePage q = some fp ∧ pageFile opts r.ranges c fp = some f := by
  rw [files, List.mem_append, mem_getRetainedFiles, mem_getRetainedFiles]
  constructor
  · rintro (⟨q, fp, hq, hf⟩ | ⟨q, fp, hq, hf⟩)
    · exact ⟨.data, q, fp, hq, hf⟩
    · exact ⟨.segment, q, fp, hq, hf⟩
  · rintro ⟨c, q, fp, hq, hf⟩
    cases c with
    | data => exact .inl ⟨q, fp, hq, hf⟩
    | segment => exact .inr ⟨q, fp, hq, hf⟩

variable {c : FileClass} {taken : ℕ → Prop}

theorem pageFile_eq_some {opts : KvOptions} {ranges : BranchFileMapping} {fp : ℕ} {f : FileName} :
    pageFile opts ranges c fp = some f ↔
      f.fid = ⟨c, fileOf (opts.shift c) fp⟩ ∧ getBranchNameAndTerm ranges f.fid = some f.owner := by
  rw [pageFile, map_eq_some_iff]
  constructor
  · rintro ⟨o, ho, rfl⟩
    exact ⟨rfl, ho⟩
  · rintro ⟨hfid, ho⟩
    exact ⟨f.owner, hfid ▸ ho, by rw [← hfid]⟩

/-- **One manifest succeeds another** of the same writer. -/
structure Succeeds (opts : KvOptions) (w : Owner) (r r' : Replayer) : Prop where
  /-- It refers to the same files, or to the writer's own from the recorded maximum on. -/
  files : ∀ f ∈ r'.files opts, f ∈ r.files opts ∨
    f.owner = w ∧ lastMax r.ranges f.fid.cls ≤ f.fid.fileId
  /-- The ranges of other writers are the old ones. -/
  others : ∀ b ∈ r'.ranges, b.owner ≠ w → b ∈ r.ranges
  grows : ∀ c, lastMax r.ranges c ≤ lastMax r'.ranges c

theorem Succeeds.refl (opts : KvOptions) (w : Owner) (r : Replayer) : Succeeds opts w r r where
  files _ hf := .inl hf
  others _ hb _ := hb
  grows _ := le_rfl

/-! ### What a step changes in a class -/

/-- The change of one class by a step that takes the file pages `taken`: of the copy's mapper, and
of the changes recorded. -/
inductive ClassChange (taken : ℕ → Prop) (m? m?' : Option PageMapper)
    (ds ds' : List (ℕ × MappingValue)) : Prop
  | take (m : PageMapper) (page : ℕ) (hm : m? = some m) (htaken : taken m.allocator.allocate.1)
      (hmap : ∀ q, denote m?' q =
        if q = page then some m.allocator.allocate.1 else denote m? q)
      (hds : ds' = ds ++ [(page, .filePageId m.allocator.allocate.1)])
  | free (page : ℕ) (hmap : ∀ q, denote m?' q = if q = page then none else denote m? q)
      (hds : ds' = ds ++ [(page, .invalid)])
  /-- Nothing new is mapped, and nothing is recorded. -/
  | keep (hmap : ∀ q fp, denote m?' q = some fp → denote m? q = some fp) (hds : ds' = ds)

theorem ClassChange.nil_of_nil {m? m?' : Option PageMapper} {ds ds' : List (ℕ × MappingValue)}
    (h : ClassChange taken m? m?' ds ds') (hnil : ds' = []) : ds = [] := by
  rcases h with ⟨_, _, _, _, _, hds⟩ | ⟨_, _, hds⟩ | ⟨_, hds⟩
  · exact absurd (hds.symm.trans hnil) (by simp)
  · exact absurd (hds.symm.trans hnil) (by simp)
  · exact hds.symm.trans hnil

/-- What a step does. -/
structure StepChange (s s' : Partition) (t t' : WriteTask) (a : TaskStep) : Prop where
  cls : ∀ c, ClassChange (fun fp ↦ a.allocation t = some (c, fp)) (t.mapperOf c) (t'.mapperOf c)
    (t.deltasOf c) (t'.deltasOf c)
  /-- To the ranges: nothing, or an allocation is recorded there and among the changes. -/
  ranges : s'.branchFileMapping = s.branchFileMapping ∨
    ∃ c m check, t.mapperOf c = some m ∧ t'.deltasOf c ≠ [] ∧
      stampFiles s.branchFileMapping c s.owner check m.allocator.currentFileId
        m.allocator.allocate.2.currentFileId = some s'.branchFileMapping

variable {opts : KvOptions} {s s' : Partition} {t t' : WriteTask}

theorem StepChange.of_step {a : TaskStep} (ht : s.task = some t)
    (hstep : s.taskStep opts a = .ok s') : ∃ t', s'.task = some t' ∧ StepChange s s' t t' a := by
  obtain ⟨t', ht', hc⟩ := taskStep_change ht hstep
  refine ⟨t', ht', fun c ↦ ?_, hc.ranges.imp id fun ⟨c, m, check, _, hrest⟩ ↦ ⟨c, m, check, hrest⟩⟩
  cases ClassStep.of_change hc c with
  | same hm hd => exact .keep (fun q fp hq ↦ hm ▸ hq) hd
  | create _ _ _ hm' hd =>
    refine .keep (fun q fp hq ↦ ?_) hd
    rw [hm'] at hq
    cases hq
  | shrink hm hm' hs hd => exact .keep (by rw [hm, hm']; exact hs.map) hd
  | free page hm hm' hd =>
    exact .free page (by rw [hm, hm']; exact PageMapper.toFilePage_freePage _ page) hd
  | take page? htake hm hm' hd =>
    exact .take _ _ hm htake (by rw [hm, hm']; exact toFilePage_allocated _ page?) hd

/-! ### A task on its way to a commit -/

/-- Everything the mappers map, the manifest maps. -/
def Within (r : Replayer) (mapper : FileClass → Option PageMapper) : Prop :=
  ∀ c q fp, denote (mapper c) q = some fp → (r.tblOf c).toFilePage q = some fp

/-- A running task, as the manifest it will write depends on it. -/
structure Committing (opts : KvOptions) (x : Traced) (t : WriteTask) : Prop where
  mark : x.mark = (durable x.part.manifest).ranges
  /-- The root it was copied from maps what the manifest maps. -/
  published : ∀ m? sm?, x.part.mappers = some (m?, sm?) →
    Within (durable x.part.manifest) (startOf opts m? sm?)
  /-- The copy maps what the manifest maps with the task's changes appended. -/
  within : ∀ c q fp, denote (t.mapperOf c) q = some fp →
    (t.applied (durable x.part.manifest) c).1.toFilePage q = some fp
  /-- That is mapped already, or was written by the task from the recorded maximum on. -/
  origin : ∀ c q fp, (t.applied (durable x.part.manifest) c).1.toFilePage q = some fp →
    (∃ q', ((durable x.part.manifest).tblOf c).toFilePage q' = some fp) ∨
      x.writer c fp = some x.part.owner ∧ lastMax x.mark c ≤ fileOf (opts.shift c) fp
  /-- The ranges of other writers are as they were found. -/
  others : ∀ b ∈ x.part.branchFileMapping, b.owner ≠ x.part.owner → b ∈ x.mark
  grows : ∀ c, lastMax x.mark c ≤ lastMax x.part.branchFileMapping c
  /-- Without a change there is no new range. -/
  untouched : (∀ c, t.deltasOf c = []) → x.part.branchFileMapping = x.mark

/-- **What is in memory follows the manifest**, between tasks and during them. -/
structure CommitInv (opts : KvOptions) (x : Traced) : Prop where
  ranges : x.part.task = none →
    (x.part.makeCowRoot opts).branchFileMapping = (durable x.part.manifest).ranges
  /-- What a task would start from maps what the manifest maps. -/
  published : x.part.task = none → ∀ m? sm?, (x.part.makeCowRoot opts).mappers = some (m?, sm?) →
    Within (durable x.part.manifest) (startOf opts m? sm?)
  running : ∀ t, x.part.task = some t → Committing opts x t

/-- **What an event of a running instance leads to.** -/
structure WriteEffect (opts : KvOptions) (x y : Traced) : Prop where
  commits : CommitInv opts y
  owner : y.part.owner = x.part.owner
  succeeds : Succeeds opts x.part.owner (durable x.part.manifest) (durable y.part.manifest)
  kept : x.part.manifest ≠ none → y.part.manifest ≠ none
  /-- A cached root stays, and what its ranges resolve stays resolved. -/
  cached : x.part.mappers ≠ none → y.part.mappers ≠ none ∧
    Extends x.part.branchFileMapping y.part.branchFileMapping

theorem Writers.after_of_eq {W : Writers} {fp : ℕ} {w : Owner} (h : W c fp = some w)
    (taken : Option (FileClass × ℕ)) : W.after w taken c fp = some w := by
  rcases taken with _ | ⟨c', fp'⟩
  · exact h
  · rw [Writers.after, Writers.record]
    split
    · rfl
    · exact h

namespace CommitInv

variable {x : Traced}

/-- What an instance that has just started knows is what its manifest says. -/
theorem ofBranch (opts : KvOptions) (branch : BranchName) (term : ℕ) (manifest : Option Manifest)
    (W : Writers) (mark : BranchFileMapping) :
    CommitInv opts ⟨.ofBranch branch term manifest, W, mark⟩ := by
  cases manifest with
  | none =>
    refine ⟨fun _ ↦ rfl, fun _ m? sm? hm c q fp hq ↦ ?_, by simp [Partition.ofBranch]⟩
    have hstub : (none, none) = (m?, sm?) := Option.some.inj hm
    obtain ⟨rfl, rfl⟩ := Prod.mk.inj hstub
    cases c <;> simp [startOf] at hq
  | some m =>
    refine ⟨fun _ ↦ rfl, fun _ m? sm? hm c q fp hq ↦ ?_, by simp [Partition.ofBranch]⟩
    have hloaded : (some ((replay m).getMapper opts term), (replay m).getSegmentMapper opts term) =
        (m?, sm?) := Option.some.inj hm
    obtain ⟨rfl, rfl⟩ := Prod.mk.inj hloaded
    cases c with
    | data => exact (toFilePage_mapperOfTable _ _ q).symm.trans hq
    | segment => exact (denote_getSegmentMapper _ opts term q).symm.trans hq

/-- **A task starts from the manifest.** -/
theorem begin (h : CommitInv opts x) (hidle : x.part.task = none) :
    CommitInv opts { x with
      part := x.part.makeCowRoot opts
      mark := (x.part.makeCowRoot opts).branchFileMapping } := by
  obtain ⟨-, -, hman, -, -, -⟩ := makeCowRoot_frame opts x.part
  obtain ⟨t, m?, sm?, ht, hm, hmap, hseg, hwal, hdeltas, -⟩ :=
    makeCowRoot_spec opts x.part
  have hmapper : ∀ c, t.mapperOf c = startOf opts m? sm? c := fun c ↦ by
    cases c with
    | data => exact congrArg some hmap
    | segment => exact hseg
  have hnil : ∀ c, t.deltasOf c = [] := fun c ↦ by cases c <;> assumption
  have hpub := h.published hidle m? sm? hm
  refine ⟨by simp [ht], by simp [ht], fun t' ht' ↦ ?_⟩
  cases ht.symm.trans ht'
  refine ⟨?_, fun m₁ sm₁ hm₁ ↦ ?_, fun c q fp hq ↦ ?_, fun c q fp hq ↦ .inl ⟨q, ?_⟩,
    fun b hb _ ↦ hb, fun c ↦ le_rfl, fun _ ↦ rfl⟩
  · exact (h.ranges hidle).trans (by rw [← hman])
  · cases hm.symm.trans hm₁
    rw [hman]
    exact hpub
  · rw [applied_of_nil (hnil c), hman]
    exact hpub c q fp (hmapper c ▸ hq)
  · rwa [applied_of_nil (hnil c)] at hq

section

variable {r : Replayer}
    (h : ClassChange taken (t.mapperOf c) (t'.mapperOf c) (t.deltasOf c) (t'.deltasOf c)) {q fp : ℕ}

include h

/-- What a step maps, with the task's changes appended: mapped before, or taken by the step. -/
private theorem toFilePage_applied (hq : (t'.applied r c).1.toFilePage q = some fp) :
    (t.applied r c).1.toFilePage q = some fp ∨
      ∃ m, t.mapperOf c = some m ∧ fp = m.allocator.allocate.1 ∧ taken fp := by
  rcases h with ⟨m, page, hm, htaken, _, hds⟩ | ⟨page, _, hds⟩ | ⟨_, hds⟩
  · rw [applied, hds, applyDeltas_concat, toFilePage_put] at hq
    split at hq
    · obtain rfl : m.allocator.allocate.1 = fp := some.inj hq
      exact .inr ⟨m, hm, rfl, htaken⟩
    · exact .inl hq
  · rw [applied, hds, applyDeltas_concat, toFilePage_put] at hq
    split at hq
    · simp [MappingValue.filePage?] at hq
    · exact .inl hq
  · rw [applied, hds] at hq
    exact .inl hq

/-- The copy stays within the manifest with the task's changes appended. -/
private theorem within_applied
    (hold : ∀ q fp, denote (t.mapperOf c) q = some fp → (t.applied r c).1.toFilePage q = some fp)
    (hq : denote (t'.mapperOf c) q = some fp) :
    (t'.applied r c).1.toFilePage q = some fp := by
  rcases h with ⟨m, page, _, _, hmap, hds⟩ | ⟨page, hmap, hds⟩ | ⟨hmap, hds⟩
  · rw [hmap] at hq
    rw [applied, hds, applyDeltas_concat, toFilePage_put]
    split at hq
    · next hpage => rw [if_pos hpage]; exact hq
    · next hpage => rw [if_neg hpage]; exact hold q fp hq
  · rw [hmap] at hq
    rw [applied, hds, applyDeltas_concat, toFilePage_put]
    obtain ⟨hpage, hq⟩ := ite_none_left_eq_some.1 hq
    rw [if_neg hpage]; exact hold q fp hq
  · rw [applied, hds]
    exact hold q fp (hmap q fp hq)

end

/-- **A step keeps a task on its way.** -/
theorem step {a : TaskStep} (h : CommitInv opts x) (hinv : TraceInv opts x)
    (ht : x.part.task = some t) (hstep : x.part.taskStep opts a = .ok s') :
    CommitInv opts
      { x with part := s', writer := x.writer.after x.part.owner (a.allocation t) } := by
  have hold := h.running t ht
  have hnames := (hinv.running t ht).names
  obtain ⟨hmap, hman, -, howner⟩ := taskStep_frame hstep
  obtain ⟨t', ht', hchange⟩ := StepChange.of_step ht hstep
  -- a file page is taken in a file the found ranges do not reach beyond
  have hahead : ∀ c m, t.mapperOf c = some m → lastMax x.mark c ≤ m.allocator.currentFileId :=
    fun c m hm ↦ (hold.grows c).trans ((hnames.cls c).ready m hm).lastMax_le
  refine ⟨by simp [ht'], by simp [ht'], fun t₁ ht₁ ↦ ?_⟩
  cases ht'.symm.trans ht₁
  refine ⟨?_, fun m? sm? hm ↦ ?_, fun c q fp hq ↦ ?_, fun c q fp hq ↦ ?_, fun b hb hne ↦ ?_,
    fun c ↦ ?_, fun hnil ↦ ?_⟩
  · rw [hman]
    exact hold.mark
  · rw [hman]
    exact hold.published m? sm? (hmap ▸ hm)
  · rw [hman]
    exact within_applied (hchange.cls c) (hold.within c) hq
  · rw [hman] at hq ⊢
    rw [howner]
    rcases toFilePage_applied (hchange.cls c) hq with hq | ⟨m, hm, rfl, htaken⟩
    · refine (hold.origin c q fp hq).imp id fun ⟨hw, hle⟩ ↦ ⟨Writers.after_of_eq hw _, hle⟩
    · obtain ⟨happ, hshift⟩ := (hnames.cls c).allocator m hm
      refine .inr ⟨?_, ?_⟩
      · rw [show a.allocation t = some (c, m.allocator.allocate.1) from htaken]
        exact Writers.record_self _ _ _ _
      · rw [happ.allocate_eq, ← hshift]
        exact hahead c m hm
  · rw [howner] at hne
    rcases hchange.ranges with heq | ⟨c, m, check, hm, -, hst⟩
    · exact hold.others b (heq ▸ hb) hne
    · exact hold.others b (mem_of_mem_stampFiles hst hb hne) hne
  · rcases hchange.ranges with heq | ⟨c', m, check, hm, -, hst⟩
    · rw [heq]
      exact hold.grows c
    · exact (hold.grows c).trans (lastMax_le_stampFiles
        ((hnames.cls c').ready m hm).lastMax_le m.allocator.currentFileId_le_allocate hst c)
  · rcases hchange.ranges with heq | ⟨c, m, check, hm, hne, -⟩
    · rw [heq]
      exact hold.untouched fun c ↦ (hchange.cls c).nil_of_nil (hnil c)
    · exact absurd (hnil c) hne

/-- **An abort that has recorded no file** leaves the root as the manifest has it. -/
theorem abort (h : CommitInv opts x) (hinv : TraceInv opts x) (ht : x.part.task = some t)
    (hcareful : x.part.branchFileMapping = x.mark) :
    CommitInv opts { x with part := x.part.abort } := by
  have hold := h.running t ht
  obtain ⟨m?, sm?, hm⟩ := exists_mappers (hinv.wf.task t ht).entry
  obtain ⟨t', -, hm', hranges, -⟩ :=
    makeCowRoot_of_mappers (s := x.part.abort) opts hm
  refine ⟨fun _ ↦ ?_, fun _ m₁ sm₁ hm₁ ↦ ?_, by simp [Partition.abort]⟩
  · exact hranges.trans (hcareful.trans hold.mark)
  · cases hm'.symm.trans hm₁
    exact hold.published m? sm? hm

/-- The manifest after a flush: the ranges in memory, everything the copy maps, and nothing but the
manifest with the task's changes appended. -/
private theorem flushed (hold : Committing opts x t) (hs : x.part.Sized) (ht : x.part.task = some t)
    (hcareful : t.walBuilder = [] → needEmptySnapshot t = false →
      t.segMappingDeltas = []) :
    (durable (x.part.flushManifest opts t).manifest).ranges = x.part.branchFileMapping ∧
      Within (durable (x.part.flushManifest opts t).manifest) t.mapperOf ∧
      ∀ c q fp, ((durable (x.part.flushManifest opts t).manifest).tblOf c).toFilePage q = some fp →
        (t.applied (durable x.part.manifest) c).1.toFilePage q = some fp := by
  rcases flushManifest_cases opts (hs.task t ht) with ⟨heq, hwal, hempty⟩ | ⟨m, hm, hlog | hsnap⟩
  · -- nothing is written, and nothing was recorded
    have hnil : ∀ c, t.deltasOf c = [] := by
      intro c
      cases c with
      | data => exact hwal
      | segment => exact hcareful hwal hempty
    rw [heq]
    refine ⟨(hold.mark.symm.trans (hold.untouched hnil).symm), fun c q fp hq ↦ ?_,
      fun c q fp hq ↦ ?_⟩
    · have hin := hold.within c q fp hq
      rwa [applied_of_nil (hnil c)] at hin
    · rwa [applied_of_nil (hnil c)]
  · rw [hm, durable, hlog]
    refine ⟨rfl, fun c q fp hq ↦ ?_, fun c q fp hq ↦ ?_⟩
    · have hin := hold.within c q fp hq
      cases c <;> exact hin
    · cases c <;> exact hq
  · rw [hm, durable, hsnap]
    have hsame : ∀ c q, ((deserializeSnapshot (x.part.snapshotOf t)).tblOf c).toFilePage q =
        denote (t.mapperOf c) q := by
      intro c q
      cases c with
      | data => rfl
      | segment =>
        simp only [mapperOf, tblOf, deserializeSnapshot, snapshotOf]
        cases t.cow.segmentMapper <;> rfl
    exact ⟨rfl, fun c q fp hq ↦ (hsame c q).trans hq,
      fun c q fp hq ↦ hold.within c q fp ((hsame c q).symm.trans hq)⟩

theorem commit (h : CommitInv opts x) (hinv : TraceInv opts x) (ht : x.part.task = some t)
    (hcareful : t.walBuilder = [] → needEmptySnapshot t = false →
      t.segMappingDeltas = []) :
    WriteEffect opts x { x with part := x.part.updateMeta opts t } := by
  have hold := h.running t ht
  have hrun := hinv.running t ht
  obtain ⟨m?, sm?, hm⟩ := exists_mappers (hinv.wf.task t ht).entry
  have hc := updateMeta_spec opts ht hm
  have hmap := hc.mappers
  rw [(hinv.wf.task t ht).or_segmentMapper hm] at hmap
  obtain ⟨hranges, hwithin, happlied⟩ := flushed hold hinv.sized ht hcareful
  obtain ⟨t', -, hm', hranges', -⟩ := makeCowRoot_of_mappers opts hmap
  have hkept : x.part.manifest ≠ none → (x.part.updateMeta opts t).manifest ≠ none := by
    rw [hc.manifest]
    rcases flushManifest_cases opts (hinv.sized.task t ht) with ⟨heq, -⟩ | ⟨m, hm', -⟩
    · rw [heq]
      exact id
    · simp [hm']
  rw [← hc.manifest] at hranges hwithin happlied
  refine ⟨⟨fun _ ↦ hranges'.trans (hc.ranges.trans hranges.symm), fun _ m₁ sm₁ hm₁ ↦ ?_,
    by simp [hc.idle]⟩, hc.owner,
    ⟨fun f hf ↦ ?_, fun b hb hne ↦ ?_, fun c ↦ ?_⟩, hkept,
    fun _ ↦ ⟨by simp [hmap], fun fid o ho ↦ hc.ranges ▸ ho⟩⟩
  · cases hm'.symm.trans hm₁
    intro c q fp hq
    refine hwithin c q fp ?_
    cases c <;> exact hq
  · obtain ⟨c, q, fp, hq, hpage⟩ := mem_files.1 hf
    obtain ⟨hfid, hres⟩ := pageFile_eq_some.1 hpage
    rw [hranges] at hres
    have happ := happlied c q fp hq
    rcases hold.origin c q fp happ with ⟨q', hq'⟩ | ⟨hw, hle⟩
    · -- the page is an old one, and its file has kept its name
      refine .inl (mem_files.2 ⟨c, q', fp, hq', pageFile_eq_some.2 ⟨hfid, ?_⟩⟩)
      cases hman : x.part.manifest with
      | none =>
        rw [hman] at hq'
        cases c <;> simp [durable, tblOf] at hq'
      | some m =>
        rw [hman] at hq'
        obtain ⟨w, -, hfound⟩ := ((hinv.disk m hman).cls c).found q' fp hq'
        have hmark : getBranchNameAndTerm x.mark f.fid = some w := by
          rw [hold.mark, hman, hfid]
          exact hfound
        cases (hrun.extend _ _ hmark).symm.trans hres
        rw [hfid]
        exact hfound
    · -- the page is the task's own
      obtain ⟨w, hw', hfound⟩ := (hrun.names.cls c).tblFound q fp happ
      cases hw'.symm.trans hw
      rw [hfid] at hres ⊢
      refine .inr ⟨some.inj (hres.symm.trans hfound), ?_⟩
      rw [← hold.mark]
      exact hle
  · rw [hranges] at hb
    exact hold.mark ▸ hold.others b hb hne
  · rw [hranges, ← hold.mark]
    exact hold.grows c

/-- A task that has just begun may empty its copy. -/
private theorem truncated (h : CommitInv opts x) (ht : x.part.task = some t)
    (hnil : ∀ c, t.deltasOf c = []) :
    CommitInv opts { x with
      part := { x.part with task := some (truncated opts t) } } := by
  have hold := h.running t ht
  obtain ⟨hshrink, hseg, hdeltas, -⟩ := TraceInv.shrinks_truncated opts t
  have hnil' : ∀ c, (Partition.truncated opts t).deltasOf c = [] := by
    intro c
    cases c with
    | data => rfl
    | segment => exact hdeltas.trans (hnil .segment)
  have happlied : ∀ c, (Partition.truncated opts t).applied (durable x.part.manifest) c =
      t.applied (durable x.part.manifest) c := fun c ↦ by
    rw [WriteTask.applied_of_nil (hnil c), WriteTask.applied_of_nil (hnil' c)]
  refine ⟨by simp, by simp, fun t' ht' ↦ ?_⟩
  obtain rfl : Partition.truncated opts t = t' := Option.some.inj ht'
  refine ⟨hold.mark, hold.published, fun c q fp hq ↦ ?_, fun c q fp hq ↦ ?_, hold.others,
    hold.grows, fun _ ↦ hold.untouched hnil⟩
  · rw [happlied]
    refine hold.within c q fp ?_
    cases c with
    | data => exact hshrink.map q fp hq
    | segment => exact (congrArg (denote · q) hseg).symm.trans hq
  · rw [happlied] at hq
    exact hold.origin c q fp hq

private theorem cached_makeCowRoot (opts : KvOptions) (s : Partition) (hm : s.mappers ≠ none) :
    (s.makeCowRoot opts).mappers ≠ none ∧
      Extends s.branchFileMapping (s.makeCowRoot opts).branchFileMapping := by
  obtain ⟨⟨m?, sm?⟩, hm⟩ := ne_none_iff_exists'.1 hm
  obtain ⟨-, -, hm', hranges, -⟩ := makeCowRoot_of_mappers opts hm
  exact ⟨by simp [hm'], fun fid o ho ↦ hranges ▸ ho⟩

theorem truncateAll (h : CommitInv opts x) (hinv : TraceInv opts x) (hidle : x.part.task = none)
    (hop : x.part.runOp opts .truncateAll = .ok s') :
    WriteEffect opts x { x with part := s' } := by
  have h₁ := h.begin hidle
  have hinv₁ := hinv.begin hidle
  obtain ⟨-, -, hman, -, howner, -⟩ := Partition.makeCowRoot_frame opts x.part
  obtain ⟨t, m?, sm?, ht, hm, -, -, hwal, hdeltas, -⟩ := Partition.makeCowRoot_spec opts x.part
  have hnil : ∀ c, t.deltasOf c = [] := fun c ↦ by cases c <;> assumption
  simp only [Partition.runOp, ht] at hop
  split at hop
  · -- an empty partition is left as it is
    rw [← Except.ok.inj hop]
    have h₂ := h₁.abort hinv₁ ht rfl
    refine ⟨⟨h₂.ranges, h₂.published, by simp [Partition.abort]⟩, howner,
      ?_, fun hne ↦ ?_, fun hm ↦ cached_makeCowRoot opts x.part hm⟩
    · rw [show (x.part.makeCowRoot opts).abort.manifest = x.part.manifest from hman]
      exact .refl _ _ _
    · exact fun hnone ↦ hne (hman ▸ hnone)
  · rw [← Except.ok.inj hop]
    have h₂ := (h₁.truncated ht hnil).commit (hinv₁.truncated ht hwal) rfl fun _ _ ↦
      (TraceInv.shrinks_truncated opts t).2.2.1.trans hdeltas
    have hc := Partition.updateMeta_spec opts
      (s := { x.part.makeCowRoot opts with task := some (Partition.truncated opts t) }) rfl hm
    refine ⟨⟨h₂.commits.ranges, h₂.commits.published,
      by simp [hc.idle]⟩, h₂.owner.trans howner, ?_, fun hne ↦ ?_,
      fun hm₀ ↦ ?_⟩
    · have hsucc := h₂.succeeds
      rw [← hman, ← howner]
      exact hsucc
    · exact h₂.kept fun hnone ↦ hne (hman ▸ hnone)
    · obtain ⟨hne, hext⟩ := cached_makeCowRoot opts x.part hm₀
      obtain ⟨hne', hext'⟩ := h₂.cached hne
      exact ⟨hne', fun fid o ho ↦ hext' fid o (hext fid o ho)⟩

end CommitInv

/-! ### The events of a running instance -/

/-- Whether an event belongs to a running instance: it neither restarts nor forks. -/
def TraceEvent.isWrite : TraceEvent → Bool
  | .restart _ | .fork _ _ => false
  | .begin | .step _ | .commit | .abort | .truncateAll => true

/-- **Whatever a running instance does, its manifest succeeds the one before**, and what it has in
memory follows it. -/
theorem CommitInv.write {x y : Traced} {e : TraceEvent} (h : CommitInv opts x)
    (hinv : TraceInv opts x) (hwrite : e.isWrite = true) (hcareful : e.Careful opts x)
    (hrun : e.run opts x = some y) : WriteEffect opts x y := by
  cases e with
  | begin =>
    obtain ⟨hidle, rfl⟩ := ite_some_none_eq_some.1 hrun
    obtain ⟨-, -, hman, -, howner, -⟩ := makeCowRoot_frame opts x.part
    refine ⟨h.begin hidle, howner, ?_, ?_, cached_makeCowRoot opts x.part⟩
    · rw [hman]
      exact .refl _ _ _
    · rw [hman]
      exact id
  | step a =>
    obtain ⟨s', hs', rfl⟩ := map_eq_some_iff.1 hrun
    have hstep := ok_of_toOption hs'
    obtain ⟨t, ht, -⟩ := taskStep_ok hstep
    obtain ⟨hmap, hman, -, howner⟩ := taskStep_frame hstep
    obtain ⟨t', -, hnext⟩ := (hinv.running t ht).names.step ht hstep
      fun ha ↦ hcareful ha t ht
    have hstep' := h.step hinv ht hstep
    refine ⟨?_, howner, ?_, ?_, fun hm ↦ ⟨hmap ▸ hm, hnext.extend⟩⟩
    · rwa [← bind_some (f := a.allocation), ← ht] at hstep'
    · rw [hman]
      exact .refl _ _ _
    · rw [hman]
      exact id
  | commit =>
    obtain ⟨s', hs', rfl⟩ := map_eq_some_iff.1 hrun
    have hcommit := ok_of_toOption hs'
    obtain ⟨t, ht, -, rfl⟩ := commit_ok hcommit
    exact h.commit hinv ht (hcareful t ht)
  | abort =>
    obtain ⟨hsome, hrun⟩ := ite_none_left_eq_some.1 hrun
    obtain ⟨t, ht⟩ := ne_none_iff_exists'.1 hsome
    cases hrun
    exact ⟨h.abort hinv ht hcareful, rfl, .refl _ _ _, id, fun hm ↦ ⟨hm, fun _ _ ho ↦ ho⟩⟩
  | truncateAll =>
    obtain ⟨hidle, hrun⟩ := ite_none_right_eq_some.1 hrun
    obtain ⟨s', hs', rfl⟩ := map_eq_some_iff.1 hrun
    exact h.truncateAll hinv hidle (ok_of_toOption hs')
  | restart term => simp [TraceEvent.isWrite] at hwrite
  | fork child term => simp [TraceEvent.isWrite] at hwrite

/-- What is published lies in files the manifest refers to. -/
theorem CommitInv.mem_files {x : Traced} (h : CommitInv opts x) (hinv : TraceInv opts x) {q fp : ℕ}
    (hq : denote (x.part.liveMapper c) q = some fp) {f : FileName}
    (hf : pageFile opts x.part.branchFileMapping c fp = some f) :
    f ∈ (durable x.part.manifest).files opts := by
  have hin : ((durable x.part.manifest).tblOf c).toFilePage q = some fp := by
    cases hm : x.part.mappers with
    | none =>
      rw [Partition.liveMapper_of_none hm] at hq
      cases hq
    | some p =>
      obtain ⟨m?, sm?⟩ := p
      have hstart := startOf_of_liveMapper opts hm hq
      cases ht : x.part.task with
      | none =>
        obtain ⟨-, -, hm', -⟩ := Partition.makeCowRoot_of_mappers opts hm
        exact h.published ht m? sm? hm' c q fp hstart
      | some t => exact (h.running t ht).published m? sm? hm c q fp hstart
  obtain ⟨w, hw, hres⟩ := hinv.found hq
  obtain ⟨hfid, hown⟩ := pageFile_eq_some.1 hf
  refine Replayer.mem_files.2 ⟨c, q, fp, hin, pageFile_eq_some.2 ⟨hfid, ?_⟩⟩
  rw [hfid] at hown ⊢
  cases hres.symm.trans hown
  cases hman : x.part.manifest with
  | none =>
    rw [hman] at hin
    cases c <;> simp [durable, Replayer.tblOf] at hin
  | some m =>
    rw [hman] at hin
    obtain ⟨w', hw', hfound⟩ := ((hinv.disk m hman).cls c).found q fp hin
    cases hw'.symm.trans hw
    exact hfound

end EloqStore
