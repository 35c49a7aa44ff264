import EloqStore.Partition.CreateBranch

/-!
# Which file a page was written to

Writers name the files they write by the active branch and the process term. Readers and collectors
name them by resolving the file id through the branch file ranges. Here a partition is followed
through writes, aborts, restarts under a larger term and starts on forked branches, together with a
record of who allocated each file page (`Writers`), and the two names are compared.

For one class of files the argument is `ClassInv`: the writer is `Ready` at its allocator's current
file, so an allocation is recorded as its own; everything mapped, in memory or by the manifest and
the changes not yet flushed, is found at the file it was written to; and **the last range's maximum
is not ahead of what the manifest knows**, so that a restart, which moves the allocator to the file
after the manifest's maximum, finds that file unclaimed.

The last point is the fragile one. Four things the code does break it, and the condition
`TraceEvent.Careful` rules them out:

* an abort keeps the ranges its task recorded;
* a commit that changes only segments writes no manifest;
* the first segment mapper of a partition starts at file 0, which the ranges of earlier terms and
  parent branches already claim;
* a restart moves the segment allocator on only when there is an object store.
-/

namespace EloqStore

open FilePageAllocator MappingTbl Option WriteTask

/-! ### Writers -/

/-- Who last allocated each file page: the name of the file it was written to. -/
abbrev Writers := FileClass → ℕ → Option Owner

variable (opts : KvOptions) (W : Writers) (ranges : BranchFileMapping) (m : PageMapper)

def Writers.record (c : FileClass) (fp : ℕ) (w : Owner) : Writers :=
  fun c' fp' ↦ if c' = c ∧ fp' = fp then some w else W c' fp'

theorem Writers.record_self (c : FileClass) (fp : ℕ) (w : Owner) : W.record c fp w c fp = some w :=
  if_pos ⟨rfl, rfl⟩

theorem Writers.record_of_ne {c c' : FileClass} {fp fp' : ℕ} (w : Owner) (h : c' = c → fp' ≠ fp) :
    W.record c fp w c' fp' = W c' fp' :=
  if_neg fun ⟨hc, hfp⟩ ↦ h hc hfp

/-- **The file page is found at the file it was written to.** -/
def FoundAt (c : FileClass) (fp : ℕ) : Prop :=
  ∃ w, W c fp = some w ∧ getBranchNameAndTerm ranges ⟨c, fileOf (opts.shift c) fp⟩ = some w

/-- Later ranges resolve what earlier ones resolve. -/
def Extends (ranges ranges' : BranchFileMapping) : Prop :=
  ∀ fid o, getBranchNameAndTerm ranges fid = some o → getBranchNameAndTerm ranges' fid = some o

namespace FoundAt

variable {opts} {W} {ranges} {ranges' : BranchFileMapping} {c c' : FileClass} {fp fp' : ℕ}

theorem mono (h : FoundAt opts W ranges c fp) (hext : Extends ranges ranges') :
    FoundAt opts W ranges' c fp := by
  obtain ⟨w, hw, hres⟩ := h
  exact ⟨w, hw, hext _ _ hres⟩

theorem record (h : FoundAt opts W ranges c fp) (w : Owner) (hne : c = c' → fp ≠ fp') :
    FoundAt opts (W.record c' fp' w) ranges c fp := by
  obtain ⟨w₀, hw, hres⟩ := h
  exact ⟨w₀, (W.record_of_ne w hne).trans hw, hres⟩

end FoundAt

/-! ### One class of files -/

/-- **One class, as a writer sees it**: its mapper (`none` before the first segment), and the table
and the maximum that a replay of the manifest would give once the changes recorded so far are
appended to it. -/
structure ClassInv (opts : KvOptions) (ranges : BranchFileMapping) (w : Owner) (W : Writers)
    (c : FileClass) (m? : Option PageMapper) (tbl : MappingTbl) (bound : ℕ) : Prop where
  /-- File pages are appended, in files of the configured size. -/
  allocator : ∀ m, m? = some m → m.allocator.IsAppend ∧ m.allocator.shift = opts.shift c
  ready : ∀ m, m? = some m → Ready ranges c w m.allocator.currentFileId
  /-- Mapped file pages lie below the allocator's maximum. -/
  below : ∀ m, m? = some m → ∀ q fp, m.toFilePage q = some fp → fp < m.allocator.maxFpId
  /-- They are found where they were written. -/
  found : ∀ q fp, denote m? q = some fp → FoundAt opts W ranges c fp
  /-- What the manifest maps lies below the maximum it gives. -/
  tblBelow : tbl.Below bound
  tblFound : ∀ q fp, tbl.toFilePage q = some fp → FoundAt opts W ranges c fp
  /-- The manifest is not ahead of the allocator. -/
  bound_le : ∀ m, m? = some m → bound ≤ m.allocator.maxFpId
  /-- The ranges are not ahead of the manifest. -/
  lastMax_le : m? ≠ none → lastMax ranges c ≤ fileOf (opts.shift c) bound
  /-- Without a mapper the manifest knows nothing of the class. -/
  absent : m? = none → tbl = [] ∧ bound = 0

/-- One class, as it is on disk. -/
structure DiskInv (opts : KvOptions) (ranges : BranchFileMapping) (W : Writers) (c : FileClass)
    (tbl : MappingTbl) (bound : ℕ) : Prop where
  /-- What is mapped lies below the maximum. -/
  below : tbl.Below bound
  found : ∀ q fp, tbl.toFilePage q = some fp → FoundAt opts W ranges c fp
  /-- The ranges are not ahead, if the class is in use. -/
  lastMax_le : (c = .data ∨ tbl ≠ [] ∨ bound ≠ 0) → lastMax ranges c ≤ fileOf (opts.shift c) bound

/-- A change of a mapper that maps nothing new; the allocator may move on. -/
structure PageMapper.Shrinks (m m' : PageMapper) : Prop where
  append : m.allocator.IsAppend → m'.allocator.IsAppend
  shift : m'.allocator.shift = m.allocator.shift
  le : m.allocator.maxFpId ≤ m'.allocator.maxFpId
  map : ∀ q fp, m'.toFilePage q = some fp → m.toFilePage q = some fp

namespace PageMapper.Shrinks

theorem refl : m.Shrinks m := ⟨id, rfl, le_rfl, fun _ _ h ↦ h⟩

theorem getPage : m.Shrinks m.getPage.2 := by
  refine ⟨fun h ↦ by simpa using h, by simp, by simp, fun q fp hq ↦ ?_⟩
  rw [PageMapper.toFilePage_getPage] at hq
  obtain ⟨-, hq⟩ := ite_none_left_eq_some.1 hq
  exact hq

theorem freePage (page : ℕ) : m.Shrinks (m.freePage page) := by
  refine ⟨id, rfl, le_rfl, fun q fp hq ↦ ?_⟩
  rw [PageMapper.toFilePage_freePage] at hq
  obtain ⟨-, hq⟩ := ite_none_left_eq_some.1 hq
  exact hq

theorem updateStat (minFileId holeCnt : ℕ) :
    m.Shrinks { m with allocator := m.allocator.updateStat minFileId holeCnt } :=
  ⟨fun _ ↦ isAppend_updateStat _ _ _, rfl,
    m.allocator.maxFpId_le_updateStat minFileId holeCnt, fun _ _ h ↦ h⟩

end PageMapper.Shrinks

namespace ClassInv

variable {opts} {ranges} {ranges' : BranchFileMapping} {w : Owner} {W} {c c' : FileClass} {m}
  {m' : PageMapper} {m? : Option PageMapper} {tbl tbl' : MappingTbl} {bound : ℕ}

theorem toDisk (h : ClassInv opts ranges w W c m? tbl bound) (hdata : c = .data → m? ≠ none) :
    DiskInv opts ranges W c tbl bound where
  below := h.tblBelow
  found := h.tblFound
  lastMax_le huse := by
    refine h.lastMax_le fun hnone ↦ ?_
    rcases huse with rfl | hne | hne
    · exact hdata rfl hnone
    · exact hne (h.absent hnone).1
    · exact hne (h.absent hnone).2

/-- A mapper can be written to disk instead of the changes. -/
theorem ofMapper (h : ClassInv opts ranges w W c (some m) tbl bound) :
    ClassInv opts ranges w W c (some m) m.tbl m.allocator.maxFpId where
  __ := h
  tblBelow := h.below m rfl
  tblFound := h.found
  bound_le m' hm' := by rw [some.inj hm']
  lastMax_le _ := by
    have hle := (h.ready m rfl).lastMax_le
    rwa [currentFileId, (h.allocator m rfl).2] at hle
  absent hnone := absurd hnone (by simp)

/-- **A step that maps nothing new** keeps a class in order. -/
theorem shrink (h : ClassInv opts ranges w W c (some m) tbl bound) (hs : RangesSorted ranges)
    (hm : m.Shrinks m')
    (htbl : ∀ q fp, tbl'.toFilePage q = some fp → tbl.toFilePage q = some fp) :
    ClassInv opts ranges w W c (some m') tbl' bound where
  allocator m₁ hm₁ := by
    cases hm₁
    exact ⟨hm.append (h.allocator m rfl).1, hm.shift.trans (h.allocator m rfl).2⟩
  ready m₁ hm₁ := by
    cases hm₁
    have hcur : m.allocator.currentFileId ≤ m'.allocator.currentFileId := by
      rw [currentFileId, currentFileId, hm.shift]
      exact fileOf_mono _ hm.le
    rcases Nat.eq_or_lt_of_le hcur with heq | hlt
    · exact heq ▸ h.ready m rfl
    · exact (h.ready m rfl).of_lt hs hlt
  below m₁ hm₁ q fp hq := by
    cases hm₁
    exact (h.below m rfl q fp (hm.map q fp hq)).trans_le hm.le
  found q fp hq := h.found q fp (hm.map q fp hq)
  tblBelow q fp hq := h.tblBelow q fp (htbl q fp hq)
  tblFound q fp hq := h.tblFound q fp (htbl q fp hq)
  bound_le m₁ hm₁ := by
    cases hm₁
    exact (h.bound_le m rfl).trans hm.le
  lastMax_le _ := h.lastMax_le (by simp)
  absent hnone := absurd hnone (by simp)

/-- The first segment mapper, when nothing claims file 0. -/
theorem create (h : ClassInv opts ranges w W .segment none tbl bound)
    (hr : Ready ranges .segment w 0) :
    ClassInv opts ranges w W .segment (some (.empty (newSegmentAllocator opts))) tbl bound where
  allocator m hm := by
    cases hm
    exact ⟨⟨0, 0, rfl⟩, rfl⟩
  ready m hm := by
    cases hm
    have hzero : (newSegmentAllocator opts).currentFileId = 0 := by
      simp [currentFileId, newSegmentAllocator, fileOf]
    exact hzero.symm ▸ hr
  below m hm q fp hq := by
    cases hm
    cases hq
  found q fp hq := absurd hq (by simp)
  __ := h
  bound_le m hm := by
    rw [(h.absent rfl).2]
    exact Nat.zero_le _
  lastMax_le _ := hr.lastMax_le.trans (Nat.zero_le _)
  absent hnone := absurd hnone (by simp)

/-- **An allocation** keeps its class in order, and what it hands out is found at the writer's own
file. -/
theorem allocate (h : ClassInv opts ranges w W c (some m) tbl bound)
    (hst : Stamped ranges ranges' c w m.allocator.currentFileId
      m.allocator.allocate.2.currentFileId)
    (page? : Option ℕ) (page : ℕ) :
    ClassInv opts ranges' w (W.record c m.allocator.allocate.1 w) c
        (some (allocated m page?))
        (tbl.put page (.filePageId m.allocator.allocate.1))
        (max bound (m.allocator.allocate.1 + 1)) ∧
      getBranchNameAndTerm ranges' ⟨c, fileOf (opts.shift c) m.allocator.allocate.1⟩ = some w := by
  obtain ⟨happ, hshift⟩ := h.allocator m rfl
  have hle := h.bound_le m rfl
  have hfp : m.allocator.allocate.1 = m.allocator.maxFpId := by rw [happ.allocate_eq]
  have hmax : m.allocator.allocate.2.maxFpId = m.allocator.maxFpId + 1 := by rw [happ.allocate_eq]
  have hown : getBranchNameAndTerm ranges' ⟨c, fileOf (opts.shift c) m.allocator.allocate.1⟩ =
      some w := by
    rw [hfp, ← hshift]
    exact hst.own
  have hself : FoundAt opts (W.record c m.allocator.allocate.1 w) ranges' c
      m.allocator.allocate.1 := ⟨w, W.record_self _ _ _, hown⟩
  -- whatever was mapped lies below the file page handed out, and stays found
  have hold : ∀ fp, fp < m.allocator.maxFpId → FoundAt opts W ranges c fp →
      FoundAt opts (W.record c m.allocator.allocate.1 w) ranges' c fp := fun fp hlt hf ↦
    (hf.mono fun _ _ ↦ hst.stable).record w fun _ ↦ by omega
  refine ⟨⟨?_, ?_, ?_, ?_, ?_, ?_, ?_, ?_, ?_⟩, hown⟩
  · intro m₁ hm₁
    cases hm₁
    exact ⟨happ.allocate, (allocate_shift _).trans hshift⟩
  · intro m₁ hm₁
    cases hm₁
    exact hst.ready
  · intro m₁ hm₁ q fp hq
    cases hm₁
    rw [allocated_allocator, hmax]
    rw [toFilePage_allocated] at hq
    split at hq
    · rw [← some.inj hq, hfp]
      exact Nat.lt_succ_self _
    · exact Nat.lt_succ_of_lt (h.below m rfl q fp hq)
  · intro q fp hq
    rw [denote_some, toFilePage_allocated] at hq
    split at hq
    · exact some.inj hq ▸ hself
    · exact hold fp (h.below m rfl q fp hq) (h.found q fp hq)
  · refine Below.put (h.tblBelow.mono (Nat.le_max_left _ _)) fun fp hv ↦ ?_
    obtain rfl : m.allocator.allocate.1 = fp := some.inj hv
    exact (Nat.lt_succ_self _).trans_le (Nat.le_max_right _ _)
  · intro q fp hq
    rw [toFilePage_put] at hq
    split at hq
    · exact some.inj hq ▸ hself
    · exact hold fp ((h.tblBelow q fp hq).trans_le hle) (h.tblFound q fp hq)
  · intro m₁ hm₁
    cases hm₁
    rw [allocated_allocator, hmax, hfp]
    exact Nat.max_le.2 ⟨Nat.le_succ_of_le hle, le_rfl⟩
  · intro _
    rw [hst.lastMax_eq, currentFileId, allocate_shift, hshift,
      hmax, hfp]
    exact fileOf_mono _ (Nat.le_max_right _ _)
  · exact by simp

/-- An allocation in one class leaves the other in order. -/
theorem other {before after fp : ℕ} (h : ClassInv opts ranges w W c' m? tbl bound) (hc : c' ≠ c)
    (hst : Stamped ranges ranges' c w before after) :
    ClassInv opts ranges' w (W.record c fp w) c' m? tbl bound where
  __ := h
  ready m hm := hst.other hc (h.ready m hm)
  found q fp' hq := ((h.found q fp' hq).mono fun _ _ ↦ hst.stable).record w fun heq ↦ absurd heq hc
  tblFound q fp' hq :=
    ((h.tblFound q fp' hq).mono fun _ _ ↦ hst.stable).record w fun heq ↦ absurd heq hc
  lastMax_le hne := by
    rw [hst.lastMax_other c' hc]
    exact h.lastMax_le hne

/-- An allocation at or above a class's maximum takes nothing from it. -/
theorem record {fp : ℕ} (h : ClassInv opts ranges w W c m? tbl bound) (o : Owner)
    (hle : c = c' → ∀ m, m? = some m → m.allocator.maxFpId ≤ fp) :
    ClassInv opts ranges w (W.record c' fp o) c m? tbl bound := by
  have hlt : ∀ fp', (c = c' → fp' < fp) → c = c' → fp' ≠ fp := fun fp' h hc ↦ (h hc).ne
  refine ⟨h.allocator, h.ready, h.below, fun q fp' hq ↦ ?_, h.tblBelow, fun q fp' hq ↦ ?_,
    h.bound_le, h.lastMax_le, h.absent⟩
  · refine (h.found q fp' hq).record o (hlt fp' fun hc ↦ ?_)
    obtain ⟨m, hm, hq⟩ := bind_eq_some_iff.1 hq
    exact (h.below m hm q fp' hq).trans_le (hle hc m hm)
  · refine (h.tblFound q fp' hq).record o (hlt fp' fun hc ↦ ?_)
    cases hm : m? with
    | none =>
      rw [(h.absent hm).1] at hq
      cases hq
    | some m =>
      exact Nat.lt_of_lt_of_le ((h.tblBelow q fp' hq).trans_le (h.bound_le m hm))
        (hle hc m hm)

/-- **Loading from disk** puts a class in order when the loaded allocator starts in a file the
ranges do not reach. -/
theorem ofDisk (h : DiskInv opts ranges W c tbl bound) (happ : m.allocator.IsAppend)
    (hshift : m.allocator.shift = opts.shift c) (hmap : ∀ q, m.toFilePage q = tbl.toFilePage q)
    (hle : bound ≤ m.allocator.maxFpId) (hs : RangesSorted ranges)
    (hlt : lastMax ranges c < m.allocator.currentFileId)
    (huse : c = .data ∨ tbl ≠ [] ∨ bound ≠ 0) :
    ClassInv opts ranges w W c (some m) tbl bound where
  allocator m₁ hm₁ := by
    cases hm₁
    exact ⟨happ, hshift⟩
  ready m₁ hm₁ := by
    cases hm₁
    exact .inl fun r hr ↦ (maxOf_le_lastMax hs c r hr).trans_lt hlt
  below m₁ hm₁ q fp hq := by
    cases hm₁
    exact (h.below q fp (hmap q ▸ hq)).trans_le hle
  found q fp hq := h.found q fp (hmap q ▸ hq)
  tblBelow := h.below
  tblFound := h.found
  bound_le m₁ hm₁ := some.inj hm₁ ▸ hle
  lastMax_le _ := h.lastMax_le huse
  absent hnone := absurd hnone (by simp)

theorem unknown : ClassInv opts ranges w W c none [] 0 where
  allocator m hm := absurd hm (by simp)
  ready m hm := absurd hm (by simp)
  below m hm := absurd hm (by simp)
  found q fp hq := absurd hq (by simp)
  tblBelow := below_nil 0
  tblFound q fp hq := absurd hq (by simp)
  bound_le m hm := absurd hm (by simp)
  lastMax_le hne := absurd rfl hne
  absent _ := ⟨rfl, rfl⟩

end ClassInv

/-- An allocation at or above the maximum takes nothing from disk. -/
theorem DiskInv.record {opts : KvOptions} {ranges : BranchFileMapping} {W : Writers}
    {c c' : FileClass} {tbl : MappingTbl} {bound fp : ℕ} (h : DiskInv opts ranges W c tbl bound)
    (o : Owner) (hle : c = c' → bound ≤ fp) :
    DiskInv opts ranges (W.record c' fp o) c tbl bound where
  __ := h
  found q fp' hq := (h.found q fp' hq).record o fun hc ↦
    (Nat.lt_of_lt_of_le (h.below q fp' hq) (hle hc)).ne

/-! ### A running task -/

def Replayer.tblOf (r : Replayer) : FileClass → MappingTbl
  | .data => r.mappingTbl
  | .segment => r.segmentMappingTbl

def Replayer.boundOf (r : Replayer) : FileClass → ℕ
  | .data => r.maxFpId
  | .segment => r.maxSegmentFpId

/-- A class of the manifest with a task's changes appended. -/
def WriteTask.applied (t : WriteTask) (r : Replayer) (c : FileClass) : MappingTbl × ℕ :=
  applyDeltas (r.tblOf c) (r.boundOf c) (t.deltasOf c)

def Writers.after (w : Owner) : Option (FileClass × ℕ) → Writers
  | none => W
  | some (c, fp) => W.record c fp w

/-- **What a step does to a class**: to the copy's mapper, and to the changes recorded. -/
inductive ClassStep (opts : KvOptions) (t : WriteTask) (a : TaskStep) (c : FileClass)
    (m? m?' : Option PageMapper) (ds ds' : List (ℕ × MappingValue)) : Prop
  | same (hm : m?' = m?) (hd : ds' = ds)
  | create (hc : c = .segment) (ha : a = .ensureSegmentMapper) (hm : m? = none)
      (hm' : m?' = some (.empty (newSegmentAllocator opts))) (hd : ds' = ds)
  /-- Nothing new is mapped, and nothing is recorded. -/
  | shrink {m m' : PageMapper} (hm : m? = some m) (hm' : m?' = some m') (hs : m.Shrinks m')
      (hd : ds' = ds)
  | free {m : PageMapper} (page : ℕ) (hm : m? = some m) (hm' : m?' = some (m.freePage page))
      (hd : ds' = ds ++ [(page, .invalid)])
  | take {m : PageMapper} (page? : Option ℕ)
    (ha : a.allocation t = some (c, m.allocator.allocate.1))
      (hm : m? = some m) (hm' : m?' = some (WriteTask.allocated m page?))
      (hd : ds' = ds ++ [((WriteTask.choosePage m page?).1, .filePageId m.allocator.allocate.1)])

theorem ClassStep.of_change {opts : KvOptions} {s s' : Partition} {t t' : WriteTask} {a : TaskStep}
    (h : Partition.TaskChange opts s s' t t' a) (c : FileClass) :
    ClassStep opts t a c (t.mapperOf c) (t'.mapperOf c) (t.deltasOf c) (t'.deltasOf c) := by
  cases c with
  | data =>
    cases h.data with
    | same hm hw => exact .same (congrArg some hm) hw
    | getPage heq => exact .shrink rfl (by rw [heq]; rfl) (.getPage _) (by rw [heq]; rfl)
    | allocatePage page? hm hw => exact .take page? rfl rfl (congrArg some hm) hw
    | freePage page heq => exact .free page rfl (by rw [heq]; rfl) (by rw [heq]; rfl)
    | updateStat k n _ heq =>
      exact .shrink rfl (by rw [heq]; rfl) (.updateStat _ k n) (by rw [heq]; rfl)
  | segment =>
    cases h.segment with
    | same hm hd => exact .same hm hd
    | create hm hm' hd => exact .create rfl rfl hm hm' hd
    | allocateSegment page? hm hm' hd =>
      exact .take page? (by simp [TaskStep.allocation, hm]) hm hm' hd
    | freeSegment page hm hm' hd => exact .free page hm hm' hd
    | updateStat k n hm hm' hd => exact .shrink hm hm' (.updateStat _ k n) hd

theorem ClassStep.progress {opts : KvOptions} {t : WriteTask} {a : TaskStep} {c : FileClass}
    {m? m?' : Option PageMapper} {ds ds' : List (ℕ × MappingValue)} {m : PageMapper}
    (h : ClassStep opts t a c m? m?' ds ds') (hm : m? = some m) :
    ∃ m', m?' = some m' ∧ m.allocator.maxFpId ≤ m'.allocator.maxFpId := by
  cases h with
  | same hm' => exact ⟨m, hm'.trans hm, le_rfl⟩
  | create _ _ hnone => cases hnone.symm.trans hm
  | shrink hm₀ hm' hs =>
    cases hm₀.symm.trans hm
    exact ⟨_, hm', hs.le⟩
  | free page hm₀ hm' =>
    cases hm₀.symm.trans hm
    exact ⟨_, hm', le_rfl⟩
  | take page? _ hm₀ hm' =>
    cases hm₀.symm.trans hm
    exact ⟨_, hm', m.allocator.maxFpId_le_allocate⟩

/-- **A running task names its files as its readers will.** -/
structure TaskNames (opts : KvOptions) (s : Partition) (W : Writers) (t : WriteTask) : Prop where
  sorted : RangesSorted s.branchFileMapping
  cls : ∀ c, ClassInv opts s.branchFileMapping s.owner W c (t.mapperOf c)
    (t.applied (durable s.manifest) c).1 (t.applied (durable s.manifest) c).2
  seen : ∀ f, t.lastSeenSegmentFileId = some f →
    getBranchNameAndTerm s.branchFileMapping ⟨.segment, f⟩ ≠ none

/-- What a step of a task leads to. -/
structure NamedStep (opts : KvOptions) (s s' : Partition) (W : Writers) (t t' : WriteTask)
    (a : TaskStep) : Prop where
  names : TaskNames opts s' (W.after s.owner (a.allocation t)) t'
  extend : Extends s.branchFileMapping s'.branchFileMapping
  progress : ∀ c m, t.mapperOf c = some m → ∃ m', t'.mapperOf c = some m' ∧
    m.allocator.maxFpId ≤ m'.allocator.maxFpId
  /-- What the step takes resolves to the writer. -/
  own : ∀ c fp, a.allocation t = some (c, fp) →
    getBranchNameAndTerm s'.branchFileMapping ⟨c, fileOf (opts.shift c) fp⟩ = some s.owner

/-- The segment classes that a first mapper may be created in: no file range, or a single one, the
writer's own, without a segment file. -/
def SegmentsUnclaimed (w : Owner) : Prop :=
  ∀ r ∈ ranges, ranges = [r] ∧ r.owner = w ∧ r.maxSegmentFileId = 0

instance (w : Owner) : Decidable (SegmentsUnclaimed ranges w) :=
  inferInstanceAs (Decidable (∀ r ∈ ranges, _))

theorem SegmentsUnclaimed.ready {ranges : BranchFileMapping} {w : Owner}
    (h : SegmentsUnclaimed ranges w) : Ready ranges .segment w 0 := by
  cases ranges with
  | nil => exact ready_nil _ _ _
  | cons r rest =>
    obtain ⟨heq, hown, hmax⟩ := h r (by simp)
    exact .inr ⟨[], r, heq, hown, hmax, by simp⟩

namespace TaskNames

variable {opts} {s s' : Partition} {W} {t t' : WriteTask}

/-- Freeing a page removes it from the table of changes too. -/
theorem toFilePage_applyDeltas_free {tbl : MappingTbl} {b page q fp : ℕ}
    {ds : List (ℕ × MappingValue)}
    (h : (applyDeltas tbl b (ds ++ [(page, .invalid)])).1.toFilePage q = some fp) :
    (applyDeltas tbl b ds).1.toFilePage q = some fp := by
  rw [applyDeltas_concat, toFilePage_put] at h
  split at h
  · simp [MappingValue.filePage?] at h
  · exact h

variable {a : TaskStep} (h : TaskNames opts s W t)

include h

private theorem quietClass {c : FileClass} (ha : a.allocation t = none)
    (hcls : ClassStep opts t a c (t.mapperOf c) (t'.mapperOf c) (t.deltasOf c) (t'.deltasOf c))
    (hcreate : a = .ensureSegmentMapper → t.cow.segmentMapper = none →
      SegmentsUnclaimed s.branchFileMapping s.owner) :
    ClassInv opts s.branchFileMapping s.owner W c (t'.mapperOf c)
      (t'.applied (durable s.manifest) c).1 (t'.applied (durable s.manifest) c).2 := by
  have hold := h.cls c
  rw [applied] at hold ⊢
  cases hcls with
  | same hm hd =>
    rw [hm, hd]
    exact hold
  | create hc hstep hm hm' hd =>
    subst hc
    rw [hm', hd]
    rw [hm] at hold
    exact hold.create (hcreate hstep hm).ready
  | shrink hm hm' hs hd =>
    rw [hm', hd]
    rw [hm] at hold
    exact hold.shrink h.sorted hs fun q fp hq ↦ hq
  | free page hm hm' hd =>
    have hbound : (applyDeltas ((durable s.manifest).tblOf c) ((durable s.manifest).boundOf c)
        (t'.deltasOf c)).2 = (applyDeltas ((durable s.manifest).tblOf c)
          ((durable s.manifest).boundOf c) (t.deltasOf c)).2 := by
      rw [hd, applyDeltas_concat]
      rfl
    rw [hm', hbound, hd]
    rw [hm] at hold
    exact hold.shrink h.sorted (.freePage _ page) fun q fp hq ↦ toFilePage_applyDeltas_free hq
  | take _ htake => cases ha.symm.trans htake

private theorem quietStep (ha : a.allocation t = none) (hc : Partition.TaskChange opts s s' t t' a)
    (hranges : s'.branchFileMapping = s.branchFileMapping)
    (hseen : t'.lastSeenSegmentFileId = t.lastSeenSegmentFileId)
    (hcreate : a = .ensureSegmentMapper → t.cow.segmentMapper = none →
      SegmentsUnclaimed s.branchFileMapping s.owner) : NamedStep opts s s' W t t' a where
  names := by
    refine ⟨hranges ▸ h.sorted, fun c ↦ ?_, fun f hf ↦ ?_⟩
    · rw [hranges, hc.owner, hc.manifest, ha]
      exact h.quietClass ha (.of_change hc c) hcreate
    · rw [hranges]
      exact h.seen f (hseen ▸ hf)
  extend fid o hfid := hranges ▸ hfid
  progress c m := (ClassStep.of_change hc c).progress
  own c fp hc := absurd hc (by simp [ha])

private theorem takeStep {c₀ : FileClass} {m : PageMapper} {page? : Option ℕ} {check : Bool}
    (hc : Partition.TaskChange opts s s' t t' a)
    (ha : a.allocation t = some (c₀, m.allocator.allocate.1)) (hm : t.mapperOf c₀ = some m)
    (hm' : t'.mapperOf c₀ = some (allocated m page?))
    (hd : t'.deltasOf c₀ = t.deltasOf c₀ ++
      [((choosePage m page?).1, .filePageId m.allocator.allocate.1)])
    (hother : ∀ c, c ≠ c₀ → t'.mapperOf c = t.mapperOf c ∧ t'.deltasOf c = t.deltasOf c)
    (hst : stampFiles s.branchFileMapping c₀ s.owner check m.allocator.currentFileId
      m.allocator.allocate.2.currentFileId = some s'.branchFileMapping)
    (hcheck : check = false →
      getBranchNameAndTerm s.branchFileMapping ⟨c₀, m.allocator.currentFileId⟩ ≠ none)
    (hseen : ∀ f, t'.lastSeenSegmentFileId = some f → t.lastSeenSegmentFileId = some f ∨
      c₀ = .segment ∧ m.allocator.allocate.2.currentFileId = f) : NamedStep opts s s' W t t' a := by
  have hcls := h.cls c₀
  rw [hm] at hcls
  obtain ⟨ranges₁, hst₁, stamped⟩ := stampFiles_spec h.sorted (hcls.ready m rfl) hcheck
    m.allocator.currentFileId_le_allocate
  cases hst.symm.trans hst₁
  obtain ⟨hinv, hown⟩ := hcls.allocate stamped page? (choosePage m page?).1
  refine ⟨⟨stamped.sorted, fun c ↦ ?_, fun f hf ↦ ?_⟩, fun _ _ ↦ stamped.stable,
    fun c m ↦ (ClassStep.of_change hc c).progress, fun c fp hfp ↦ ?_⟩
  · rw [ha, hc.owner, hc.manifest]
    by_cases heq : c = c₀
    · subst heq
      rw [hm', applied, hd, applyDeltas_concat]
      exact hinv
    · obtain ⟨hsame, hds⟩ := hother c heq
      rw [hsame, applied, hds]
      exact (h.cls c).other heq stamped
  · rcases hseen f hf with hf | ⟨rfl, rfl⟩
    · obtain ⟨o, ho⟩ := ne_none_iff_exists'.1 (h.seen f hf)
      exact ne_none_iff_exists'.2 ⟨o, stamped.stable ho⟩
    · exact stamped.resolve_after
  · rw [ha] at hfp
    cases hfp
    exact hown

/-- **Every step of a task names its files as its readers will**, if a first segment mapper is
created only where no one claims its files. -/
theorem step (ht : s.task = some t) (hstep : s.taskStep opts a = .ok s')
    (hcreate : a = .ensureSegmentMapper → t.cow.segmentMapper = none →
      SegmentsUnclaimed s.branchFileMapping s.owner) :
    ∃ t', s'.task = some t' ∧ NamedStep opts s s' W t t' a := by
  obtain ⟨t', ht', hc⟩ := Partition.taskStep_change ht hstep
  refine ⟨t', ht', ?_⟩
  obtain ⟨t₀, ht₀, heff⟩ := Partition.taskStep_ok hstep
  cases ht.symm.trans ht₀
  cases a with
  | allocatePage page? =>
    obtain ⟨fp, t₁, ranges', halloc, rfl⟩ := heff
    cases ht'
    obtain ⟨hst, rfl, hcow, hwal, hseg, hlast, -⟩ := allocatePage_ok halloc
    refine h.takeStep hc rfl rfl (by rw [mapperOf, hcow]) hwal (fun c hne ↦ ?_) hst
      (by simp) fun f hf ↦ .inl (hlast ▸ hf)
    cases c with
    | data => exact absurd rfl hne
    | segment => exact ⟨by rw [mapperOf, mapperOf, hcow], hseg⟩
  | allocateSegment page? =>
    obtain ⟨fp, t₁, ranges', halloc, rfl⟩ := heff
    cases ht'
    obtain ⟨m, hm, hst, rfl, hcow, hwal, hdeltas, hlast, -⟩ := allocateSegment_ok halloc
    -- the check is skipped only for the file seen last, which has been recorded
    have hold : t.mapperOf .segment = some m := hm
    refine h.takeStep hc (by simp [TaskStep.allocation, hm]) hold (by rw [mapperOf, hcow])
      hdeltas (fun c hne ↦ ?_) hst (fun hfalse ↦ h.seen _ (by simpa using hfalse))
      fun f hf ↦ .inr ⟨rfl, some.inj (hlast.symm.trans hf)⟩
    cases c with
    | data => exact ⟨by rw [mapperOf, mapperOf, hcow], hwal⟩
    | segment => exact absurd rfl hne
  | _ =>
    have hranges := hc.ranges.resolve_right (by rintro ⟨_, _, _, ⟨⟩, _⟩)
    have hseen : t'.lastSeenSegmentFileId = t.lastSeenSegmentFileId := by
      cases hc.segment <;> assumption
    exact h.quietStep rfl hc hranges hseen hcreate

end TaskNames

end EloqStore
