import EloqStore.Partition.Operations

/-!
# What a running task keeps

A task works on a copy of the root and records its changes in two lists. At every moment, its copy
of the data mapping denotes what the manifest on disk denotes **changed by the builder's list**, and
its copy of the segment mapping what the manifest denotes changed by the segment list (`TaskInv`).
The allocators of the copy stay above everything the copy maps, gives up or pools (`TaskSound`).

`TaskInv.step` carries both through every step a task can take. `Quiet` says that a task has changed
nothing a manifest stores, and `Quiet.step` that it stays so through the steps that only reserve
ids and keep statistics.
-/

namespace EloqStore

open FilePageAllocator List MappingTbl Option PageMapper EloqStore.Partition Replayer WriteTask

/-! ### Soundness of mappers and replays -/

/-- What an optional mapper denotes. -/
def denote (m : Option PageMapper) (q : ℕ) : Option ℕ := m.bind (·.toFilePage q)

@[simp] theorem denote_none (q : ℕ) : denote none q = none := rfl

@[simp] theorem denote_some (m : PageMapper) (q : ℕ) : denote (some m) q = m.toFilePage q := rfl

/-- A mapper whose file pages, mapped or pooled, lie below its allocator's maximum. -/
structure PageMapper.Sound (m : PageMapper) : Prop where
  below : ∀ q fp, m.toFilePage q = some fp → fp < m.allocator.maxFpId
  pool : m.allocator.PoolBelow

namespace PageMapper.Sound

variable {m : PageMapper}

theorem empty {a : FilePageAllocator} (h : a.PoolBelow) : (empty a).Sound :=
  ⟨by simp, h⟩

theorem getPage (h : m.Sound) : m.getPage.2.Sound where
  below q fp hq := by
    rw [toFilePage_getPage] at hq
    obtain ⟨-, hq⟩ := ite_none_left_eq_some.1 hq
    simpa using h.below q fp hq
  pool := by simpa using h.pool

theorem freePage (h : m.Sound) (page : ℕ) : (m.freePage page).Sound where
  below q fp hq := by
    rw [toFilePage_freePage] at hq
    obtain ⟨-, hq⟩ := ite_none_left_eq_some.1 hq
    exact h.below q fp hq
  pool := h.pool

theorem allocated (h : m.Sound) (page? : Option ℕ) : (allocated m page?).Sound where
  below q fp hq := by
    rw [toFilePage_allocated] at hq
    split at hq
    · rw [some.injEq] at hq
      exact hq ▸ h.pool.allocate.1
    · exact (h.below q fp hq).trans_le m.allocator.maxFpId_le_allocate
  pool := h.pool.allocate.2

theorem updateStat (h : m.Sound) (minFileId holeCnt : ℕ) :
    ({ m with allocator := m.allocator.updateStat minFileId holeCnt } : PageMapper).Sound where
  below q fp hq :=
    (h.below q fp hq).trans_le (m.allocator.maxFpId_le_updateStat minFileId holeCnt)
  pool := (isAppend_updateStat _ _ _).poolBelow

@[simp] theorem freeToPool_maxFpId (a : FilePageAllocator) (fps : List ℕ) :
    (freeToPool a fps).maxFpId = a.maxFpId := by
  unfold freeToPool
  split <;> rfl

@[simp] theorem freeToPool_shift (a : FilePageAllocator) (fps : List ℕ) :
    (freeToPool a fps).shift = a.shift := by
  unfold freeToPool
  split <;> rfl

/-- Pooling file pages below the maximum keeps a mapper sound. -/
theorem freeToPool (h : m.Sound) {fps : List ℕ} (hfps : ∀ q ∈ fps, q < m.allocator.maxFpId) :
    ({ m with allocator := freeToPool m.allocator fps } : PageMapper).Sound where
  below q fp hq := by
    rw [freeToPool_maxFpId]
    exact h.below q fp hq
  pool ids hids fp hfp := by
    rw [freeToPool_maxFpId]
    unfold Partition.freeToPool at hids
    split at hids
    · next hk => simp [hk] at hids
    · next ids₀ hk =>
      rw [← AllocatorKind.pooled.inj hids, mem_append, mem_reverse, List.mem_map] at hfp
      rcases hfp with ⟨q, hq, rfl⟩ | hfp
      · exact (Nat.mod_le _ _).trans_lt (hfps q hq)
      · exact h.pool ids₀ hk fp hfp

/-- **Every step keeps a mapper sound**, and its maximum never falls. -/
theorem step {m' : PageMapper} (h : m.Sound) (hstep : PageMapper.Step m m') :
    m'.Sound ∧ m.allocator.maxFpId ≤ m'.allocator.maxFpId := by
  cases hstep with
  | refl => exact ⟨h, le_rfl⟩
  | getPage => exact ⟨h.getPage, by simp⟩
  | allocated page? => exact ⟨h.allocated page?, m.allocator.maxFpId_le_allocate⟩
  | freePage page => exact ⟨h.freePage page, le_rfl⟩
  | updateStat a b => exact ⟨h.updateStat a b, m.allocator.maxFpId_le_updateStat a b⟩

end PageMapper.Sound

/-- A replay whose maxima lie above everything it maps. -/
structure Replayer.Sound (r : Replayer) : Prop where
  data : r.mappingTbl.Below r.maxFpId
  segment : r.segmentMappingTbl.Below r.maxSegmentFpId

theorem Replayer.Sound.replayLog {r : Replayer} (h : r.Sound) (l : LogRecord) :
    (EloqStore.replayLog r l).Sound :=
  ⟨below_applyDeltas h.data _, below_applyDeltas h.segment _⟩

theorem bumpToNextFile_ge (shift maxFp : ℕ) : maxFp ≤ bumpToNextFile shift maxFp := by
  simp only [bumpToNextFile, fileOf, Nat.shiftRight_eq_div_pow, Nat.shiftLeft_eq]
  exact (Nat.lt_of_lt_of_eq
    (Nat.lt_mul_div_succ maxFp (Nat.two_pow_pos shift)) (Nat.mul_comm _ _)).le

theorem Replayer.Sound.getMapper {r : Replayer} (h : r.Sound) (opts : KvOptions) (term : ℕ) :
    (r.getMapper opts term).Sound := by
  have hmax : r.maxFpId ≤ r.dataMaxFpId opts term := by
    unfold dataMaxFpId
    split
    · exact bumpToNextFile_ge _ _
    · exact le_rfl
  unfold Replayer.getMapper
  refine ⟨fun q fp hq ↦ ?_, ?_⟩
  · rw [toFilePage_mapperOfTable] at hq
    rw [allocator_mapperOfTable]
    split
    · rw [appendAllocatorOf_maxFpId]
      exact (h.data q fp hq).trans_le hmax
    · exact h.data q fp hq
  · rw [allocator_mapperOfTable]
    split
    · exact (isAppend_appendAllocatorOf _ _ _).poolBelow
    · intro ids hids fp hfp
      simp only [AllocatorKind.pooled.injEq] at hids
      rw [← hids, pooledFreeIds, mem_reverse, List.mem_map] at hfp
      obtain ⟨q, hq, rfl⟩ := hfp
      exact (Nat.mod_le _ _).trans_lt (mem_range.1 (mem_filter.1 hq).1)

theorem Replayer.Sound.getSegmentMapper {r : Replayer} (h : r.Sound) (opts : KvOptions) (term : ℕ)
    {m : PageMapper} (hm : r.getSegmentMapper opts term = some m) : m.Sound := by
  have hmax : r.maxSegmentFpId ≤ r.segmentMaxFpId opts term := by
    unfold segmentMaxFpId
    split
    · exact bumpToNextFile_ge _ _
    · exact le_rfl
  obtain ⟨-, hm⟩ := ite_none_left_eq_some.1 hm
  rw [some.injEq] at hm
  subst hm
  refine ⟨fun q fp hq ↦ ?_, ?_⟩
  · rw [toFilePage_mapperOfTable] at hq
    rw [allocator_mapperOfTable, appendAllocatorOf_maxFpId]
    exact (h.segment q fp hq).trans_le hmax
  · rw [allocator_mapperOfTable]
    exact (isAppend_appendAllocatorOf _ _ _).poolBelow

theorem denote_getSegmentMapper (r : Replayer) (opts : KvOptions) (term : ℕ) (q : ℕ) :
    denote (r.getSegmentMapper opts term) q = r.segmentMappingTbl.toFilePage q := by
  unfold getSegmentMapper
  split
  · next h =>
    rw [length_eq_zero_iff.1 h.1]
    rfl
  · simp

/-! ### What is on disk -/

/-- The replay of what is on disk: without a manifest, an empty partition. -/
def durable : Option Manifest → Replayer
  | some m => replay m
  | none => ⟨none, none, [], 0, [], 0, [], ⟨"", 0, []⟩, 0⟩

/-! ### A running task against the manifest -/

/-- The allocators of a task's copy lie above everything the copy knows of. -/
structure TaskSound (s : Partition) (t : WriteTask) : Prop where
  sound : t.cow.mapper.Sound
  segSound : ∀ m, t.cow.segmentMapper = some m → m.Sound
  /-- File pages the task gives up lie below the maximum. -/
  freed : ∀ q ∈ t.toFreeFilePages, q < t.cow.mapper.allocator.maxFpId
  /-- So do those given up by earlier tasks. -/
  pending : ∀ fps ∈ s.pendingFree, ∀ q ∈ fps, q < t.cow.mapper.allocator.maxFpId
  entry : s.entry.isSome
  entrySegment : t.cow.segmentMapper = none → s.entry.bind (·.segmentMapper) = none

theorem TaskSound.or_segmentMapper {s : Partition} {t : WriteTask} (h : TaskSound s t)
    {m? sm? : Option PageMapper} (hm : s.mappers = some (m?, sm?)) :
    t.cow.segmentMapper.or sm? = t.cow.segmentMapper := by
  cases hs : t.cow.segmentMapper with
  | some m => rfl
  | none =>
    have hn := h.entrySegment hs
    rw [bind_segmentMapper, hm] at hn
    exact hn

/-- Releasing a replaced mapping keeps a task sound: only the published pool grows. -/
theorem TaskSound.freeMappingSnapshot {s : Partition} {t : WriteTask} (h : TaskSound s t) :
    TaskSound s.freeMappingSnapshot t := by
  unfold Partition.freeMappingSnapshot
  split
  · exact h
  · next fps rest hpend =>
    refine { h with
      pending := fun fps' hfps ↦ h.pending fps' (by simp [hpend, hfps])
      entry := by simpa using h.entry
      entrySegment := fun hs ↦ ?_ }
    have hseg := h.entrySegment hs
    cases hentry : s.entry with
    | none => rfl
    | some root => simpa [hentry] using hseg

/-- The copy a running task works on is what is on disk, changed by what the task has recorded. -/
structure TaskInv (s : Partition) (t : WriteTask) : Prop extends TaskSound s t where
  /-- The data mapping is, except at reserved ids that have not been written yet. -/
  mapping : ∀ q, q ∉ t.reserved → t.cow.mapper.toFilePage q =
    (applyDeltas (durable s.manifest).mappingTbl (durable s.manifest).maxFpId
      t.walBuilder).1.toFilePage q
  segMapping : ∀ q, denote t.cow.segmentMapper q =
    (applyDeltas (durable s.manifest).segmentMappingTbl (durable s.manifest).maxSegmentFpId
      t.segMappingDeltas).1.toFilePage q
  durableSound : (durable s.manifest).Sound
  size : t.cow.manifestSize = (s.manifest.map Manifest.size).getD 0
  /-- A dictionary that is not dirty is the one on disk. -/
  dict : s.manifest ≠ none → (s.compressionOf t).dirty = false →
    (durable s.manifest).dictBytes = (s.compressionOf t).dictBytes

/-- The task has changed nothing but logical ids and allocators since it started. -/
structure Quiet (s : Partition) (t : WriteTask) : Prop where
  root : t.cow.rootId = (durable s.manifest).root
  ttlRoot : t.cow.ttlRootId = (durable s.manifest).ttlRoot
  deltas : t.segMappingDeltas = []
  dict : s.manifest ≠ none → (durable s.manifest).dictBytes = (s.compressionOf t).dictBytes
  ranges : s.manifest ≠ none →
    (durable s.manifest).branchMetadata.fileRanges = s.branchFileMapping

/-- Steps that change the data mapping. -/
def TaskStep.writesData : TaskStep → Bool
  | .allocatePage _ | .freePage _ => true
  | _ => false

/-- Steps that change nothing but logical ids and allocators. -/
def TaskStep.isQuiet : TaskStep → Bool
  | .getPage | .ensureSegmentMapper | .updateStat _ _ _ => true
  | _ => false

def TaskStep.setsRoots : TaskStep → Bool
  | .setRoots _ _ _ => true
  | _ => false

variable {opts : KvOptions} {s s' : Partition} {t : WriteTask}

/-- The frame of the dictionary through a change of the task that keeps its compression object. -/
theorem Partition.compressionOf_congr {t' : WriteTask} (he : s'.entry = s.entry)
    (ho : t'.cow.ownCompression = t.cow.ownCompression) :
    s'.compressionOf t' = s.compressionOf t := by
  simp only [compressionOf, he, ho]

@[simp] theorem Partition.setCompression_manifest (s : Partition) (t : WriteTask)
    (c : DictCompression) : (s.setCompression t c).manifest = s.manifest := by
  unfold setCompression
  split <;> rfl

@[simp] theorem Partition.setCompression_branchFileMapping (s : Partition) (t : WriteTask)
    (c : DictCompression) : (s.setCompression t c).branchFileMapping = s.branchFileMapping := by
  unfold setCompression
  split <;> rfl

/-- Changing the compression object changes what the task sees, and nothing else of the task. -/
theorem Partition.setCompression_spec {c : DictCompression} (ht : s.task = some t)
    (he : s.entry.isSome) : ∃ t', (s.setCompression t c).task = some t' ∧
      (s.setCompression t c).compressionOf t' = c ∧
      t' = { t with cow := { t.cow with ownCompression := t'.cow.ownCompression } } ∧
      (s.setCompression t c).manifest = s.manifest ∧
      (s.setCompression t c).branchFileMapping = s.branchFileMapping ∧
      (s.setCompression t c).pendingFree = s.pendingFree ∧
      (s.setCompression t c).activeBranch = s.activeBranch ∧
      (s.setCompression t c).processTerm = s.processTerm ∧
      (s.setCompression t c).entry.isSome ∧
      (s.setCompression t c).entry.bind (·.segmentMapper) = s.entry.bind (·.segmentMapper) := by
  obtain ⟨root, hroot⟩ := isSome_iff_exists.1 he
  cases ho : t.cow.ownCompression with
  | none =>
    refine ⟨t, ?_, ?_, rfl, ?_⟩ <;>
      simp [setCompression, compressionOf, ho, ht, hroot]
  | some c' =>
    refine ⟨{ t with cow := { t.cow with ownCompression := some c } }, ?_⟩
    simp [setCompression, compressionOf, ho, he]

theorem TaskSound.step (h : TaskSound s t) (ht : s.task = some t) {a : TaskStep}
    (hstep : s.taskStep opts a = .ok s') : ∃ t', s'.task = some t' ∧ TaskSound s' t' := by
  obtain ⟨t', ht', heff⟩ := taskStep_effect ht hstep
  obtain ⟨hmap, -, hpend, -⟩ := taskStep_frame hstep
  obtain ⟨hsound, hle⟩ := h.sound.step heff.data
  refine ⟨t', ht', hsound, fun m' hm' ↦ ?_, fun q hq ↦ ?_, fun fps hfps q hq ↦ ?_, ?_, fun hn ↦ ?_⟩
  · cases heff.segment with
    | absent _ hs' => simp [hs'] at hm'
    | create _ hs' =>
      rw [hs', some.injEq] at hm'
      exact hm' ▸ .empty (IsAppend.poolBelow ⟨0, 0, rfl⟩)
    | step hs hs' hstep =>
      rw [hs', some.injEq] at hm'
      exact hm' ▸ ((h.segSound _ hs).step hstep).1
  · rcases heff.freed q hq with hq | ⟨page, hpage⟩
    · exact (h.freed q hq).trans_le hle
    · exact (h.sound.below page q hpage).trans_le hle
  · exact (h.pending fps (hpend ▸ hfps) q hq).trans_le hle
  · rw [← isSome_mappers, hmap, isSome_mappers]
    exact h.entry
  · rw [bind_segmentMapper, hmap, ← bind_segmentMapper]
    refine h.entrySegment ?_
    cases heff.segment with
    | absent hs _ => exact hs
    | create _ hs' => simp [hs'] at hn
    | step _ hs' _ => simp [hs'] at hn

/-- The builder only grows, and grows with every step that changes the data mapping. The roots
change only when the tree sets them. -/
structure StepFrame (a : TaskStep) (t t' : WriteTask) : Prop where
  grows : t.walBuilder ≠ [] → t'.walBuilder ≠ []
  records : a.writesData = true → t'.walBuilder ≠ []
  roots : a.setsRoots = false → t'.cow.rootId = t.cow.rootId ∧ t'.cow.ttlRootId = t.cow.ttlRootId
  size : t'.cow.manifestSize = t.cow.manifestSize

theorem StepFrame.of_step {a : TaskStep} (ht : s.task = some t)
    (hstep : s.taskStep opts a = .ok s') : ∃ t', s'.task = some t' ∧ StepFrame a t t' := by
  obtain ⟨t', ht', hc⟩ := taskStep_change ht hstep
  refine ⟨t', ht', ?_, ?_, fun ha ↦ hc.roots ?_, hc.size⟩
  · cases hc.data with
    | same _ hw => exact hw ▸ id
    | getPage heq | updateStat _ _ _ heq => exact heq ▸ id
    | allocatePage _ _ hw => simp [hw]
    | freePage _ heq => simp [heq, WriteTask.freePage]
  · intro ha
    cases hc.data with
    | same _ _ _ _ hoff => cases a <;> simp [TaskStep.writesData, TaskStep.onData] at ha hoff
    | getPage | updateStat => cases ha
    | allocatePage _ _ hw => simp [hw]
    | freePage _ heq => simp [heq, WriteTask.freePage]
  · rintro r tr n rfl
    cases ha

namespace TaskInv

variable {t' : WriteTask} {a : TaskStep}

section

variable (h : TaskInv s t) (ht : s.task = some t) (hstep : s.taskStep opts a = .ok s')

include h ht hstep

private theorem mapping_step (ht' : s'.task = some t') :
    ∀ q, q ∉ t'.reserved → t'.cow.mapper.toFilePage q =
      (applyDeltas (durable s.manifest).mappingTbl (durable s.manifest).maxFpId
        t'.walBuilder).1.toFilePage q := by
  obtain ⟨t₁, ht₁, hc⟩ := taskStep_change ht hstep
  cases ht₁.symm.trans ht'
  intro q hq
  cases hc.data with
  | same hm hw _ hr =>
    rw [hm, hw]
    exact h.mapping q (hr ▸ hq)
  | getPage heq =>
    subst heq
    have hne : q ∉ t.cow.mapper.getPage.1 :: t.reserved := hq
    rw [mem_cons, not_or] at hne
    rw [show t.getPage.cow.mapper = t.cow.mapper.getPage.2 from rfl,
      toFilePage_getPage, if_neg hne.1]
    exact h.mapping q hne.2
  | allocatePage page? hm hw _ hr =>
    rw [hm, hw, applyDeltas_concat, toFilePage_put, toFilePage_allocated]
    split
    · rfl
    · next hne => exact h.mapping q fun hmem ↦ hq (by rw [hr]; simp [hmem, hne])
  | freePage page heq =>
    subst heq
    rw [show (t.freePage opts page).cow.mapper = t.cow.mapper.freePage page from rfl,
      show (t.freePage opts page).walBuilder = t.walBuilder ++ [(page, .invalid)] from rfl,
      toFilePage_freePage, applyDeltas_concat, toFilePage_put]
    split
    · rfl
    · next hne => exact h.mapping q fun hmem ↦ hq (by simp [WriteTask.freePage, hmem, hne])
  | updateStat _ _ _ heq =>
    subst heq
    exact h.mapping q hq

private theorem segMapping_step (ht' : s'.task = some t') :
    ∀ q, denote t'.cow.segmentMapper q =
      (applyDeltas (durable s.manifest).segmentMappingTbl (durable s.manifest).maxSegmentFpId
        t'.segMappingDeltas).1.toFilePage q := by
  obtain ⟨t₁, ht₁, hc⟩ := taskStep_change ht hstep
  cases ht₁.symm.trans ht'
  intro q
  have hq := h.segMapping q
  cases hc.segment with
  | same hm hd => rw [hm, hd, hq]
  | create hm hm' hd =>
    rw [hm', hd, ← hq, hm]
    rfl
  | allocateSegment page? hm hm' hd =>
    rw [hm', hd, applyDeltas_concat, toFilePage_put, denote_some,
      toFilePage_allocated, ← hq, hm]
    rfl
  | freeSegment page hm hm' hd =>
    rw [hm', hd, applyDeltas_concat, toFilePage_put, denote_some,
      toFilePage_freePage, ← hq, hm]
    rfl
  | updateStat _ _ hm hm' hd =>
    rw [hm', hd, ← hq, hm]
    rfl

/-- A dictionary trained by a step is dirty; the others leave it. -/
private theorem dict_step (ht' : s'.task = some t') (hman : s.manifest ≠ none)
    (hdirty : (s'.compressionOf t').dirty = false) :
    (durable s.manifest).dictBytes = (s'.compressionOf t').dictBytes := by
  by_cases ha : ∀ bytes, a ≠ .buildDictionary bytes
  · obtain ⟨t₁, ht₁, hc⟩ := taskStep_change ht hstep
    cases ht₁.symm.trans ht'
    obtain ⟨hentry, hown⟩ := hc.compression ha
    rw [compressionOf_congr hentry hown] at hdirty ⊢
    exact h.dict hman hdirty
  · obtain ⟨bytes, rfl⟩ : ∃ bytes, a = .buildDictionary bytes := by simpa using ha
    obtain ⟨t₀, ht₀, -, rfl⟩ := taskStep_ok hstep
    cases ht.symm.trans ht₀
    obtain ⟨t₁, ht₁, hcomp, -⟩ :=
      setCompression_spec (c := ⟨true, bytes, true⟩) ht h.entry
    cases ht₁.symm.trans ht'
    simp [hcomp] at hdirty

/-- **Every step of a task keeps the correspondence.** -/
theorem step :
    ∃ t', s'.task = some t' ∧ TaskInv s' t' ∧ s'.manifest = s.manifest := by
  obtain ⟨t', ht', hsound⟩ := h.toTaskSound.step ht hstep
  obtain ⟨-, hman, -⟩ := taskStep_frame hstep
  obtain ⟨t₁, ht₁, hframe⟩ := StepFrame.of_step ht hstep
  cases ht'.symm.trans ht₁
  refine ⟨t', ht', ⟨hsound, ?_, ?_, ?_, ?_, ?_⟩, hman⟩
  · rw [hman]
    exact h.mapping_step ht hstep ht'
  · rw [hman]
    exact h.segMapping_step ht hstep ht'
  · rw [hman]
    exact h.durableSound
  · rw [hframe.size, hman]
    exact h.size
  · rw [hman]
    exact h.dict_step ht hstep ht'

end

variable {as : List TaskStep}

/-- **Any number of steps keep it.** -/
theorem steps (h : TaskInv s t) (ht : s.task = some t) (hsteps : s.taskSteps opts as = .ok s') :
    ∃ t', s'.task = some t' ∧ TaskInv s' t' ∧ s'.manifest = s.manifest := by
  refine taskSteps_induction
    (P := fun y ↦ ∃ t, y.task = some t ∧ TaskInv y t ∧ y.manifest = s.manifest)
    ⟨t, ht, h, rfl⟩ hsteps fun _ ⟨t₁, ht₁, h₁, hman⟩ hs ↦ ?_
  obtain ⟨t', ht', h', hman'⟩ := h₁.step ht₁ hs
  exact ⟨t', ht', h', hman'.trans hman⟩

end TaskInv

/-! ### The frame of a commit -/

/-- What a flush keeps: the copy's mappers and what the task gives up, and of the partition all but
the manifest and the dictionary. -/
structure FlushFrame (s s' : Partition) (t t' : WriteTask) : Prop where
  mapper : t'.cow.mapper = t.cow.mapper
  segmentMapper : t'.cow.segmentMapper = t.cow.segmentMapper
  freed : t'.toFreeFilePages = t.toFreeFilePages
  ranges : s'.branchFileMapping = s.branchFileMapping
  mappers : s'.mappers = s.mappers
  pending : s'.pendingFree = s.pendingFree
  owner : s'.owner = s.owner

theorem Partition.flushManifest_frame (opts : KvOptions) (ht : s.task = some t)
    (he : s.entry.isSome) : ∃ t', (s.flushManifest opts t).task = some t' ∧
      FlushFrame s (s.flushManifest opts t) t t' := by
  have hswitch : ∃ t', (s.switchManifest t).task = some t' ∧
      FlushFrame s (s.switchManifest t) t t' := by
    obtain ⟨t', ht', -, heq, -, hranges, hpend, hbranch, hterm, -⟩ := setCompression_spec
      (s := { s with
        manifest := some ⟨s.snapshotOf t, []⟩
        task := some (flushed t (s.snapshotOf t).size) })
      (c := { s.compressionOf t with dirty := false }) rfl he
    have howner : (s.switchManifest t).owner = s.owner := by
      rw [owner, owner]
      exact congr (congrArg Owner.mk hbranch) hterm
    refine ⟨t', ht', ?_, ?_, ?_, hranges, mappers_setCompression _ _ _, hpend, howner⟩
    all_goals
      rw [heq]
      rfl
  unfold flushManifest
  split
  · exact ⟨t, ht, rfl, rfl, rfl, rfl, rfl, rfl, rfl⟩
  · split
    · exact hswitch
    · split
      · exact ⟨_, rfl, rfl, rfl, rfl, rfl, rfl, rfl, rfl⟩
      · exact hswitch

/-- **What a commit publishes**: the copy's mappers, under the ranges as they are. -/
structure CommitFrame (opts : KvOptions) (s s' : Partition) (t : WriteTask)
    (sm? : Option PageMapper) : Prop where
  idle : s'.task = none
  /-- The mappers published; a copy without a segment mapper leaves the entry's in place. -/
  mappers : s'.mappers = some (some t.cow.mapper, t.cow.segmentMapper.or sm?)
  ranges : s'.branchFileMapping = s.branchFileMapping
  manifest : s'.manifest = (s.flushManifest opts t).manifest
  /-- In pooled mode, what the task gives up waits for the readers of the replaced mapping. -/
  pending : s'.pendingFree =
    if opts.dataAppendMode then s.pendingFree else s.pendingFree ++ [t.toFreeFilePages]
  owner : s'.owner = s.owner

theorem Partition.updateMeta_spec (opts : KvOptions) {m? sm? : Option PageMapper}
    (ht : s.task = some t) (hm : s.mappers = some (m?, sm?)) :
    CommitFrame opts s (s.updateMeta opts t) t sm? := by
  have he : s.entry.isSome := isSome_entry hm
  obtain ⟨t', ht', hf⟩ := flushManifest_frame opts ht he
  have hmappers := hf.mappers.trans hm
  obtain ⟨root, hroot, hpair⟩ := map_eq_some_iff.1 hmappers
  obtain ⟨-, hseg⟩ := Prod.mk.inj hpair
  simp only [updateMeta, ht']
  refine ⟨rfl, ?_, hf.ranges, rfl, ?_, hf.owner⟩
  · simp only [mappers, updateRoot, hroot, map_some, hf.mapper,
      hf.segmentMapper, hseg]
  · simp only [updateRoot, hf.pending, hf.freed]

/-! ### Tasks that change nothing, and tasks that change the data mapping -/

theorem Quiet.step (h : Quiet s t) (ht : s.task = some t) {a : TaskStep} (ha : a.isQuiet = true)
    (hstep : s.taskStep opts a = .ok s') : ∃ t', s'.task = some t' ∧ Quiet s' t' := by
  obtain ⟨t₀, ht₀, heff⟩ := taskStep_ok hstep
  cases ht.symm.trans ht₀
  cases a with
  | getPage =>
    obtain rfl := heff
    exact ⟨_, rfl, { h with }⟩
  | ensureSegmentMapper =>
    obtain rfl := heff
    refine ⟨_, rfl, ?_⟩
    cases hseg : t.cow.segmentMapper with
    | some m =>
      have heq : t.ensureSegmentMapper opts = t := by simp [ensureSegmentMapper, hseg]
      rw [heq]
      exact { h with }
    | none =>
      have heq : t.ensureSegmentMapper opts = { t with cow := { t.cow with
          segmentMapper := some (.empty (newSegmentAllocator opts)) } } := by
        simp [ensureSegmentMapper, hseg]
      rw [heq]
      exact { h with }
  | updateStat c minFileId holeCnt =>
    obtain ⟨-, rfl⟩ := heff
    cases c <;> exact ⟨_, rfl, { h with }⟩
  | allocatePage _ | freePage _ | allocateSegment _ | freeSegment _ | buildDictionary _
  | setRoots _ _ _ => simp [TaskStep.isQuiet] at ha

theorem Quiet.steps (h : Quiet s t) (ht : s.task = some t) (has : ∀ a ∈ as, a.isQuiet = true)
    (hsteps : s.taskSteps opts as = .ok s') : ∃ t', s'.task = some t' ∧ Quiet s' t' :=
  taskSteps_induction (P := fun y ↦ ∃ t, y.task = some t ∧ Quiet y t) ⟨t, ht, h⟩ hsteps
    fun ha ⟨_, ht, h⟩ hs ↦ h.step ht (has _ ha) hs

/-- A run of steps one of which changes the data mapping leaves a builder that is not empty; one
that sets no roots leaves the roots. -/
theorem TaskInv.steps_frame (h : TaskInv s t) (ht : s.task = some t)
    (hsteps : s.taskSteps opts as = .ok s') : ∃ t', s'.task = some t' ∧
      ((t.walBuilder ≠ [] ∨ ∃ a ∈ as, a.writesData = true) → t'.walBuilder ≠ []) ∧
      ((∀ a ∈ as, a.setsRoots = false) →
        t'.cow.rootId = t.cow.rootId ∧ t'.cow.ttlRootId = t.cow.ttlRootId) ∧
      t'.cow.manifestSize = t.cow.manifestSize := by
  induction as generalizing s t with
  | nil =>
    obtain rfl : s = s' := by simpa [taskSteps] using hsteps
    exact ⟨t, ht, by simp, fun _ ↦ ⟨rfl, rfl⟩, rfl⟩
  | cons a as ih =>
    obtain ⟨s₁, hs₁, hrest⟩ := taskSteps_cons hsteps
    obtain ⟨t₁, ht₁, hinv₁, -⟩ := h.step ht hs₁
    obtain ⟨t₂, ht₂, hf⟩ := StepFrame.of_step ht hs₁
    obtain rfl : t₁ = t₂ := by simpa [ht₁] using ht₂
    obtain ⟨t', ht', hwal, hroots, hsize⟩ := ih hinv₁ ht₁ hrest
    refine ⟨t', ht', fun hw ↦ hwal ?_, fun hr ↦ ?_, hsize.trans hf.size⟩
    · rcases hw with hw | ⟨b, hb, hw⟩
      · exact .inl (hf.grows hw)
      · rcases mem_cons.1 hb with rfl | hb
        · exact .inl (hf.records hw)
        · exact .inr ⟨b, hb, hw⟩
    · obtain ⟨h₁, h₂⟩ := hroots fun b hb ↦ hr b (by simp [hb])
      obtain ⟨h₃, h₄⟩ := hf.roots (hr a (by simp))
      exact ⟨h₁.trans h₃, h₂.trans h₄⟩

end EloqStore
