import EloqStore.Manifest.Replayer

/-!
# A partition and the write task that changes it

The state of one partition in one store instance (`Partition`): its entry in the root cache, the
branch file ranges the I/O manager keeps for it, the manifest of the active branch on disk, and the
write task in progress. Only one write task runs on a partition at a time.

A write task works on a copy: `makeCowRoot` clones the mappers, the task's steps change the clones
and record every change, and `updateMeta` writes the manifest and publishes the clones. Two things
are **not** copied. The branch file ranges are changed in place by every allocation, and the
compression dictionary is an object the copy shares with the published entry; an abort undoes
neither.

The functions are the source's, in the order a task calls them; a `none` is the failure of one of
the source's always-on checks, which stops the process.
-/

namespace EloqStore

open Option

/-- The state of a partition's dictionary compression. -/
structure DictCompression where
  /-- A dictionary has been loaded or trained. -/
  hasDictionary : Bool := false
  /-- Its bytes; empty when training failed. -/
  dictionary : List UInt8 := []
  /-- The dictionary is in no manifest yet. -/
  dirty : Bool := false
deriving DecidableEq, Repr

/-- The bytes a manifest stores for the dictionary. -/
def DictCompression.dictBytes (c : DictCompression) : List UInt8 :=
  if c.hasDictionary then c.dictionary else []

/-- The entry of a partition in the root cache. The mapper is absent in a stub, which stands for a
partition that does not exist. -/
structure RootMeta where
  rootId : Option ℕ := none
  ttlRootId : Option ℕ := none
  mapper : Option PageMapper := none
  segmentMapper : Option PageMapper := none
  manifestSize : ℕ := 0
  nextExpireTs : ℕ := 0
  compression : Option DictCompression := some {}
  /-- The data allocator's maximum at the last manifest write. -/
  firstUnflushedFpId : ℕ := 0
  /-- The segment allocator's maximum at the last manifest write. -/
  firstUnflushedSegFpId : ℕ := 0
deriving DecidableEq, Repr

/-- A write task's private copy of the root. -/
structure CowRootMeta where
  rootId : Option ℕ := none
  ttlRootId : Option ℕ := none
  mapper : PageMapper
  segmentMapper : Option PageMapper := none
  manifestSize : ℕ := 0
  nextExpireTs : ℕ := 0
  /-- A compression object of the task's own; `none` when it shares the published entry's. -/
  ownCompression : Option DictCompression := none
  /-- The data allocator's maximum at the last manifest write of this task. -/
  firstUnflushedFpId : ℕ := 0
  /-- The segment allocator's maximum at the last manifest write of this task. -/
  firstUnflushedSegFpId : ℕ := 0
deriving DecidableEq, Repr

/-- A write task. -/
structure WriteTask where
  cow : CowRootMeta
  /-- The changes to the data mapping, as the manifest builder collects them. -/
  walBuilder : List (ℕ × MappingValue) := []
  segMappingDeltas : List (ℕ × MappingValue) := []
  lastSeenSegmentFileId : Option ℕ := none
  /-- File pages the old mapping gives up when this task commits (pooled mode). -/
  toFreeFilePages : List ℕ := []
  /-- Logical ids reserved with `getPage` whose page has not been written yet. The source keeps
  them in local variables. -/
  reserved : List ℕ := []
deriving DecidableEq, Repr

/-- A partition of a running store instance. -/
structure Partition where
  activeBranch : BranchName
  processTerm : ℕ
  entry : Option RootMeta := none
  /-- The partition's branch file ranges in the I/O manager. -/
  branchFileMapping : BranchFileMapping := []
  task : Option WriteTask := none
  manifest : Option Manifest := none
  /-- File pages given up by the replaced mappings that are still pinned, oldest mapping first
  (pooled mode). -/
  pendingFree : List (List ℕ) := []
deriving DecidableEq, Repr

/-- A partition that has never been written. -/
def Partition.fresh (branch : BranchName) (term : ℕ) : Partition :=
  { activeBranch := branch, processTerm := term }

/-- The writer the instance's files are named by. -/
def Partition.owner (s : Partition) : Owner := ⟨s.activeBranch, s.processTerm⟩

/-! ### Loading and copying the root -/

/-- The allocator of a partition created from nothing. -/
def newAllocator (opts : KvOptions) : FilePageAllocator :=
  ⟨opts.pagesPerFileShift, 0, if opts.dataAppendMode then .append 0 0 else .pooled []⟩

/-- The segment allocator of `EnsureSegmentMapper`. -/
def newSegmentAllocator (opts : KvOptions) : FilePageAllocator :=
  ⟨opts.segmentsPerFileShift, 0, .append 0 0⟩

def RootMeta.ofReplayer (opts : KvOptions) (term : ℕ) (r : Replayer) : RootMeta where
  rootId := r.root
  ttlRootId := r.ttlRoot
  mapper := some (r.getMapper opts term)
  segmentMapper := r.getSegmentMapper opts term
  manifestSize := r.fileSize
  nextExpireTs := if r.ttlRoot.isSome then 1 else 0
  compression := some (if r.dictBytes = [] then {} else ⟨true, r.dictBytes, false⟩)
  firstUnflushedFpId := (r.getMapper opts term).allocator.maxFpId
  firstUnflushedSegFpId :=
    ((r.getSegmentMapper opts term).map (·.allocator.maxFpId)).getD 0

namespace Partition

variable (opts : KvOptions) (s : Partition)

/-- Load the manifest into the root cache, with its branch file ranges. -/
def loadMeta (m : Manifest) : Partition :=
  { s with
    entry := some (RootMeta.ofReplayer opts s.processTerm (replay m))
    branchFileMapping := (replay m).branchMetadata.fileRanges }

/-- Find the root, loading it if it is not cached. -/
def findRoot : Partition :=
  match s.entry with
  | some _ => s
  | none =>
    match s.manifest with
    | none => s
    | some m => s.loadMeta opts m

/-- Start a write task on a copy of the root. A partition that does not exist gets a stub entry and
a copy made from nothing. -/
def makeCowRoot : Partition :=
  let s' := s.findRoot opts
  match s'.entry with
  | some root =>
    match root.mapper with
    | some mapper =>
      { s' with
        task := some
          { cow :=
              { rootId := root.rootId
                ttlRootId := root.ttlRootId
                mapper := mapper
                segmentMapper := root.segmentMapper
                manifestSize := root.manifestSize
                nextExpireTs := root.nextExpireTs } } }
    | none =>
      { s' with
        task := some
          { cow := { mapper := .empty (newAllocator opts), ownCompression := some {} } } }
  | none =>
    { s' with
      entry := some {}
      task := some
        { cow := { mapper := .empty (newAllocator opts), ownCompression := some {} } } }

end Partition

/-! ### What a write task does -/

namespace WriteTask

variable (opts : KvOptions) (w : Owner)

variable (t : WriteTask)

def getPage : WriteTask :=
  { t with
    cow := { t.cow with mapper := t.cow.mapper.getPage.2 }
    reserved := t.cow.mapper.getPage.1 :: t.reserved }

/-- The logical page an allocation is for, and the mapper after choosing it. -/
def choosePage (mapper : PageMapper) : Option ℕ → ℕ × PageMapper
  | some page => (page, mapper)
  | none => mapper.getPage

/-- The file page a logical page gives up with the old mapping. In append mode nothing is reused. -/
def givenUp (mapper : PageMapper) (page? : Option ℕ) : List ℕ :=
  if opts.dataAppendMode then [] else (page?.bind mapper.toFilePage).toList

/-- Allocate a file page for a logical page (a new one for `none`), recording the files the
allocator touches and the change of the mapping. Returns the file page. -/
def allocatePage (ranges : BranchFileMapping) (page? : Option ℕ) :
    Option (ℕ × WriteTask × BranchFileMapping) :=
  let (page, mapper) := choosePage t.cow.mapper page?
  let alloc := mapper.allocator
  (stampFiles ranges .data w true alloc.currentFileId alloc.allocate.2.currentFileId).map
    fun ranges' ↦
      (alloc.allocate.1,
        { t with
          cow := { t.cow with
            mapper := { mapper with allocator := alloc.allocate.2 }.updateMapping page
              alloc.allocate.1 }
          walBuilder := t.walBuilder ++ [(page, .filePageId alloc.allocate.1)]
          toFreeFilePages := t.toFreeFilePages ++ givenUp opts t.cow.mapper page?
          reserved := t.reserved.filter (· ≠ page) },
        ranges')

def freePage (page : ℕ) : WriteTask :=
  { t with
    cow := { t.cow with mapper := t.cow.mapper.freePage page }
    walBuilder := t.walBuilder ++ [(page, .invalid)]
    toFreeFilePages := t.toFreeFilePages ++ givenUp opts t.cow.mapper (some page)
    reserved := t.reserved.filter (· ≠ page) }

/-- Create the segment mapper if the partition has none. -/
def ensureSegmentMapper : WriteTask :=
  match t.cow.segmentMapper with
  | some _ => t
  | none =>
    { t with cow := { t.cow with segmentMapper := some (.empty (newSegmentAllocator opts)) } }

/-- Allocate a file segment for a logical segment (a new one for `none`). The range of the file
allocated from is looked up only when it is not the file seen last. -/
def allocateSegment (ranges : BranchFileMapping) (page? : Option ℕ) :
    Option (ℕ × WriteTask × BranchFileMapping) :=
  t.cow.segmentMapper.bind fun segMapper ↦
    let (page, mapper) := choosePage segMapper page?
    let alloc := mapper.allocator
    (stampFiles ranges .segment w (t.lastSeenSegmentFileId ≠ some alloc.currentFileId)
      alloc.currentFileId alloc.allocate.2.currentFileId).map fun ranges' ↦
        (alloc.allocate.1,
          { t with
            cow := { t.cow with
              segmentMapper := some ({ mapper with allocator := alloc.allocate.2 }.updateMapping
                page alloc.allocate.1) }
            segMappingDeltas := t.segMappingDeltas ++ [(page, .filePageId alloc.allocate.1)]
            lastSeenSegmentFileId := some alloc.allocate.2.currentFileId },
          ranges')

/-- Free a logical segment of a deleted large value. -/
def freeSegment (page : ℕ) : WriteTask :=
  { t with
    cow := { t.cow with segmentMapper := t.cow.segmentMapper.map (·.freePage page) }
    segMappingDeltas := t.segMappingDeltas ++ [(page, .invalid)] }

/-- Record a compaction's statistics in an allocator. -/
def updateStat (c : FileClass) (minFileId holeCnt : ℕ) : WriteTask :=
  match c with
  | .data =>
    { t with cow := { t.cow with mapper := { t.cow.mapper with
        allocator := t.cow.mapper.allocator.updateStat minFileId holeCnt } } }
  | .segment =>
    { t with cow := { t.cow with segmentMapper := t.cow.segmentMapper.map fun m ↦
        { m with allocator := m.allocator.updateStat minFileId holeCnt } } }

end WriteTask

namespace Partition

variable (opts : KvOptions) (s : Partition) (t : WriteTask)

/-- The compression object a task works with. -/
def compressionOf : DictCompression :=
  match t.cow.ownCompression with
  | some c => c
  | none => (s.entry.bind (·.compression)).getD {}

/-- Change the compression object a task works with: its own, or the published entry's. -/
def setCompression (c : DictCompression) : Partition :=
  match t.cow.ownCompression with
  | some _ => { s with task := some { t with cow := { t.cow with ownCompression := some c } } }
  | none => { s with entry := s.entry.map fun root ↦ { root with compression := some c } }

/-- The branch metadata a manifest written now carries. -/
def branchMetadata : BranchManifestMetadata :=
  ⟨s.activeBranch, s.processTerm, s.branchFileMapping⟩

def snapshotOf : SnapshotRecord where
  root := t.cow.rootId
  ttlRoot := t.cow.ttlRootId
  maxFpId := t.cow.mapper.allocator.maxFpId
  dictBytes := (s.compressionOf t).dictBytes
  mappingTbl := t.cow.mapper.tbl
  branchMetadata := s.branchMetadata
  segment := t.cow.segmentMapper.map fun m ↦ (m.allocator.maxFpId, m.tbl)

/-- The log record of a task's changes. -/
def logOf : LogRecord where
  root := t.cow.rootId
  ttlRoot := t.cow.ttlRootId
  mappingUpdates := t.walBuilder
  branchMetadata := s.branchMetadata
  segmentDeltas := t.segMappingDeltas

/-- The manifest must say that the partition is empty although the task changed no mapping. -/
def needEmptySnapshot : Bool :=
  t.walBuilder.isEmpty && t.cow.rootId.isNone && t.cow.ttlRootId.isNone &&
    decide (0 < t.cow.manifestSize)

/-- The task as a manifest write of `size` bytes in all leaves it. -/
def flushed (size : ℕ) : WriteTask :=
  { t with cow := { t.cow with
      manifestSize := size
      firstUnflushedFpId := t.cow.mapper.allocator.maxFpId
      firstUnflushedSegFpId := (t.cow.segmentMapper.map (·.allocator.maxFpId)).getD 0 } }

/-- Rewrite the manifest from the task's copy; the dictionary is then no longer dirty. -/
def switchManifest : Partition :=
  let snapshot := s.snapshotOf t
  let t' := flushed t snapshot.size
  { s with manifest := some ⟨snapshot, []⟩, task := some t' }.setCompression t'
    { s.compressionOf t with dirty := false }

/-- Append the task's changes to the manifest. -/
def appendManifest : Partition :=
  let log := s.logOf t
  { s with
    manifest := s.manifest.map fun m ↦ { m with logs := m.logs ++ [log] }
    task := some (flushed t (t.cow.manifestSize + log.size)) }

/-- Write a task's changes to the manifest. **Nothing is written when the builder of data-mapping
changes is empty**, unless the partition has become empty. -/
def flushManifest : Partition :=
  if t.walBuilder.isEmpty && !needEmptySnapshot t then s
  else if needEmptySnapshot t then s.switchManifest t
  else if !(s.compressionOf t).dirty && decide (0 < t.cow.manifestSize) &&
      decide (t.cow.manifestSize + (s.logOf t).size ≤ opts.manifestLimit) then s.appendManifest t
  else s.switchManifest t

/-- Publish a task's copy. A copy without a segment mapper leaves the entry's in place. -/
def updateRoot : Partition :=
  { s with
    entry := s.entry.map fun root ↦
      { rootId := t.cow.rootId
        ttlRootId := t.cow.ttlRootId
        mapper := some t.cow.mapper
        segmentMapper := t.cow.segmentMapper.or root.segmentMapper
        manifestSize := t.cow.manifestSize
        nextExpireTs := t.cow.nextExpireTs
        compression := t.cow.ownCompression.or root.compression
        firstUnflushedFpId := t.cow.firstUnflushedFpId
        firstUnflushedSegFpId := t.cow.firstUnflushedSegFpId }
    task := none
    pendingFree := if opts.dataAppendMode then s.pendingFree
      else s.pendingFree ++ [t.toFreeFilePages] }

/-- Commit: write the manifest, then publish. -/
def updateMeta : Partition :=
  let s' := s.flushManifest opts t
  match s'.task with
  | some t' => s'.updateRoot opts t'
  | none => s'

theorem owner_updateMeta : (s.updateMeta opts t).owner = s.owner := by
  have hset : ∀ (s : Partition) t c, (s.setCompression t c).owner = s.owner := by
    intro s t c
    unfold setCompression
    split <;> rfl
  have hflush : (s.flushManifest opts t).owner = s.owner := by
    unfold flushManifest
    split
    · rfl
    · split
      · exact hset _ _ _
      · split
        · rfl
        · exact hset _ _ _
  unfold updateMeta
  dsimp only
  split <;> exact hflush

/-- Abort: drop the copy. The file ranges and the shared compression object stay as they are. -/
def abort : Partition := { s with task := none }

/-- Return file pages to the published pool, which has 32 bits for an id. -/
def freeToPool (a : FilePageAllocator) (fps : List ℕ) : FilePageAllocator :=
  match a.kind with
  | .append _ _ => a
  | .pooled ids => { a with kind := .pooled ((fps.map (· % 2 ^ 32)).reverse ++ ids) }

/-- The oldest replaced mapping is released: its file pages return to the published pool. -/
def freeMappingSnapshot : Partition :=
  match s.pendingFree with
  | [] => s
  | fps :: rest =>
    { s with
      entry := s.entry.map fun root ↦ { root with
        mapper := root.mapper.map fun m ↦ { m with allocator := freeToPool m.allocator fps } }
      pendingFree := rest }

end Partition

/-! ### What a task starts from -/

namespace Partition

variable {s : Partition}

def mappers (s : Partition) : Option (Option PageMapper × Option PageMapper) :=
  s.entry.map fun root ↦ (root.mapper, root.segmentMapper)

theorem isSome_mappers (s : Partition) : s.mappers.isSome = s.entry.isSome := by
  rw [mappers, isSome_map]

theorem exists_mappers (h : s.entry.isSome) : ∃ m? sm?, s.mappers = some (m?, sm?) := by
  obtain ⟨⟨m?, sm?⟩, hm⟩ := isSome_iff_exists.1 (s.isSome_mappers.trans h)
  exact ⟨m?, sm?, hm⟩

theorem isSome_entry {p : Option PageMapper × Option PageMapper} (h : s.mappers = some p) :
    s.entry.isSome := by
  rw [← isSome_mappers, h]
  rfl

theorem bind_segmentMapper (s : Partition) :
    s.entry.bind (·.segmentMapper) = s.mappers.bind (·.2) := by
  rw [mappers, bind_map]
  rfl

@[simp] theorem mappers_setCompression (s : Partition) (t : WriteTask) (c : DictCompression) :
    (s.setCompression t c).mappers = s.mappers := by
  unfold setCompression
  split
  · rfl
  · simp only [mappers, map_map]
    rfl

/-- A task copies the published mappers; a stub gives an empty data mapper and nothing else. -/
theorem makeCowRoot_of_mappers (opts : KvOptions) {m? sm? : Option PageMapper}
    (h : s.mappers = some (m?, sm?)) :
    ∃ t, (s.makeCowRoot opts).task = some t ∧ (s.makeCowRoot opts).mappers = some (m?, sm?) ∧
      (s.makeCowRoot opts).branchFileMapping = s.branchFileMapping ∧
      t.cow.mapper = m?.getD (.empty (newAllocator opts)) ∧
      t.cow.segmentMapper = m?.bind fun _ ↦ sm? := by
  obtain ⟨root, hroot, hpair⟩ := map_eq_some_iff.1 h
  obtain ⟨rfl, rfl⟩ := Prod.mk.inj hpair
  have hfind : s.findRoot opts = s := by simp [findRoot, hroot]
  unfold makeCowRoot
  cases hm : root.mapper with
  | some m =>
    simp only [hfind, hroot, hm]
    exact ⟨_, rfl, by simp [mappers, hm], trivial, rfl, rfl⟩
  | none =>
    simp only [hfind, hroot, hm]
    exact ⟨_, rfl, by simp [mappers, hm], trivial, rfl, rfl⟩

/-- After a start there is an entry, and the task is a copy of it. -/
theorem makeCowRoot_spec (opts : KvOptions) (s : Partition) :
    ∃ t m? sm?, (s.makeCowRoot opts).task = some t ∧
      (s.makeCowRoot opts).mappers = some (m?, sm?) ∧
      t.cow.mapper = m?.getD (.empty (newAllocator opts)) ∧
      t.cow.segmentMapper = (m?.bind fun _ ↦ sm?) ∧
      t.walBuilder = [] ∧ t.segMappingDeltas = [] ∧ t.lastSeenSegmentFileId = none := by
  unfold makeCowRoot
  dsimp only
  split
  · next root hroot =>
    split
    · next m hm =>
      exact ⟨_, some m, root.segmentMapper, rfl, by simp [mappers, hroot, hm], rfl, rfl, rfl, rfl,
        rfl⟩
    · next hm =>
      exact ⟨_, none, root.segmentMapper, rfl, by simp [mappers, hroot, hm], rfl, rfl, rfl, rfl,
        rfl⟩
  · exact ⟨_, none, none, rfl, rfl, rfl, rfl, rfl, rfl, rfl⟩

/-- The frame of a start: the root is loaded if it can be, and a stub put in its place if not. -/
theorem makeCowRoot_frame (opts : KvOptions) (s : Partition) :
    (s.makeCowRoot opts).mappers = (s.findRoot opts).mappers.or (some (none, none)) ∧
      (s.makeCowRoot opts).branchFileMapping = (s.findRoot opts).branchFileMapping ∧
      (s.makeCowRoot opts).manifest = s.manifest ∧
      (s.makeCowRoot opts).pendingFree = s.pendingFree ∧
      (s.makeCowRoot opts).owner = s.owner ∧
      ∀ t, (s.makeCowRoot opts).task = some t → t.toFreeFilePages = [] ∧ t.reserved = [] := by
  have hfind : (s.findRoot opts).manifest = s.manifest ∧
      (s.findRoot opts).pendingFree = s.pendingFree ∧ (s.findRoot opts).owner = s.owner := by
    unfold findRoot
    split
    · exact ⟨rfl, rfl, rfl⟩
    · split <;> exact ⟨rfl, rfl, rfl⟩
  obtain ⟨hman, hpend, howner⟩ := hfind
  unfold makeCowRoot
  dsimp only
  split
  · next root hroot =>
    have hor : (s.findRoot opts).mappers.or (some (none, none)) =
        some (root.mapper, root.segmentMapper) := by
      rw [mappers, hroot]
      rfl
    split
    · refine ⟨?_, rfl, hman, hpend, howner, fun t ht ↦ ?_⟩
      · rw [hor, mappers, hroot]
        rfl
      · cases ht
        exact ⟨rfl, rfl⟩
    · refine ⟨?_, rfl, hman, hpend, howner, fun t ht ↦ ?_⟩
      · rw [hor, mappers, hroot]
        rfl
      · cases ht
        exact ⟨rfl, rfl⟩
  · next hroot =>
    refine ⟨?_, rfl, hman, hpend, howner, fun t ht ↦ ?_⟩
    · rw [mappers, mappers, hroot]
      rfl
    · cases ht
      exact ⟨rfl, rfl⟩

end Partition

/-! ### Steps of a running task -/

/-- What a running task can do between `makeCowRoot` and `updateMeta`. -/
inductive TaskStep
  | getPage
  | allocatePage (page? : Option ℕ)
  | freePage (page : ℕ)
  | ensureSegmentMapper
  | allocateSegment (page? : Option ℕ)
  | freeSegment (page : ℕ)
  | updateStat (c : FileClass) (minFileId holeCnt : ℕ)
  | buildDictionary (bytes : List UInt8)
  | setRoots (rootId ttlRootId : Option ℕ) (nextExpireTs : ℕ)
deriving DecidableEq, Repr

/-- Why a step is not taken. -/
inductive Failure
  /-- The code never takes it in this state. -/
  | disabled
  | checkFailed
deriving DecidableEq, Repr

namespace Partition

/-- Store the result of an allocation. -/
def afterAllocation (s : Partition) :
    Option (ℕ × WriteTask × BranchFileMapping) → Except Failure Partition
  | none => .error .checkFailed
  | some (_, t, ranges) => .ok { s with task := some t, branchFileMapping := ranges }

def taskStep (opts : KvOptions) (s : Partition) (a : TaskStep) : Except Failure Partition :=
  match s.task with
  | none => .error .disabled
  | some t =>
    match a with
    | .getPage => .ok { s with task := some t.getPage }
    | .allocatePage page? =>
      s.afterAllocation (t.allocatePage opts s.owner s.branchFileMapping page?)
    | .freePage page => .ok { s with task := some (t.freePage opts page) }
    | .ensureSegmentMapper => .ok { s with task := some (t.ensureSegmentMapper opts) }
    | .allocateSegment page? =>
      if t.cow.segmentMapper.isNone then .error .disabled
      else s.afterAllocation (t.allocateSegment s.owner s.branchFileMapping page?)
    | .freeSegment page =>
      if t.cow.segmentMapper.isNone then .error .disabled
      else .ok { s with task := some (t.freeSegment page) }
    | .updateStat c minFileId holeCnt =>
      -- a pool keeps no such statistics
      if c = .data ∧ opts.dataAppendMode = false then .error .disabled
      else .ok { s with task := some (t.updateStat c minFileId holeCnt) }
    | .buildDictionary bytes =>
      if (s.compressionOf t).hasDictionary then .error .disabled
      else .ok (s.setCompression t ⟨true, bytes, true⟩)
    | .setRoots rootId ttlRootId nextExpireTs =>
      .ok { s with task := some { t with cow := { t.cow with
        rootId := rootId, ttlRootId := ttlRootId, nextExpireTs := nextExpireTs } } }

/-- Several steps of the running task. -/
def taskSteps (opts : KvOptions) : Partition → List TaskStep → Except Failure Partition
  | s, [] => .ok s
  | s, a :: as => (s.taskStep opts a).bind fun s' ↦ taskSteps opts s' as

end Partition

/-! ### What a step does -/

namespace WriteTask

variable {opts : KvOptions} {w : Owner} {t t' : WriteTask} {ranges ranges' : BranchFileMapping}
  {page? : Option ℕ} {fp : ℕ}

variable (m : PageMapper)

@[simp] theorem choosePage_allocator (page? : Option ℕ) :
    (choosePage m page?).2.allocator = m.allocator := by
  cases page? <;> simp [choosePage]

theorem toFilePage_choosePage (page? : Option ℕ) {q : ℕ} (hq : q ≠ (choosePage m page?).1) :
    (choosePage m page?).2.toFilePage q = m.toFilePage q := by
  cases page? with
  | some page => rfl
  | none => exact (m.toFilePage_getPage q).trans (if_neg hq)

/-- The mapper an allocation leaves. -/
def allocated (page? : Option ℕ) : PageMapper :=
  { (choosePage m page?).2 with allocator := m.allocator.allocate.2 }.updateMapping
    (choosePage m page?).1 m.allocator.allocate.1

theorem toFilePage_allocated (page? : Option ℕ) (q : ℕ) :
    (allocated m page?).toFilePage q =
      if q = (choosePage m page?).1 then some m.allocator.allocate.1 else m.toFilePage q := by
  rw [allocated, PageMapper.toFilePage_updateMapping]
  split
  · rfl
  · next h => exact toFilePage_choosePage m page? h

@[simp] theorem allocated_allocator (page? : Option ℕ) :
    (allocated m page?).allocator = m.allocator.allocate.2 := rfl

theorem allocatePage_ok (h : t.allocatePage opts w ranges page? = some (fp, t', ranges')) :
    stampFiles ranges .data w true t.cow.mapper.allocator.currentFileId
        t.cow.mapper.allocator.allocate.2.currentFileId = some ranges' ∧
      fp = t.cow.mapper.allocator.allocate.1 ∧
      t'.cow = { t.cow with mapper := allocated t.cow.mapper page? } ∧
      t'.walBuilder = t.walBuilder ++ [((choosePage t.cow.mapper page?).1, .filePageId fp)] ∧
      t'.segMappingDeltas = t.segMappingDeltas ∧
      t'.lastSeenSegmentFileId = t.lastSeenSegmentFileId ∧
      t'.toFreeFilePages = t.toFreeFilePages ++ givenUp opts t.cow.mapper page? ∧
      t'.reserved = t.reserved.filter (· ≠ (choosePage t.cow.mapper page?).1) := by
  rw [allocatePage, map_eq_some_iff] at h
  simp only [choosePage_allocator] at h
  obtain ⟨ranges₁, hst, heq⟩ := h
  obtain ⟨rfl, rfl, rfl⟩ := heq
  exact ⟨hst, rfl, rfl, rfl, rfl, rfl, rfl, rfl⟩

/-- An allocation succeeds when its files can be recorded. -/
theorem exists_allocatePage (opts : KvOptions) (page? : Option ℕ)
    (h : stampFiles ranges .data w true t.cow.mapper.allocator.currentFileId
      t.cow.mapper.allocator.allocate.2.currentFileId = some ranges') :
    ∃ fp t', t.allocatePage opts w ranges page? = some (fp, t', ranges') := by
  simp only [allocatePage, choosePage_allocator, h, map_some]
  exact ⟨_, _, rfl⟩

theorem mem_givenUp {m : PageMapper} {q : ℕ} (h : q ∈ givenUp opts m page?) :
    ∃ page, m.toFilePage page = some q := by
  unfold givenUp at h
  split at h
  · cases h
  · rw [mem_toList, bind_eq_some_iff] at h
    obtain ⟨page, -, hq⟩ := h
    exact ⟨page, hq⟩

theorem allocateSegment_ok (h : t.allocateSegment w ranges page? = some (fp, t', ranges')) :
    ∃ m, t.cow.segmentMapper = some m ∧
      stampFiles ranges .segment w (t.lastSeenSegmentFileId ≠ some m.allocator.currentFileId)
        m.allocator.currentFileId m.allocator.allocate.2.currentFileId = some ranges' ∧
      fp = m.allocator.allocate.1 ∧
      t'.cow = { t.cow with segmentMapper := some (allocated m page?) } ∧
      t'.walBuilder = t.walBuilder ∧
      t'.segMappingDeltas = t.segMappingDeltas ++ [((choosePage m page?).1, .filePageId fp)] ∧
      t'.lastSeenSegmentFileId = some m.allocator.allocate.2.currentFileId ∧
      t'.toFreeFilePages = t.toFreeFilePages ∧
      t'.reserved = t.reserved := by
  rw [allocateSegment, bind_eq_some_iff] at h
  obtain ⟨m, hm, h⟩ := h
  rw [map_eq_some_iff] at h
  simp only [choosePage_allocator] at h
  obtain ⟨ranges₁, hst, heq⟩ := h
  obtain ⟨rfl, rfl, rfl⟩ := heq
  exact ⟨m, hm, hst, rfl, rfl, rfl, rfl, rfl, rfl, rfl⟩

/-- A segment allocation succeeds when its files can be recorded. -/
theorem exists_allocateSegment {m : PageMapper} (page? : Option ℕ)
    (hm : t.cow.segmentMapper = some m)
    (h : stampFiles ranges .segment w (t.lastSeenSegmentFileId ≠ some m.allocator.currentFileId)
      m.allocator.currentFileId m.allocator.allocate.2.currentFileId = some ranges') :
    ∃ fp t', t.allocateSegment w ranges page? = some (fp, t', ranges') := by
  simp only [allocateSegment, hm, bind_some, choosePage_allocator, h, map_some]
  exact ⟨_, _, rfl⟩

end WriteTask

/-- What a task can do to a mapper in one step. -/
inductive PageMapper.Step : PageMapper → PageMapper → Prop
  | refl (m : PageMapper) : Step m m
  | getPage (m : PageMapper) : Step m m.getPage.2
  | allocated (m : PageMapper) (page? : Option ℕ) : Step m (WriteTask.allocated m page?)
  | freePage (m : PageMapper) (page : ℕ) : Step m (m.freePage page)
  | updateStat (m : PageMapper) (minFileId holeCnt : ℕ) :
      Step m { m with allocator := m.allocator.updateStat minFileId holeCnt }

theorem PageMapper.Step.shift_eq {m m' : PageMapper} (h : PageMapper.Step m m') :
    m'.allocator.shift = m.allocator.shift := by
  cases h <;> simp [FilePageAllocator.updateStat]

/-- What a task can do to the segment mapper, which it may have to create. -/
inductive SegmentStep (opts : KvOptions) (sm sm' : Option PageMapper) : Prop
  | absent (h : sm = none) (h' : sm' = none)
  | create (h : sm = none) (h' : sm' = some (.empty (newSegmentAllocator opts)))
  | step {m m' : PageMapper} (h : sm = some m) (h' : sm' = some m') (hstep : PageMapper.Step m m')

theorem SegmentStep.refl {opts : KvOptions} (sm : Option PageMapper) : SegmentStep opts sm sm := by
  cases sm with
  | none => exact .absent rfl rfl
  | some m => exact .step rfl rfl (.refl m)

/-- The mapper of a class in a task's copy. -/
def WriteTask.mapperOf (t : WriteTask) : FileClass → Option PageMapper
  | .data => some t.cow.mapper
  | .segment => t.cow.segmentMapper

/-- The changes of a class a task has recorded. -/
def WriteTask.deltasOf (t : WriteTask) : FileClass → List (ℕ × MappingValue)
  | .data => t.walBuilder
  | .segment => t.segMappingDeltas

def TaskStep.allocation (t : WriteTask) : TaskStep → Option (FileClass × ℕ)
  | .allocatePage _ => some (.data, t.cow.mapper.allocator.allocate.1)
  | .allocateSegment _ => t.cow.segmentMapper.map fun m ↦ (.segment, m.allocator.allocate.1)
  | _ => none

def TaskStep.onData : TaskStep → Bool
  | .getPage | .allocatePage _ | .freePage _ | .updateStat .data _ _ => true
  | _ => false

/-- **What a step does to the data mapping**, with what it records and gives up. -/
inductive DataChange (opts : KvOptions) (t t' : WriteTask) : TaskStep → Prop
  | same {a : TaskStep} (hm : t'.cow.mapper = t.cow.mapper) (hw : t'.walBuilder = t.walBuilder)
      (hf : t'.toFreeFilePages = t.toFreeFilePages) (hr : t'.reserved = t.reserved)
      (ha : a.onData = false) : DataChange opts t t' a
  | getPage (heq : t' = t.getPage) : DataChange opts t t' .getPage
  | allocatePage (page? : Option ℕ) (hm : t'.cow.mapper = WriteTask.allocated t.cow.mapper page?)
      (hw : t'.walBuilder = t.walBuilder ++ [((WriteTask.choosePage t.cow.mapper page?).1,
        .filePageId t.cow.mapper.allocator.allocate.1)])
      (hf : t'.toFreeFilePages = t.toFreeFilePages ++ WriteTask.givenUp opts t.cow.mapper page?)
      (hr : t'.reserved = t.reserved.filter (· ≠ (WriteTask.choosePage t.cow.mapper page?).1)) :
      DataChange opts t t' (.allocatePage page?)
  | freePage (page : ℕ) (heq : t' = t.freePage opts page) : DataChange opts t t' (.freePage page)
  | updateStat (minFileId holeCnt : ℕ) (happ : opts.dataAppendMode = true)
      (heq : t' = t.updateStat .data minFileId holeCnt) :
      DataChange opts t t' (.updateStat .data minFileId holeCnt)

/-- **What a step does to the segment mapping**, with what it records. -/
inductive SegmentChange (opts : KvOptions) (t t' : WriteTask) : TaskStep → Prop
  | same {a : TaskStep} (hm : t'.cow.segmentMapper = t.cow.segmentMapper)
      (hd : t'.segMappingDeltas = t.segMappingDeltas)
      (hl : t'.lastSeenSegmentFileId = t.lastSeenSegmentFileId) : SegmentChange opts t t' a
  | create (hm : t.cow.segmentMapper = none)
      (hm' : t'.cow.segmentMapper = some (.empty (newSegmentAllocator opts)))
      (hd : t'.segMappingDeltas = t.segMappingDeltas)
      (hl : t'.lastSeenSegmentFileId = t.lastSeenSegmentFileId) :
      SegmentChange opts t t' .ensureSegmentMapper
  | allocateSegment {m : PageMapper} (page? : Option ℕ) (hm : t.cow.segmentMapper = some m)
      (hm' : t'.cow.segmentMapper = some (WriteTask.allocated m page?))
      (hd : t'.segMappingDeltas = t.segMappingDeltas ++
        [((WriteTask.choosePage m page?).1, .filePageId m.allocator.allocate.1)])
      (hl : t'.lastSeenSegmentFileId = some m.allocator.allocate.2.currentFileId) :
      SegmentChange opts t t' (.allocateSegment page?)
  | freeSegment {m : PageMapper} (page : ℕ) (hm : t.cow.segmentMapper = some m)
      (hm' : t'.cow.segmentMapper = some (m.freePage page))
      (hd : t'.segMappingDeltas = t.segMappingDeltas ++ [(page, .invalid)])
      (hl : t'.lastSeenSegmentFileId = t.lastSeenSegmentFileId) :
      SegmentChange opts t t' (.freeSegment page)
  | updateStat {m : PageMapper} (minFileId holeCnt : ℕ) (hm : t.cow.segmentMapper = some m)
      (hm' : t'.cow.segmentMapper =
        some { m with allocator := m.allocator.updateStat minFileId holeCnt })
      (hd : t'.segMappingDeltas = t.segMappingDeltas)
      (hl : t'.lastSeenSegmentFileId = t.lastSeenSegmentFileId) :
      SegmentChange opts t t' (.updateStat .segment minFileId holeCnt)

namespace Partition

variable {opts : KvOptions} {s s' : Partition}

/-- A step's effect on the partition, given the running task: everything a step can do. -/
def StepEffect (opts : KvOptions) (s : Partition) (t : WriteTask) (s' : Partition) :
    TaskStep → Prop
  | .getPage => s' = { s with task := some t.getPage }
  | .allocatePage page? => ∃ fp t' ranges',
      t.allocatePage opts s.owner s.branchFileMapping page? = some (fp, t', ranges') ∧
        s' = { s with task := some t', branchFileMapping := ranges' }
  | .freePage page => s' = { s with task := some (t.freePage opts page) }
  | .ensureSegmentMapper => s' = { s with task := some (t.ensureSegmentMapper opts) }
  | .allocateSegment page? => ∃ fp t' ranges',
      t.allocateSegment s.owner s.branchFileMapping page? = some (fp, t', ranges') ∧
        s' = { s with task := some t', branchFileMapping := ranges' }
  | .freeSegment page =>
    t.cow.segmentMapper ≠ none ∧ s' = { s with task := some (t.freeSegment page) }
  | .updateStat c minFileId holeCnt => (c = .data → opts.dataAppendMode = true) ∧
      s' = { s with task := some (t.updateStat c minFileId holeCnt) }
  | .buildDictionary bytes => (s.compressionOf t).hasDictionary = false ∧
      s' = s.setCompression t ⟨true, bytes, true⟩
  | .setRoots rootId ttlRootId nextExpireTs =>
      s' = { s with task := some { t with cow := { t.cow with
        rootId := rootId, ttlRootId := ttlRootId, nextExpireTs := nextExpireTs } } }

private theorem afterAllocation_ok {r : Option (ℕ × WriteTask × BranchFileMapping)}
    (h : s.afterAllocation r = .ok s') : ∃ fp t' ranges', r = some (fp, t', ranges') ∧
      s' = { s with task := some t', branchFileMapping := ranges' } := by
  rcases r with - | ⟨fp, t', ranges'⟩
  · simp [afterAllocation] at h
  · exact ⟨fp, t', ranges', rfl, by simpa [afterAllocation] using h.symm⟩

variable {a : TaskStep}

theorem taskStep_ok (h : s.taskStep opts a = .ok s') :
    ∃ t, s.task = some t ∧ StepEffect opts s t s' a := by
  unfold taskStep at h
  split at h
  · cases h
  · next t ht =>
    refine ⟨t, ht, ?_⟩
    cases a with
    | getPage => simpa [StepEffect] using h.symm
    | allocatePage page? => exact afterAllocation_ok h
    | freePage page => simpa [StepEffect] using h.symm
    | ensureSegmentMapper => simpa [StepEffect] using h.symm
    | allocateSegment page? =>
      dsimp only at h
      split at h
      · cases h
      · exact afterAllocation_ok h
    | freeSegment page =>
      dsimp only at h
      split at h
      · cases h
      · next hm => exact ⟨by simpa using hm, by simpa using h.symm⟩
    | updateStat c m hc =>
      dsimp only at h
      split at h
      · cases h
      · next hc => exact ⟨fun hd ↦ by simpa [hd] using hc, by simpa using h.symm⟩
    | buildDictionary bytes =>
      dsimp only at h
      split at h
      · cases h
      · next hd => exact ⟨by simpa using hd, by simpa using h.symm⟩
    | setRoots r tr ne => simpa [StepEffect] using h.symm

/-- **What a step does to the copy's mappers**: one operation at most, on one of them. -/
structure MapperEffect (opts : KvOptions) (t t' : WriteTask) : Prop where
  data : PageMapper.Step t.cow.mapper t'.cow.mapper
  segment : SegmentStep opts t.cow.segmentMapper t'.cow.segmentMapper
  freed : ∀ q ∈ t'.toFreeFilePages,
    q ∈ t.toFreeFilePages ∨ ∃ page, t.cow.mapper.toFilePage page = some q

/-- **The change a step makes.** -/
structure TaskChange (opts : KvOptions) (s s' : Partition) (t t' : WriteTask) (a : TaskStep) :
    Prop where
  data : DataChange opts t t' a
  segment : SegmentChange opts t t' a
  /-- To the ranges: nothing, or an allocation is recorded there and among the changes. -/
  ranges : s'.branchFileMapping = s.branchFileMapping ∨
    ∃ c m check, a.allocation t = some (c, m.allocator.allocate.1) ∧ t.mapperOf c = some m ∧
      t'.deltasOf c ≠ [] ∧ stampFiles s.branchFileMapping c s.owner check
        m.allocator.currentFileId m.allocator.allocate.2.currentFileId = some s'.branchFileMapping
  entry : ∃ f : RootMeta → Option DictCompression,
    s'.entry = s.entry.map fun root ↦ { root with compression := f root }
  /-- Only a training changes the compression object. -/
  compression : (∀ bytes, a ≠ .buildDictionary bytes) →
    s'.entry = s.entry ∧ t'.cow.ownCompression = t.cow.ownCompression
  roots : (∀ r tr n, a ≠ .setRoots r tr n) →
    t'.cow.rootId = t.cow.rootId ∧ t'.cow.ttlRootId = t.cow.ttlRootId
  size : t'.cow.manifestSize = t.cow.manifestSize
  manifest : s'.manifest = s.manifest
  /-- So do the pages that earlier tasks have given up. -/
  pendingFree : s'.pendingFree = s.pendingFree
  owner : s'.owner = s.owner

private theorem TaskChange.of_task {t t' : WriteTask} {ranges : BranchFileMapping}
    (hdata : DataChange opts t t' a) (hseg : SegmentChange opts t t' a)
    (hranges : ranges = s.branchFileMapping ∨
      ∃ c m check, a.allocation t = some (c, m.allocator.allocate.1) ∧ t.mapperOf c = some m ∧
        t'.deltasOf c ≠ [] ∧ stampFiles s.branchFileMapping c s.owner check
          m.allocator.currentFileId m.allocator.allocate.2.currentFileId = some ranges)
    (hown : t'.cow.ownCompression = t.cow.ownCompression)
    (hroots : (∀ r tr n, a ≠ .setRoots r tr n) →
      t'.cow.rootId = t.cow.rootId ∧ t'.cow.ttlRootId = t.cow.ttlRootId)
    (hsize : t'.cow.manifestSize = t.cow.manifestSize) :
    TaskChange opts s { s with task := some t', branchFileMapping := ranges } t t' a where
  data := hdata
  segment := hseg
  ranges := hranges
  entry := ⟨(·.compression), by cases s.entry <;> rfl⟩
  compression _ := ⟨rfl, hown⟩
  roots := hroots
  size := hsize
  manifest := rfl
  pendingFree := rfl
  owner := rfl

/-- **Every step makes such a change.** -/
theorem taskStep_change {t : WriteTask} (ht : s.task = some t) (h : s.taskStep opts a = .ok s') :
    ∃ t', s'.task = some t' ∧ TaskChange opts s s' t t' a := by
  obtain ⟨t₀, ht₀, heff⟩ := taskStep_ok h
  cases ht.symm.trans ht₀
  cases a with
  | getPage =>
    obtain rfl := heff
    exact ⟨_, rfl, .of_task (.getPage rfl) (.same rfl rfl rfl) (.inl rfl) rfl
      (fun _ ↦ ⟨rfl, rfl⟩) rfl⟩
  | allocatePage page? =>
    obtain ⟨fp, t', ranges', halloc, rfl⟩ := heff
    obtain ⟨hst, rfl, hcow, hwal, hdel, hlast, hfree, hres⟩ := WriteTask.allocatePage_ok halloc
    refine ⟨t', rfl, .of_task (.allocatePage page? (by rw [hcow]) hwal hfree hres)
      (.same (by rw [hcow]) hdel hlast) (.inr ⟨.data, _, true, rfl, rfl, ?_, hst⟩) (by rw [hcow])
      (fun _ ↦ ?_) (by rw [hcow])⟩
    · rw [WriteTask.deltasOf, hwal]
      simp
    · rw [hcow]
      exact ⟨rfl, rfl⟩
  | freePage page =>
    obtain rfl := heff
    exact ⟨_, rfl, .of_task (.freePage page rfl) (.same rfl rfl rfl) (.inl rfl) rfl
      (fun _ ↦ ⟨rfl, rfl⟩) rfl⟩
  | ensureSegmentMapper =>
    obtain rfl := heff
    refine ⟨_, rfl, ?_⟩
    unfold WriteTask.ensureSegmentMapper
    split
    · exact .of_task (.same rfl rfl rfl rfl rfl) (.same rfl rfl rfl) (.inl rfl) rfl
        (fun _ ↦ ⟨rfl, rfl⟩) rfl
    · next hm =>
      exact .of_task (.same rfl rfl rfl rfl rfl) (.create hm rfl rfl rfl) (.inl rfl) rfl
        (fun _ ↦ ⟨rfl, rfl⟩) rfl
  | allocateSegment page? =>
    obtain ⟨fp, t', ranges', halloc, rfl⟩ := heff
    obtain ⟨m, hm, hst, rfl, hcow, hwal, hdel, hlast, hfree, hres⟩ :=
      WriteTask.allocateSegment_ok halloc
    refine ⟨t', rfl, .of_task (.same (by rw [hcow]) hwal hfree hres rfl)
      (.allocateSegment page? hm (by rw [hcow]) hdel hlast)
      (.inr ⟨.segment, m, _, by simp [TaskStep.allocation, hm], hm, ?_, hst⟩) (by rw [hcow])
      (fun _ ↦ ?_) (by rw [hcow])⟩
    · rw [WriteTask.deltasOf, hdel]
      simp
    · rw [hcow]
      exact ⟨rfl, rfl⟩
  | freeSegment page =>
    obtain ⟨hne, rfl⟩ := heff
    obtain ⟨m, hm⟩ := ne_none_iff_exists'.1 hne
    exact ⟨_, rfl, .of_task (.same rfl rfl rfl rfl rfl)
      (.freeSegment page hm (by simp [WriteTask.freeSegment, hm]) rfl rfl) (.inl rfl) rfl
      (fun _ ↦ ⟨rfl, rfl⟩) rfl⟩
  | updateStat c minFileId holeCnt =>
    obtain ⟨hc, rfl⟩ := heff
    cases c with
    | data =>
      exact ⟨_, rfl, .of_task (.updateStat minFileId holeCnt (hc rfl) rfl) (.same rfl rfl rfl)
        (.inl rfl) rfl (fun _ ↦ ⟨rfl, rfl⟩) rfl⟩
    | segment =>
      refine ⟨_, rfl, .of_task (.same rfl rfl rfl rfl rfl) ?_ (.inl rfl) rfl
        (fun _ ↦ ⟨rfl, rfl⟩) rfl⟩
      cases hm : t.cow.segmentMapper with
      | none => exact .same (by simp [WriteTask.updateStat, hm]) rfl rfl
      | some m =>
        exact .updateStat minFileId holeCnt hm (by simp [WriteTask.updateStat, hm]) rfl rfl
  | buildDictionary bytes =>
    obtain ⟨-, rfl⟩ := heff
    unfold setCompression
    split
    · exact ⟨_, rfl, .same rfl rfl rfl rfl rfl, .same rfl rfl rfl, .inl rfl,
        ⟨(·.compression), by cases s.entry <;> rfl⟩, fun hne ↦ absurd rfl (hne bytes),
        fun _ ↦ ⟨rfl, rfl⟩, rfl, rfl, rfl, rfl⟩
    · exact ⟨t, ht, .same rfl rfl rfl rfl rfl, .same rfl rfl rfl, .inl rfl,
        ⟨fun _ ↦ some _, rfl⟩, fun hne ↦ absurd rfl (hne bytes), fun _ ↦ ⟨rfl, rfl⟩, rfl, rfl, rfl,
        rfl⟩
  | setRoots rootId ttlRootId nextExpireTs =>
    obtain rfl := heff
    exact ⟨_, rfl, .of_task (.same rfl rfl rfl rfl rfl) (.same rfl rfl rfl) (.inl rfl) rfl
      (fun hne ↦ absurd rfl (hne _ _ _)) rfl⟩

theorem taskStep_effect {t : WriteTask} (ht : s.task = some t) (h : s.taskStep opts a = .ok s') :
    ∃ t', s'.task = some t' ∧ MapperEffect opts t t' := by
  obtain ⟨t', ht', hc⟩ := taskStep_change ht h
  refine ⟨t', ht', ?_, ?_, ?_⟩
  · cases hc.data with
    | same hm => exact hm ▸ .refl _
    | getPage heq => exact heq ▸ .getPage _
    | allocatePage page? hm => exact hm ▸ .allocated _ page?
    | freePage page heq => exact heq ▸ .freePage _ page
    | updateStat k n _ heq => exact heq ▸ .updateStat _ k n
  · cases hc.segment with
    | same hm => exact hm ▸ .refl _
    | create hm hm' => exact .create hm hm'
    | allocateSegment page? hm hm' => exact .step hm hm' (.allocated _ page?)
    | freeSegment page hm hm' => exact .step hm hm' (.freePage _ page)
    | updateStat k n hm hm' => exact .step hm hm' (.updateStat _ k n)
  · intro q hq
    cases hc.data with
    | same _ _ hf => exact .inl (hf ▸ hq)
    | getPage heq | updateStat _ _ _ heq =>
      subst heq
      exact .inl hq
    | allocatePage page? _ _ hf =>
      rw [hf, List.mem_append] at hq
      exact hq.imp_right WriteTask.mem_givenUp
    | freePage page heq =>
      rw [heq, WriteTask.freePage, List.mem_append] at hq
      exact hq.imp_right WriteTask.mem_givenUp

/-- **The frame of a step**: nothing but the copy, the ranges and the shared dictionary changes. -/
theorem taskStep_frame (h : s.taskStep opts a = .ok s') :
    s'.mappers = s.mappers ∧ s'.manifest = s.manifest ∧ s'.pendingFree = s.pendingFree ∧
      s'.owner = s.owner := by
  obtain ⟨t, ht, -⟩ := taskStep_ok h
  obtain ⟨t', -, hc⟩ := taskStep_change ht h
  obtain ⟨f, hentry⟩ := hc.entry
  refine ⟨?_, hc.manifest, hc.pendingFree, hc.owner⟩
  rw [mappers, hentry, map_map]
  rfl

/-- A run of several steps is a step and a run of the others. -/
theorem taskSteps_cons {as : List TaskStep} (h : s.taskSteps opts (a :: as) = .ok s') :
    ∃ s₁, s.taskStep opts a = .ok s₁ ∧ s₁.taskSteps opts as = .ok s' := by
  rw [taskSteps] at h
  cases hs : s.taskStep opts a with
  | error e => simp [hs, Except.bind] at h
  | ok s₁ => exact ⟨s₁, rfl, by simpa [hs, Except.bind] using h⟩

/-- **What each step keeps, a run of steps keeps.** -/
theorem taskSteps_induction {P : Partition → Prop} {as : List TaskStep} (h : P s)
    (hsteps : s.taskSteps opts as = .ok s')
    (hstep : ∀ {s s₁ a}, a ∈ as → P s → s.taskStep opts a = .ok s₁ → P s₁) : P s' := by
  induction as generalizing s with
  | nil =>
    obtain rfl : s = s' := by simpa [taskSteps] using hsteps
    exact h
  | cons a as ih =>
    obtain ⟨s₁, hs₁, hrest⟩ := taskSteps_cons hsteps
    exact ih (hstep (by simp) h hs₁) hrest fun ha ↦ hstep (by simp [ha])

theorem taskSteps_frame {as : List TaskStep} (h : s.taskSteps opts as = .ok s') :
    s'.mappers = s.mappers ∧ s'.manifest = s.manifest ∧ s'.pendingFree = s.pendingFree ∧
      s'.owner = s.owner := by
  refine taskSteps_induction (P := fun y ↦ y.mappers = s.mappers ∧ y.manifest = s.manifest ∧
      y.pendingFree = s.pendingFree ∧ y.owner = s.owner) ⟨rfl, rfl, rfl, rfl⟩ h
    fun _ ⟨hmap, hman, hpend, howner⟩ hs ↦ ?_
  obtain ⟨hmap', hman', hpend', howner'⟩ := taskStep_frame hs
  exact ⟨hmap'.trans hmap, hman'.trans hman, hpend'.trans hpend, howner'.trans howner⟩

end Partition

end EloqStore
