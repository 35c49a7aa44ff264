import EloqStore.Foundation.PageMoves
import EloqStore.Partition.CachedPages
import EloqStore.Partition.FileScan

/-!
# Compaction

`Compact` after it has copied the mappings: it collects the mapped pages, goes through the data
files (`FileScan`) and moves the pages of those that are not kept, in batches; then it does the same
with the segment files; then the page writes are waited for and the new mappings are published.
Other tasks run whenever it yields, and any read or write can fail.

* **Cached pages are moved in place.** The cached page gets the new file page before it is written,
  although the published mapping points to it too and means the old file page. `MovingCachedPages`
  keeps it pinned and remembers the old file page. Its destructor puts the old file pages back,
  unless the compaction has succeeded.
* **Other pages are read and written** in a second pass over the batch.
* **An error ends the compaction at once.** The destructor has run when the task waits for its
  writes (`Abort`); then the copies of the mappings are dropped.

A call of `WritePage` that returns an error may have started the write or not. Recycling the cached
page of a page that is given a new file page (`TryRecycleCachedPage`) is left to the evictions,
which can happen at any step. Mappings are numbered as in `CachedPartition`.
-/

namespace EloqStore

open Swizzling (Slot Status)

def maxSegmentsBatch : ℕ := 8

/-- A page write of a compaction that is under way. -/
structure MoveWrite where
  page : ℕ
  fp : ℕ
  content : Option ℕ
  /-- The cached page that is written, if it is one. -/
  addr? : Option ℕ
deriving DecidableEq, Repr

/-- How far a compaction has come. -/
inductive CompactPhase
  | start
  /-- Pages before `page` have been collected, each with its file page. -/
  | collect (page : ℕ) (fpIds : List (ℕ × ℕ))
  /-- At the head of the loop over the data files. -/
  | files (endFileId : ℕ) (scan : FileScan)
  /-- In the first pass over a batch: the pages still to come, those that are not cached, and those
  of the file beyond the batch. -/
  | gather (endFileId : ℕ) (scan : FileScan) (batch left uncached todo : List (ℕ × ℕ))
  /-- In the second pass: the pages of the batch still to come, and the file pages that were read,
  with what was found there. -/
  | copy (endFileId : ℕ) (scan : FileScan) (left : List (ℕ × ℕ)) (bufs : List (ℕ × Option ℕ))
      (todo : List (ℕ × ℕ))
  | collectSegments (page : ℕ) (fpIds : List (ℕ × ℕ))
  | segmentFiles (endFileId : ℕ) (scan : FileScan)
  | moveSegments (endFileId : ℕ) (scan : FileScan) (todo : List (ℕ × ℕ))
  /-- `UpdateMeta`. -/
  | flush
  | committed
  | skipped
  /-- An error has been returned; the task waits for its writes. -/
  | aborting
  | aborted
deriving DecidableEq, Repr

/-- What is fixed while a partition is compacted. -/
structure CompactEnv where
  opts : KvOptions
  gen : ℕ
  /-- The published mapping, and the replaced ones that are still held. -/
  isPublic : ℕ → Bool
  table : ℕ → ℕ → Option ℕ

def CompactEnv.own (env : CompactEnv) : ℕ := env.gen + 1

/-- The mappings that the recycling of a cached page reaches. -/
def CompactEnv.isRegistered (env : CompactEnv) (m : ℕ) : Bool :=
  env.isPublic m || decide (m = env.own)

/-- **A partition that is being compacted.** -/
structure Compaction where
  /-- The cached pages, the slots of the mappings and the data files. -/
  cache : PageCache
  mapper : PageMapper
  segmentMapper : Option PageMapper
  segments : ℕ → Option ℕ
  phase : CompactPhase := .start
  /-- `MovingCachedPages`, the last one first. -/
  moving : List (ℕ × Option ℕ) := []
  writes : List MoveWrite := []
  /-- A write has failed, or an error has been returned. -/
  failed : Bool := false

namespace Compaction

variable (env : CompactEnv) (s : Compaction)

/-- What a mapping means a page to be. -/
def filePage (m page : ℕ) : Option ℕ :=
  if m = env.own then s.mapper.toFilePage page else env.table m page

/-- The file page that the word of the task's mapping stands for. -/
def ownFilePage (page : ℕ) : Option ℕ := s.cache.toFile (s.filePage env) env.own page

/-- The destructor of `MovingCachedPages`, on the way out. -/
def fail : Compaction :=
  { s with cache := s.cache.restore s.moving, moving := [], phase := .aborting, failed := true }

/-- What comes after the data files. -/
def afterData : CompactPhase := if s.segmentMapper.isSome then .collectSegments 0 [] else .flush

/-- The next batch of the pages of a file; the next file, if there is none. -/
def nextBatch (endFileId : ℕ) (scan : FileScan) (todo : List (ℕ × ℕ)) : CompactPhase :=
  if todo = [] then .files endFileId (scan.leave (env.opts.scan .data) endFileId)
  else .gather endFileId scan (todo.take maxMoveBatch) (todo.take maxMoveBatch) []
    (todo.drop maxMoveBatch)

def nextSegmentFile (endFileId : ℕ) (scan : FileScan) : CompactPhase :=
  .segmentFiles endFileId (scan.leave (env.opts.scan .segment) endFileId)

/-- `Compact` before the first page. -/
def begin : CompactPhase :=
  if (!env.opts.dataAppendMode || s.mapper.isClean) && s.segmentMapper.all (·.isClean) then .skipped
  else if env.opts.dataAppendMode then .collect 0 []
  else s.afterData

/-- The steps of the task in which nothing is read from a file or written. -/
def advance : Option Compaction :=
  match s.phase with
  | .start => some { s with phase := s.begin env }
  | .collect page fpIds =>
    if page < s.mapper.tbl.length then
      let found := ((s.ownFilePage env page).map (·, page)).toList
      some { s with phase := .collect (page + 1) (fpIds ++ found) }
    else if fpIds = [] then some { s with mapper := s.mapper.giveUpTail, phase := s.afterData }
    else
      let endFileId := s.mapper.allocator.currentFileId
      let scan := FileScan.start (env.opts.scan .data) endFileId (sortFpIds fpIds)
      some { s with phase := .files endFileId scan }
  | .files endFileId scan =>
    if scan.fileId < endFileId then
      if scan.verdict (env.opts.scan .data) = .compact then
        some { s with phase := nextBatch env endFileId scan (scan.pages (env.opts.scan .data)) }
      else some { s with phase := .files endFileId (scan.leave (env.opts.scan .data) endFileId) }
    else some { s with mapper := s.mapper.record scan, phase := s.afterData }
  | .gather endFileId scan _ [] [] todo =>
    some { s with phase := nextBatch env endFileId scan todo }
  | .copy endFileId scan left bufs todo =>
    match left, bufs with
    | x :: left, b :: bufs =>
      if x.1 = b.1 then none
      else some { s with phase := .copy endFileId scan left (b :: bufs) todo }
    | _, _ => some { s with phase := nextBatch env endFileId scan todo }
  | .collectSegments page fpIds =>
    s.segmentMapper.bind fun m ↦
      if page < m.tbl.length then
        let found := ((m.toFilePage page).map (·, page)).toList
        some { s with phase := .collectSegments (page + 1) (fpIds ++ found) }
      else if fpIds = [] then some { s with segmentMapper := some m.giveUpTail, phase := .flush }
      else
        let endFileId := m.allocator.currentFileId
        let scan := FileScan.start (env.opts.scan .segment) endFileId (sortFpIds fpIds)
        some { s with phase := .segmentFiles endFileId scan }
  | .segmentFiles endFileId scan =>
    if scan.fileId < endFileId then
      if scan.verdict (env.opts.scan .segment) = .compact then
        some { s with phase := .moveSegments endFileId scan (scan.pages (env.opts.scan .segment)) }
      else some { s with phase := nextSegmentFile env endFileId scan }
    else
      some { s with segmentMapper := s.segmentMapper.map (·.record scan), phase := .flush }
  | .moveSegments endFileId scan [] =>
    some { s with phase := nextSegmentFile env endFileId scan }
  | _ => none

/-- The cached page that the published mapping points to, if it is on a list. -/
def cachedPage (page : ℕ) : Option ℕ :=
  match s.cache.slots env.gen page with
  | some (.pointer a) => if (s.cache.pages a).status = .detached then none else some a
  | _ => none

/-- The file page that is allocated next. -/
def newPlace : ℕ := s.mapper.allocator.allocate.1

def allocatePage (page : ℕ) : Compaction :=
  { s with
    mapper := WriteTask.allocated s.mapper (some page)
    cache := s.cache.setSlot env.own page }

def issue (w : MoveWrite) : Compaction := { s with writes := w :: s.writes }

/-- The next page of a batch is given a new file page, in place: `AllocatePage`, `SetFilePageId`. -/
def retarget (page a : ℕ) : Compaction :=
  let s' := s.allocatePage env page
  { s' with cache := s'.cache.setPlace a (some s.newPlace) }

/-- The write of a cached page that is moved. -/
def cachedWrite (page a : ℕ) : MoveWrite :=
  ⟨page, s.newPlace, (s.cache.pages a).content, some a⟩

/-- The segments of a batch are given new places, in order, where something is found later. -/
def placeSegments (content : ℕ × ℕ → ℕ → Option ℕ) :
    List (ℕ × ℕ) → PageMapper × (ℕ → Option ℕ) → PageMapper × (ℕ → Option ℕ)
  | [], d => d
  | x :: batch, d => placeSegments content batch
      (WriteTask.allocated d.1 (some x.2),
        Function.update d.2 d.1.allocator.allocate.1 (content x d.1.allocator.allocate.1))

/-- The mappers and the segment files after a batch of segments. -/
def withSegments (d : PageMapper × (ℕ → Option ℕ)) : Compaction :=
  { s with segmentMapper := some d.1, segments := d.2 }

/-- The task, or a write under way, has the page pinned. -/
def isPinned (a : ℕ) : Bool := decide (a ∈ s.moving.map (·.1) ∨ some a ∈ s.writes.map (·.addr?))

def finish (w : MoveWrite) (ok : Bool) (v : Option ℕ) : Compaction :=
  let s' := { s with writes := s.writes.erase w, failed := s.failed || !ok }
  let cache := s.cache.putDisk w.fp v
  match w.addr? with
  | none => { s' with cache := cache }
  | some a =>
    if ok then { s' with cache := cache.finishWrite env.own w.page a }
    else if (cache.pages a).status = .detached then { s' with cache := cache.failWrite a }
    else { s' with cache := cache }

end Compaction

/-- What a call of `WritePage` has led to. -/
inductive WriteOutcome
  | ok
  /-- An error, with the write under way. -/
  | failed
  | refused
deriving DecidableEq, Repr

/-- What has become of a batch of segments. -/
inductive SegmentOutcome
  | ok
  | readFails
  /-- Something is left behind at each new place. -/
  | writeFails (junk : ℕ → Option ℕ)

/-- What can happen to a partition that is being compacted. -/
inductive CompactEvent
  | advance
  /-- The next page of the batch is moved if it is cached, and put aside otherwise. -/
  | move (outcome : WriteOutcome)
  /-- The pages of the batch that are not cached are read. -/
  | read (ok : Bool)
  | copy (outcome : WriteOutcome)
  | moveSegments (outcome : SegmentOutcome)
  /-- `UpdateMeta` ends. -/
  | flush (ok : Bool)
  | abort
  | complete (w : MoveWrite)
  /-- A page write fails and leaves something behind. -/
  | writeFails (w : MoveWrite) (junk : Option ℕ)
  /-- A read of a page that is not cached starts, through a mapping that can be read through. -/
  | load (m page a : ℕ)
  | loaded (a m : ℕ)
  | loadFails (a m : ℕ)
  | evict (a : ℕ)

def CompactEvent.step (env : CompactEnv) (s : Compaction) : CompactEvent → Option Compaction
  | .advance => s.advance env
  | .move outcome =>
    match s.phase with
    | .gather endFileId scan batch (x :: left) uncached todo =>
      match s.cachedPage env x.2 with
      | none => some { s with
          phase := .gather endFileId scan batch left (uncached ++ [x]) todo }
      | some a =>
        let s' := s.retarget env x.2 a
        match outcome with
        | .ok => some { s'.issue (s.cachedWrite x.2 a) with
            moving := (a, (s.cache.pages a).filePageId) :: s.moving
            phase := .gather endFileId scan batch left uncached todo }
        -- the handle has not been added to the list
        | .failed => some (s'.issue (s.cachedWrite x.2 a)).fail
        | .refused => some s'.fail
    | _ => none
  | .read ok =>
    match s.phase with
    | .gather endFileId scan batch [] (x :: uncached) todo =>
      if ok then
        let bufs := (x :: uncached).map fun y ↦ (y.1, s.cache.disk y.1)
        some { s with phase := .copy endFileId scan batch bufs todo }
      else some s.fail
    | _ => none
  | .copy outcome =>
    match s.phase with
    | .copy endFileId scan (x :: left) (b :: bufs) todo =>
      if x.1 = b.1 then
        let s' := s.allocatePage env x.2
        let w : MoveWrite := ⟨x.2, s.newPlace, b.2, none⟩
        match outcome with
        | .ok => some { s'.issue w with phase := .copy endFileId scan left bufs todo }
        | .failed => some (s'.issue w).fail
        | .refused => some s'.fail
      else none
    | _ => none
  | .moveSegments outcome =>
    match s.phase, s.segmentMapper with
    | .moveSegments endFileId scan (x :: todo), some m =>
      let batch := (x :: todo).take maxSegmentsBatch
      match outcome with
      | .ok =>
        let d := Compaction.placeSegments (fun y _ ↦ s.segments y.1) batch (m, s.segments)
        some { s.withSegments d with
          phase := .moveSegments endFileId scan ((x :: todo).drop maxSegmentsBatch) }
      | .readFails => some s.fail
      | .writeFails junk =>
        let d := Compaction.placeSegments (fun _ fp ↦ junk fp) batch (m, s.segments)
        some (s.withSegments d).fail
    | _, _ => none
  | .flush ok =>
    if s.phase = .flush ∧ s.writes = [] then
      if ok then if s.failed then none else some { s with phase := .committed, moving := [] }
      else some s.fail
    else none
  | .abort =>
    if s.phase = .aborting ∧ s.writes = [] then some { s with phase := .aborted } else none
  | .complete w => if w ∈ s.writes then some (s.finish env w true w.content) else none
  | .writeFails w junk => if w ∈ s.writes then some (s.finish env w false junk) else none
  | .load m page a =>
    (s.cache.toFile (s.filePage env) m page).bind fun fp ↦
      if env.isPublic m ∧ (s.cache.pages a).status = .free ∧ s.cache.isSwizzled m page = false then
        some { s with cache := s.cache.startLoad m page a fp }
      else none
  | .loaded a m =>
    if (a, m) ∈ s.cache.loads then some { s with cache := s.cache.finishLoad a m } else none
  | .loadFails a m =>
    if (a, m) ∈ s.cache.loads then some { s with cache := s.cache.failLoad a m } else none
  | .evict a =>
    if (s.cache.pages a).status = .active ∧ s.isPinned a = false then
      some { s with cache := s.cache.recycle env.isRegistered a }
    else none

/-- The states a compaction goes through. -/
abbrev CompactRuns (env : CompactEnv) (G : Compaction → CompactEvent → Prop) :
    Compaction → Compaction → Prop :=
  Transition.Reach (fun s e t ↦ CompactEvent.step env s e = some t) G

end EloqStore
