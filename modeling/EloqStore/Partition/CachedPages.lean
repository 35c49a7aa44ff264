import EloqStore.Foundation.Swizzling
import EloqStore.Partition.PooledPages

/-!
# Cached pages and page writes

What a read of a page finds: the cached copy its mapping points to, or the bytes on disk. Under a
running write task three things can change what is found, and this file follows all of them.

* **The task's page writes.** Each one goes to the file page its allocator hands out and completes
  at any later moment, or fails and leaves anything there. The new page is cached when its write
  completes, behind the task's own mapping only.
* **The copy of the data mapping.** It takes over the pointers of the published one, chunk by chunk
  and with other tasks running in between. A pointer to a page that is still being read is not taken
  over, except when the read began during the copying. The copy is registered only when the segment
  mapping has been copied too, again with other tasks running in between; until then the recycling
  of a cached page does not reach it.
* **The page cache.** Reads through any mapping bring pages in, and any cached page that is on the
  active list can be recycled at any moment.

`CachedPartition` adds to `Pinned` the cache, the mappings' slots, the page writes under way and the
contents of the files. Mappings are numbered: `gen` is the published one, `gen + 1` the running
task's, and smaller numbers are those of replaced mappings that readers hold. Runs start from a
fresh partition, and with append mode no mapping is released, as in `Pinned`. Compaction, which
moves cached pages to other file pages in place, is not among the events.
-/

namespace EloqStore

open Option

open Swizzling (Slot Status)

/-- The slots of a chunk of a mapping table. -/
def chunkSize : ℕ := 512

/-- A page cache over numbered mappings, logical pages and file pages. -/
abbrev PageCache := Swizzling.Cache ℕ ℕ ℕ ℕ ℕ

/-- A page or segment write under way. -/
structure PageWrite where
  cls : FileClass
  page : ℕ
  fp : ℕ
  content : ℕ
  /-- The cached page that is written, if it is one. -/
  addr? : Option ℕ
deriving DecidableEq, Repr

/-- How far the copy of the data mapping has come. -/
inductive CopyPhase
  | idle
  /-- The chunks before `chunk` have been copied. `changed` are the pages whose slot of the
  published mapping has been set since, and `converted` those that were found with a pointer to a
  page on no list, with the file page that was copied instead. -/
  | copying (chunk : ℕ) (changed : List ℕ) (converted : List (ℕ × ℕ))
  /-- The data mapping has been copied, the segment mapping has not. -/
  | copied
  /-- The copy is one of the partition's mappings. -/
  | registered
deriving DecidableEq, Repr

/-- A slot of the published mapping is set. -/
def CopyPhase.touch (page? : Option ℕ) : CopyPhase → CopyPhase
  | .copying chunk changed converted => .copying chunk (page?.toList ++ changed) converted
  | phase => phase

/-- **A partition with its cached pages.** -/
structure CachedPartition where
  /-- The partition, with the mappings readers hold. -/
  pinned : Pinned
  /-- The cached pages, the slots of the mappings, and the contents of the data files. -/
  cache : PageCache := .empty
  /-- The number of the published mapping. -/
  gen : ℕ := 0
  phase : CopyPhase := .idle
  writes : List PageWrite := []
  /-- A write of the running task has failed. -/
  failed : Bool := false
  segments : ℕ → Option ℕ := fun _ ↦ none

namespace CachedPartition

/-- A partition that has never been written. -/
def fresh (branch : BranchName) (term : ℕ) : CachedPartition := { pinned := .fresh branch term }

variable (s : CachedPartition)

abbrev part : Partition := s.pinned.partition

def tbl (k : ℕ) : MappingTbl :=
  if k = s.gen + 1 then (s.part.task.map (·.cow.mapper.tbl)).getD []
  else if k = s.gen then (s.part.publishedMapper.map (·.tbl)).getD []
  else s.pinned.tables.getD (k + s.pinned.tables.length - s.gen) []

/-- What a mapping means a page to be. -/
def filePage (k page : ℕ) : Option ℕ := (s.tbl k).toFilePage page

/-- The mapping is the published one, or a replaced one that is still held. -/
def isPublic (k : ℕ) : Bool := decide (s.gen ≤ k + s.pinned.tables.length ∧ k ≤ s.gen)

/-- The mapping is one of the partition's mappings: recycling a cached page reaches it. -/
def isRegistered (k : ℕ) : Bool :=
  s.isPublic k || decide (k = s.gen + 1 ∧ s.phase = .registered)

/-- **What a read of a data page through the published mapping gives.** -/
def readPage (page : ℕ) : Option ℕ := s.cache.read s.filePage s.gen page

/-- What a read of a segment through the published mapping gives. -/
def readSegment (segment : ℕ) : Option ℕ :=
  (denote (s.part.entry.bind (·.segmentMapper)) segment).bind s.segments

/-- The logical pages whose write is under way. -/
def writing : List ℕ := (s.writes.filter (·.cls = .data)).map (·.page)

/-- The page the published mapping points to a cached page for. -/
def pointedFor (a : ℕ) : Option ℕ :=
  (s.cache.pages a).pageId.filter fun page ↦ s.cache.slots s.gen page = some (.pointer a)

/-- The pointers of a chunk of the published mapping that are to pages on no list, each with the
file page it stands for. -/
def detachedIn (chunk : ℕ) : List (ℕ × ℕ) :=
  (List.range (s.tbl s.gen).length).filterMap fun page ↦
    if page / chunkSize = chunk then
      match s.cache.slots s.gen page with
      | some (.pointer a) =>
        if (s.cache.pages a).status = .detached then (s.cache.pages a).filePageId.map (page, ·)
        else none
      | _ => none
    else none

/-- The slots of the finished copy: those of the published mapping, but the converted ones. A slot
that was set during the copying is taken over as it is. -/
def copiedSlots (changed : List ℕ) (converted : List (ℕ × ℕ)) (page : ℕ) : Option (Slot ℕ ℕ) :=
  match s.cache.slots s.gen page with
  | some (.pointer a) =>
    if page ∈ changed then some (.pointer a)
    else ((converted.lookup page).map .file).or (some (.pointer a))
  | slot => slot

end CachedPartition

/-- What can happen to a partition with its cached pages. -/
inductive CacheEvent
  /-- A write starts, and begins to copy the data mapping. -/
  | begin
  | copyChunk
  | endCopy
  /-- The copy becomes one of the partition's mappings. -/
  | register
  | step (a : TaskStep)
  /-- The task allocates a file page and writes a page to it, from a cached page if one is given. -/
  | write (page? : Option ℕ) (content : ℕ) (addr? : Option ℕ)
  /-- The task allocates a file segment and writes a segment to it. -/
  | writeSegment (page? : Option ℕ) (content : ℕ)
  | complete (w : PageWrite)
  | fail (w : PageWrite) (junk : Option ℕ)
  /-- A read of a page that is not cached starts. -/
  | load (k page a : ℕ)
  | loaded (a k : ℕ)
  | loadFails (a k : ℕ)
  | evict (a : ℕ)
  /-- The write of the manifest fails and leaves something behind. -/
  | manifestFails (m? : Option Manifest)
  | commit
  | abort
  /-- The oldest replaced mapping is released. -/
  | release
deriving DecidableEq, Repr

/-- The steps of a batch write, truncate or cleaning that write no page. -/
def TaskStep.isBookkeeping : TaskStep → Bool
  | .getPage | .freePage _ | .ensureSegmentMapper | .freeSegment _ | .buildDictionary _
  | .setRoots _ _ _ => true
  | .allocatePage _ | .allocateSegment _ | .updateStat _ _ _ => false

/-- The page whose slot a step sets. -/
def WriteTask.slotOf (t : WriteTask) : TaskStep → Option ℕ
  | .getPage => some t.cow.mapper.getPage.1
  | .freePage page => some page
  | _ => none

/-- Take the cached page a write is from, if it is from one. -/
def PageWrite.issue (w : PageWrite) (cache : PageCache) : PageCache :=
  match w.addr? with
  | none => cache
  | some a => cache.startWrite w.page a w.fp w.content

namespace CachedPartition

variable (s : CachedPartition)

/-- Set slots of the task's mapping. -/
def setOwn (page? : Option ℕ) : PageCache :=
  match page? with
  | none => s.cache
  | some page => s.cache.setSlot (s.gen + 1) page

def finish (w : PageWrite) (ok : Bool) (v : Option ℕ) : CachedPartition :=
  let s' := { s with writes := s.writes.erase w, failed := s.failed || !ok }
  match w.cls, w.addr? with
  | .segment, _ => { s' with segments := Function.update s.segments w.fp v }
  | .data, none => { s' with cache := s.cache.putDisk w.fp v }
  | .data, some a =>
    { s' with cache :=
        if ok then (s.cache.putDisk w.fp v).finishWrite (s.gen + 1) w.page a
        else (s.cache.putDisk w.fp v).failWrite a }

end CachedPartition

def CacheEvent.run (opts : KvOptions) (s : CachedPartition) : CacheEvent → Option CachedPartition
  | .begin =>
    (PinEvent.begin.run opts s.pinned).map fun p ↦
      { s with
        pinned := p
        cache := s.cache.setSlots (s.gen + 1) fun _ ↦ none
        -- a partition that does not exist has nothing to copy
        phase := if p.partition.publishedMapper.isSome then .copying 0 [] [] else .registered }
  | .copyChunk =>
    match s.phase with
    | .copying chunk changed converted =>
      if chunk * chunkSize < (s.tbl s.gen).length then
        some { s with phase := .copying (chunk + 1) changed (converted ++ s.detachedIn chunk) }
      else none
    | _ => none
  | .endCopy =>
    match s.phase with
    | .copying chunk changed converted =>
      if chunk * chunkSize < (s.tbl s.gen).length then none
      else some { s with
        cache := s.cache.setSlots (s.gen + 1) (s.copiedSlots changed converted)
        -- an empty segment mapping is copied at once
        phase := if (s.part.entry.bind (·.segmentMapper)).any (!·.tbl.isEmpty) then .copied
          else .registered }
    | _ => none
  | .register => if s.phase = .copied then some { s with phase := .registered } else none
  | .step a =>
    s.part.task.bind fun t ↦
      -- a page that has been written is left alone by the rest of the task
      if s.phase = .registered ∧ a.isBookkeeping ∧ ∀ p ∈ t.slotOf a, p ∉ s.writing then
        ((PinEvent.step a).run opts s.pinned).map fun p ↦
          { s with pinned := p, cache := s.setOwn (t.slotOf a) }
      else none
  | .write page? content addr? =>
    s.part.task.bind fun t ↦
      let w : PageWrite :=
        ⟨.data, (WriteTask.choosePage t.cow.mapper page?).1, t.cow.mapper.allocator.allocate.1,
          content, addr?⟩
      if s.phase = .registered ∧ w.page ∉ s.writing ∧
          ∀ a ∈ addr?, (s.cache.pages a).status = .free then
        ((PinEvent.step (.allocatePage page?)).run opts s.pinned).map fun p ↦
          { s with
            pinned := p
            cache := w.issue (s.setOwn (some w.page))
            writes := w :: s.writes }
      else none
  | .writeSegment page? content =>
    (s.part.task.bind (·.cow.segmentMapper)).bind fun m ↦
      if s.phase = .registered then
        ((PinEvent.step (.allocateSegment page?)).run opts s.pinned).map fun p ↦
          { s with
            pinned := p
            writes := ⟨.segment, (WriteTask.choosePage m page?).1, m.allocator.allocate.1, content,
              none⟩ :: s.writes }
      else none
  | .complete w => if w ∈ s.writes then some (s.finish w true (some w.content)) else none
  | .fail w junk => if w ∈ s.writes then some (s.finish w false junk) else none
  | .load k page a =>
    (s.cache.toFile s.filePage k page).bind fun fp ↦
      if s.isRegistered k ∧ (k = s.gen + 1 → page ∉ s.writing) ∧
          (s.cache.pages a).status = .free ∧ s.cache.isSwizzled k page = false then
        some { s with
          cache := s.cache.startLoad k page a fp
          phase := if k = s.gen then s.phase.touch (some page) else s.phase }
      else none
  | .loaded a k =>
    if (a, k) ∈ s.cache.loads ∧ ((s.cache.pages a).filePageId.bind s.cache.disk).isSome then
      some { s with cache := s.cache.finishLoad a k }
    else none
  | .loadFails a k =>
    if (a, k) ∈ s.cache.loads then
      some { s with
        cache := s.cache.failLoad a k
        phase := if k = s.gen then s.phase.touch (s.pointedFor a) else s.phase }
    else none
  | .evict a =>
    if (s.cache.pages a).status = .active then
      some { s with
        cache := s.cache.recycle s.isRegistered a
        phase := s.phase.touch (s.pointedFor a) }
    else none
  | .manifestFails m? =>
    if s.phase = .registered then
      some { s with
        pinned := { s.pinned with partition := { s.part with manifest := m? } }
        failed := true }
    else none
  | .commit =>
    if s.phase = .registered ∧ s.writes = [] ∧ s.failed = false ∧
        ∀ x ∈ s.cache.loads, x.2 ≠ s.gen + 1 then
      (PinEvent.commit.run opts s.pinned).map fun p ↦
        { s with pinned := p, gen := s.gen + 1, phase := .idle }
    else none
  | .abort =>
    if s.phase = .registered ∧ s.writes = [] ∧ ∀ x ∈ s.cache.loads, x.2 ≠ s.gen + 1 then
      (PinEvent.abort.run opts s.pinned).map fun p ↦
        { s with pinned := p, phase := .idle, failed := false }
    else none
  | .release =>
    if ∀ x ∈ s.cache.loads, x.2 + s.pinned.tables.length ≠ s.gen then
      (PinEvent.release.run opts s.pinned).map fun p ↦ { s with pinned := p }
    else none

/-- The runs of a partition with its cached pages. -/
abbrev CacheRuns (opts : KvOptions) (G : CachedPartition → CacheEvent → Prop) :
    CachedPartition → CachedPartition → Prop :=
  Transition.Reach (fun s e s' ↦ CacheEvent.run opts s e = some s') G

theorem CacheEvent.copyChunk_ok {opts : KvOptions} {s s' : CachedPartition}
    (h : copyChunk.run opts s = some s') :
    ∃ chunk changed converted, s.phase = .copying chunk changed converted ∧
      s' = { s with phase := .copying (chunk + 1) changed (converted ++ s.detachedIn chunk) } := by
  rw [CacheEvent.run] at h
  split at h
  · next chunk changed converted hphase =>
    obtain ⟨-, ⟨⟩⟩ := ite_none_right_eq_some.1 h
    exact ⟨chunk, changed, converted, hphase, rfl⟩
  · cases h

theorem CacheEvent.endCopy_ok {opts : KvOptions} {s s' : CachedPartition}
    (h : endCopy.run opts s = some s') :
    ∃ chunk changed converted, s.phase = .copying chunk changed converted ∧ s' =
      { s with
        cache := s.cache.setSlots (s.gen + 1) (s.copiedSlots changed converted)
        phase := if (s.part.entry.bind (·.segmentMapper)).any (!·.tbl.isEmpty) then .copied
          else .registered } := by
  rw [CacheEvent.run] at h
  split at h
  · next chunk changed converted hphase =>
    obtain ⟨-, ⟨⟩⟩ := ite_none_left_eq_some.1 h
    exact ⟨chunk, changed, converted, hphase, rfl⟩
  · cases h

/-- **What an event leaves alone.** An event is one of the partition, or changes no more of it than
the local manifest. Only the end of a write changes what is stored. -/
structure CacheFrame (opts : KvOptions) (s s' : CachedPartition) (e : CacheEvent) : Prop where
  gen : s'.gen = if e = .commit then s.gen + 1 else s.gen
  pinned : (∃ pe p, PinEvent.run opts s.pinned pe = some p ∧ s'.pinned = p ∧
      (pe = .commit ↔ e = .commit)) ∨
    e ≠ .commit ∧ ∃ m?, s'.pinned = { s.pinned with partition := { s.part with manifest := m? } }
  stored : (∃ w ∈ s.writes, ∃ ok v, s' = s.finish w ok v) ∨
    s'.cache.disk = s.cache.disk ∧ s'.segments = s.segments

theorem CacheEvent.frame {opts : KvOptions} {s s' : CachedPartition} {e : CacheEvent}
    (h : e.run opts s = some s') : CacheFrame opts s s' e := by
  have hset : ∀ page?, (s.setOwn page?).disk = s.cache.disk := fun page? ↦ by
    cases page? <;> rfl
  have hfinish : ∀ w ok v, (s.finish w ok v).gen = s.gen ∧
      (s.finish w ok v).pinned = s.pinned := fun w ok v ↦ by
    unfold CachedPartition.finish
    split <;> exact ⟨rfl, rfl⟩
  cases e with
  | begin =>
    obtain ⟨p, hp, rfl⟩ := map_eq_some_iff.1 h
    exact ⟨rfl, .inl ⟨_, p, hp, rfl, by simp⟩, .inr ⟨rfl, rfl⟩⟩
  | copyChunk =>
    obtain ⟨chunk, changed, converted, -, rfl⟩ := copyChunk_ok h
    exact ⟨rfl, .inr ⟨by simp, _, rfl⟩, .inr ⟨rfl, rfl⟩⟩
  | endCopy =>
    obtain ⟨chunk, changed, converted, -, rfl⟩ := endCopy_ok h
    exact ⟨rfl, .inr ⟨by simp, _, rfl⟩, .inr ⟨rfl, rfl⟩⟩
  | step a =>
    obtain ⟨t, -, h⟩ := bind_eq_some_iff.1 h
    obtain ⟨-, h⟩ := ite_none_right_eq_some.1 h
    obtain ⟨p, hp, rfl⟩ := map_eq_some_iff.1 h
    exact ⟨rfl, .inl ⟨_, p, hp, rfl, by simp⟩, .inr ⟨hset _, rfl⟩⟩
  | write page? content addr? =>
    obtain ⟨t, -, h⟩ := bind_eq_some_iff.1 h
    obtain ⟨-, h⟩ := ite_none_right_eq_some.1 h
    obtain ⟨p, hp, rfl⟩ := map_eq_some_iff.1 h
    refine ⟨rfl, .inl ⟨_, p, hp, rfl, by simp⟩, .inr ⟨?_, rfl⟩⟩
    unfold PageWrite.issue
    split <;> exact hset _
  | writeSegment page? content =>
    obtain ⟨m, -, h⟩ := bind_eq_some_iff.1 h
    obtain ⟨-, h⟩ := ite_none_right_eq_some.1 h
    obtain ⟨p, hp, rfl⟩ := map_eq_some_iff.1 h
    exact ⟨rfl, .inl ⟨_, p, hp, rfl, by simp⟩, .inr ⟨rfl, rfl⟩⟩
  | complete w | fail w junk =>
    obtain ⟨hw, rfl⟩ := ite_some_none_eq_some.1 h
    exact ⟨(hfinish ..).1, .inr ⟨by simp, _, (hfinish ..).2⟩, .inl ⟨w, hw, _, _, rfl⟩⟩
  | load k page a =>
    obtain ⟨fp, -, h⟩ := bind_eq_some_iff.1 h
    obtain ⟨-, rfl⟩ := ite_some_none_eq_some.1 h
    exact ⟨rfl, .inr ⟨by simp, _, rfl⟩, .inr ⟨rfl, rfl⟩⟩
  | register | loaded a k | loadFails a k | evict a | manifestFails m? =>
    obtain ⟨-, rfl⟩ := ite_some_none_eq_some.1 h
    exact ⟨rfl, .inr ⟨by simp, _, rfl⟩, .inr ⟨rfl, rfl⟩⟩
  | commit | abort | release =>
    obtain ⟨-, h⟩ := ite_none_right_eq_some.1 h
    obtain ⟨p, hp, rfl⟩ := map_eq_some_iff.1 h
    exact ⟨rfl, .inl ⟨_, p, hp, rfl, by simp⟩, .inr ⟨rfl, rfl⟩⟩

end EloqStore
