import EloqStore.Manifest.Records
import Mathlib.Data.List.Induction
import Mathlib.Data.List.Sort

/-!
# Replaying a manifest

`replay` folds the log records over the snapshot; `Replayer.getMapper` and
`Replayer.getSegmentMapper` turn the result into mappers. A log record carries no allocator maximum:
the maxima grow with the file pages the log mentions.

The two mappers treat a **change of term** differently. When the manifest's term is not the term the
process runs under, `getMapper` moves the data allocator to the next file in every mode but the
local one, while `getSegmentMapper` moves the segment allocator only when an object-store path is
configured.
-/

namespace EloqStore

open List

/-- The state a replay ends in. -/
structure Replayer where
  root : Option ℕ
  ttlRoot : Option ℕ
  mappingTbl : MappingTbl
  maxFpId : ℕ
  segmentMappingTbl : MappingTbl
  maxSegmentFpId : ℕ
  dictBytes : List UInt8
  branchMetadata : BranchManifestMetadata
  fileSize : ℕ
deriving DecidableEq, Repr

def deserializeSnapshot (s : SnapshotRecord) : Replayer where
  root := s.root
  ttlRoot := s.ttlRoot
  mappingTbl := s.mappingTbl
  maxFpId := s.maxFpId
  segmentMappingTbl := (s.segment.map (·.2)).getD []
  maxSegmentFpId := (s.segment.map (·.1)).getD 0
  dictBytes := s.dictBytes
  branchMetadata := s.branchMetadata
  fileSize := s.size

variable (tbl : MappingTbl) (m : Manifest) (a : FilePageAllocator)

/-- Apply table changes in order, raising the maximum past every file page mentioned. -/
def applyDeltas (maxFp : ℕ) (ds : List (ℕ × MappingValue)) : MappingTbl × ℕ :=
  ds.foldl (fun acc d ↦ (acc.1.put d.1 d.2,
    match d.2.filePage? with
    | some fp => max acc.2 (fp + 1)
    | none => acc.2)) (tbl, maxFp)

def replayLog (r : Replayer) (l : LogRecord) : Replayer where
  root := l.root
  ttlRoot := l.ttlRoot
  mappingTbl := (applyDeltas r.mappingTbl r.maxFpId l.mappingUpdates).1
  maxFpId := (applyDeltas r.mappingTbl r.maxFpId l.mappingUpdates).2
  segmentMappingTbl := (applyDeltas r.segmentMappingTbl r.maxSegmentFpId l.segmentDeltas).1
  maxSegmentFpId := (applyDeltas r.segmentMappingTbl r.maxSegmentFpId l.segmentDeltas).2
  dictBytes := r.dictBytes
  branchMetadata := l.branchMetadata
  fileSize := r.fileSize + l.size

def replay : Replayer := m.logs.foldl replayLog (deserializeSnapshot m.snapshot)

/-- The number of files strictly between consecutive used files, along sorted file pages. -/
def emptyFilesBetween (shift : ℕ) : ℕ → List ℕ → ℕ
  | _, [] => 0
  | cur, fp :: rest => (fileOf shift fp - cur - 1) + emptyFilesBetween shift (fileOf shift fp) rest

/-- The append allocator of a loaded mapper. -/
def appendAllocatorOf (shift maxFp : ℕ) (tbl : MappingTbl) : FilePageAllocator :=
  match ((tbl.mapped.map (·.1)).insertionSort (· ≤ ·)) with
  | [] => ⟨shift, maxFp, .append (fileOf shift maxFp) 0⟩
  | fp :: rest =>
    ⟨shift, maxFp,
      .append (fileOf shift fp) (emptyFilesBetween shift (fileOf shift fp) (fp :: rest))⟩

/-- The pool of a loaded mapper: unused file pages, those of other branches excepted. The pool has
32 bits for an id, and hands out the largest one first. -/
def pooledFreeIds (opts : KvOptions) (metadata : BranchManifestMetadata) (maxFp : ℕ)
    (tbl : MappingTbl) : List ℕ :=
  (((range maxFp).filter fun fp ↦
    !(tbl.mapped.map (·.1)).contains fp &&
      (metadata.fileRanges.isEmpty ||
        fileIdInBranch metadata.fileRanges (dataFileKey (fileOf opts.pagesPerFileShift fp))
          metadata.branchName)).map (· % 2 ^ 32)).reverse

/-- A mapper over a table: the unmapped ids, in increasing order, are put on the free list. -/
def mapperOfTable : PageMapper :=
  (range tbl.length).foldl
    (fun m page ↦ if (tbl.toFilePage page).isSome then m else m.freePage page) ⟨tbl, none, 0, a⟩

/-- The allocator maximum after the move to the next file. -/
def bumpToNextFile (shift maxFp : ℕ) : ℕ := (fileOf shift maxFp + 1) <<< shift

namespace Replayer

variable (r : Replayer) (opts : KvOptions)

/-- The data allocator's maximum as `getMapper` leaves it. -/
def dataMaxFpId (expectTerm : ℕ) : ℕ :=
  if opts.dataAppendMode ∧ deriveStoreMode opts ≠ .localMode ∧ expectTerm ≠ 0 ∧
      r.branchMetadata.term ≠ expectTerm then
    bumpToNextFile opts.pagesPerFileShift r.maxFpId
  else r.maxFpId

def getMapper (expectTerm : ℕ) : PageMapper :=
  mapperOfTable r.mappingTbl <|
    if opts.dataAppendMode then
      appendAllocatorOf opts.pagesPerFileShift (r.dataMaxFpId opts expectTerm) r.mappingTbl
    else
      ⟨opts.pagesPerFileShift, r.maxFpId,
        .pooled (pooledFreeIds opts r.branchMetadata r.maxFpId r.mappingTbl)⟩

/-- The segment allocator's maximum as `getSegmentMapper` leaves it. -/
def segmentMaxFpId (expectTerm : ℕ) : ℕ :=
  if opts.cloudStorePath ≠ "" ∧ expectTerm ≠ 0 ∧ r.branchMetadata.term ≠ expectTerm then
    bumpToNextFile opts.segmentsPerFileShift r.maxSegmentFpId
  else r.maxSegmentFpId

/-- The segment mapper, if the manifest has seen a segment. -/
def getSegmentMapper (expectTerm : ℕ) : Option PageMapper :=
  if r.segmentMappingTbl.length = 0 ∧ r.maxSegmentFpId = 0 then none
  else some <| mapperOfTable r.segmentMappingTbl <|
    appendAllocatorOf opts.segmentsPerFileShift (r.segmentMaxFpId opts expectTerm)
      r.segmentMappingTbl

end Replayer

/-! ### What a loaded mapper denotes -/

private theorem foldl_freePage_spec (ps : List ℕ) (m : PageMapper)
    (h : ∀ q, m.toFilePage q = tbl.toFilePage q) :
    (∀ q, (ps.foldl (fun m page ↦ if (tbl.toFilePage page).isSome then m else m.freePage page)
        m).toFilePage q = tbl.toFilePage q) ∧
      (ps.foldl (fun m page ↦ if (tbl.toFilePage page).isSome then m else m.freePage page)
        m).allocator = m.allocator := by
  induction ps generalizing m with
  | nil => exact ⟨h, rfl⟩
  | cons p ps ih =>
    rw [foldl_cons]
    by_cases hp : (tbl.toFilePage p).isSome
    · rw [if_pos hp]
      exact ih m h
    · rw [if_neg hp]
      refine ih (m.freePage p) fun q ↦ ?_
      rw [PageMapper.toFilePage_freePage]
      split
      · next hq =>
        subst hq
        exact (Option.not_isSome_iff_eq_none.1 hp).symm
      · exact h q

/-- **Building the free list does not change what the table denotes.** -/
@[simp] theorem toFilePage_mapperOfTable (q : ℕ) :
    (mapperOfTable tbl a).toFilePage q = tbl.toFilePage q :=
  (foldl_freePage_spec tbl _ _ fun _ ↦ rfl).1 q

@[simp] theorem allocator_mapperOfTable : (mapperOfTable tbl a).allocator = a :=
  (foldl_freePage_spec tbl _ _ fun _ ↦ rfl).2

@[simp] theorem appendAllocatorOf_maxFpId (shift maxFp : ℕ) (tbl : MappingTbl) :
    (appendAllocatorOf shift maxFp tbl).maxFpId = maxFp := by
  unfold appendAllocatorOf
  split <;> rfl

@[simp] theorem appendAllocatorOf_shift (shift maxFp : ℕ) (tbl : MappingTbl) :
    (appendAllocatorOf shift maxFp tbl).shift = shift := by
  unfold appendAllocatorOf
  split <;> rfl

theorem isAppend_appendAllocatorOf (shift maxFp : ℕ) (tbl : MappingTbl) :
    (appendAllocatorOf shift maxFp tbl).IsAppend := by
  unfold appendAllocatorOf
  split
  · exact ⟨_, _, rfl⟩
  · exact ⟨_, _, rfl⟩

@[simp] theorem Replayer.getMapper_shift (r : Replayer) (opts : KvOptions) (term : ℕ) :
    (r.getMapper opts term).allocator.shift = opts.pagesPerFileShift := by
  rw [Replayer.getMapper, allocator_mapperOfTable]
  split
  · exact appendAllocatorOf_shift _ _ _
  · rfl

/-! ### Table changes -/

theorem applyDeltas_nil (maxFp : ℕ) : applyDeltas tbl maxFp [] = (tbl, maxFp) :=
  rfl

theorem applyDeltas_append (maxFp : ℕ) (ds es : List (ℕ × MappingValue)) :
    applyDeltas tbl maxFp (ds ++ es) =
      applyDeltas (applyDeltas tbl maxFp ds).1 (applyDeltas tbl maxFp ds).2 es := by
  simp [applyDeltas, foldl_append]

theorem applyDeltas_concat (maxFp : ℕ) (ds : List (ℕ × MappingValue)) (page : ℕ)
    (v : MappingValue) :
    applyDeltas tbl maxFp (ds ++ [(page, v)]) =
      ((applyDeltas tbl maxFp ds).1.put page v,
        match v.filePage? with
        | some fp => max (applyDeltas tbl maxFp ds).2 (fp + 1)
        | none => (applyDeltas tbl maxFp ds).2) := by
  rw [applyDeltas_append]
  rfl

theorem le_applyDeltas_snd (b : ℕ) (ds : List (ℕ × MappingValue)) :
    b ≤ (applyDeltas tbl b ds).2 := by
  induction ds using reverseRecOn with
  | nil => exact le_rfl
  | append_singleton ds d ih =>
    obtain ⟨page, v⟩ := d
    rw [applyDeltas_concat]
    cases v <;> simp only [MappingValue.filePage?] <;> omega

/-- The maximum stays above every mapped file page. -/
theorem below_applyDeltas {tbl : MappingTbl} {b : ℕ} (h : tbl.Below b)
    (ds : List (ℕ × MappingValue)) :
    (applyDeltas tbl b ds).1.Below (applyDeltas tbl b ds).2 := by
  induction ds using reverseRecOn with
  | nil => exact h
  | append_singleton ds d ih =>
    obtain ⟨page, v⟩ := d
    rw [applyDeltas_concat]
    refine MappingTbl.Below.put (ih.mono ?_) ?_
    · cases v <;> simp only [MappingValue.filePage?] <;> omega
    · intro fp hfp
      simp only [hfp]
      omega

theorem replay_append (l : LogRecord) :
    replay { m with logs := m.logs ++ [l] } = replayLog (replay m) l := by
  simp [replay, foldl_append]

theorem replay_fileSize : (replay m).fileSize = m.size := by
  obtain ⟨s, logs⟩ := m
  induction logs using reverseRecOn with
  | nil => simp [replay, deserializeSnapshot, Manifest.size]
  | append_singleton logs l ih =>
    rw [show (⟨s, logs ++ [l]⟩ : Manifest) =
      { (⟨s, logs⟩ : Manifest) with logs := (⟨s, logs⟩ : Manifest).logs ++ [l] } from rfl,
      replay_append, Manifest.size_append, ← ih]
    rfl

end EloqStore
