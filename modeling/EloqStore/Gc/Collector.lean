import EloqStore.Cloud.FileNames
import EloqStore.Partition.WriteTask

/-!
# What a garbage collection keeps

A collection of a partition's files gathers, step by step, the files it must keep (`Collected`):

* the files the live mappings in memory refer to, each under the name the branch file ranges give it
  (`getRetainedFiles`);
* the files every listed manifest and archive refers to, resolved through its own ranges;
* per branch, a **guard**: the newest term seen and, for each class, the least file id whose pages
  no manifest may have captured yet. A file of that term or a later one, at or above that id, may be
  one an uncommitted write has created.

A file that is neither retained nor guarded is deleted; one of a branch without a guard is deleted
only if the branch is the collector's own.
-/

namespace EloqStore

/-- A data or segment file, by what its name carries. -/
structure FileName where
  fid : TypedFileId
  /-- The branch and term it was written under. -/
  owner : Owner
deriving DecidableEq, Repr

/-- The in-flight guard of a branch. -/
structure BranchGuard where
  newestTerm : ℕ
  /-- The least data file that may hold pages no manifest knows. -/
  leastUnflushedFileId : ℕ
  leastUnflushedSegFileId : ℕ
deriving DecidableEq, Repr

def BranchGuard.least (g : BranchGuard) : FileClass → ℕ
  | .data => g.leastUnflushedFileId
  | .segment => g.leastUnflushedSegFileId

abbrev BranchGuardMap := BranchName → Option BranchGuard

variable (opts : KvOptions) (acc : Collected)

/-- The file a mapped file page lies in, under the name the ranges give it. -/
def pageFile (ranges : BranchFileMapping) (c : FileClass) (fp : ℕ) : Option FileName :=
  (getBranchNameAndTerm ranges ⟨c, fileOf (opts.shift c) fp⟩).map
    (FileName.mk ⟨c, fileOf (opts.shift c) fp⟩)

/-- The files a mapping table refers to. A file in no range is skipped. -/
def getRetainedFiles (c : FileClass) (tbl : MappingTbl) (ranges : BranchFileMapping) :
    List FileName :=
  tbl.mapped.filterMap fun x ↦ pageFile opts ranges c x.1

variable {f : FileName}

theorem mem_getRetainedFiles {opts : KvOptions} {c : FileClass} {tbl : MappingTbl}
    {ranges : BranchFileMapping} :
    f ∈ getRetainedFiles opts c tbl ranges ↔
      ∃ q fp, tbl.toFilePage q = some fp ∧ pageFile opts ranges c fp = some f := by
  simp only [getRetainedFiles, List.mem_filterMap, Prod.exists, MappingTbl.mem_mapped]
  constructor
  · rintro ⟨fp, q, hq, hf⟩
    exact ⟨q, fp, hq, hf⟩
  · rintro ⟨q, fp, hq, hf⟩
    exact ⟨fp, q, hq, hf⟩

/-- The guard of the instance's own branch, from its entry in the root cache. -/
def seedActiveBranchGuardFromInMemory (s : Partition) : BranchGuardMap :=
  fun branch ↦
    if branch = s.activeBranch then
      s.entry.map fun root ↦ ⟨s.processTerm, fileOf opts.pagesPerFileShift root.firstUnflushedFpId,
        fileOf opts.segmentsPerFileShift root.firstUnflushedSegFpId⟩
    else none

/-- One range, taken into a branch's guard: a newer term replaces it, the same term raises it. -/
def BranchGuard.fold (g? : Option BranchGuard) (r : BranchFileRange) : BranchGuard :=
  match g? with
  | none => ⟨r.term, r.maxFileId, r.maxSegmentFileId⟩
  | some g =>
    if g.newestTerm < r.term then ⟨r.term, r.maxFileId, r.maxSegmentFileId⟩
    else if r.term = g.newestTerm then
      ⟨g.newestTerm, max g.leastUnflushedFileId r.maxFileId,
        max g.leastUnflushedSegFileId r.maxSegmentFileId⟩
    else g

/-- One range, taken into the guards. -/
def BranchGuardMap.fold (guards : BranchGuardMap) (r : BranchFileRange) : BranchGuardMap :=
  fun branch ↦ if branch = r.branchName then some (.fold (guards branch) r) else guards branch

/-- What a collection has gathered. -/
structure Collected where
  retained : List FileName
  guards : BranchGuardMap

namespace Collected

/-- Take in one manifest or archive. -/
def processOneManifest (m : Manifest) : Collected where
  retained := acc.retained ++
    (getRetainedFiles opts .data (replay m).mappingTbl (replay m).branchMetadata.fileRanges ++
      getRetainedFiles opts .segment (replay m).segmentMappingTbl
        (replay m).branchMetadata.fileRanges)
  guards := (replay m).branchMetadata.fileRanges.foldl BranchGuardMap.fold acc.guards

/-- Whether a file is kept by the collector of a branch. -/
def keeps (activeBranch : BranchName) (f : FileName) : Bool :=
  acc.retained.contains f ||
    match acc.guards f.owner.branchName with
    | none => decide (f.owner.branchName ≠ activeBranch)
    | some g => decide (g.newestTerm ≤ f.owner.term) && decide (g.least f.fid.cls ≤ f.fid.fileId)

theorem keeps_of_mem {acc : Collected} (h : f ∈ acc.retained) (activeBranch : BranchName) :
    acc.keeps activeBranch f = true := by
  rw [keeps, List.contains_iff_mem.2 h, Bool.true_or]

theorem mem_foldl_of_mem {acc : Collected} (h : f ∈ acc.retained) (ms : List Manifest) :
    f ∈ (ms.foldl (processOneManifest opts) acc).retained := by
  induction ms generalizing acc with
  | nil => exact h
  | cons m ms ih => exact ih (List.mem_append_left _ h)

/-- **A manifest that is taken in keeps its files.** -/
theorem mem_foldl_of_manifest {opts : KvOptions} {ms : List Manifest} {m : Manifest} (hm : m ∈ ms)
    (hf : f ∈ getRetainedFiles opts .data (replay m).mappingTbl
      (replay m).branchMetadata.fileRanges ++ getRetainedFiles opts .segment
      (replay m).segmentMappingTbl (replay m).branchMetadata.fileRanges) :
    f ∈ (ms.foldl (processOneManifest opts) acc).retained := by
  induction ms generalizing acc with
  | nil => cases hm
  | cons m' ms ih =>
    rcases List.mem_cons.1 hm with rfl | hm
    · exact mem_foldl_of_mem opts (List.mem_append_right _ hf) ms
    · exact ih _ hm

end Collected

end EloqStore
