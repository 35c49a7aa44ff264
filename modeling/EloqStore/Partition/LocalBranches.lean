import EloqStore.Partition.PooledPages
import EloqStore.Partition.ProvenanceRuns

/-!
# Branches of a local, pooled store

A local store without append mode, with everything that decides which file a page write changes.
The data files of a partition are named by branch and file id, and every branch numbers its file
pages on from the branch it was forked from, so one file id can stand for several files. Three
mechanisms choose among them.

* The **pool** a write takes a file page from. It is rebuilt when the partition is loaded, without
  the pages that lie in another branch's files, and refilled when a replaced mapping is released,
  with whatever that mapping gave up.
* The **open descriptors**, one per file id. In local mode an open one is used as it is, whatever
  branch the file belongs to; a write opens or creates a file of the active branch only when there
  is none.
* The **file ranges**, by which a read finds the file of a file page.

`LocalStore` has the running instance with its descriptors, the manifests of all branches, and the
page writes that have reached the files. No segments are allocated, since they are not pages.
-/

namespace EloqStore

/-- Local mode without append mode. -/
structure KvOptions.LocalPooled (opts : KvOptions) : Prop where
  pooled : opts.dataAppendMode = false
  /-- There is no object store and no standby. -/
  localMode : deriveStoreMode opts = .localMode

/-- **A local store.** -/
structure LocalStore where
  /-- The partition in the running instance. -/
  part : Partition
  others : List (BranchName × Manifest) := []
  /-- The open descriptors of data files, by file id, each with the file it was opened for. -/
  fds : List (ℕ × Owner) := []
  /-- The page writes, latest first: file, file page, content. -/
  disk : List ((Owner × ℕ) × ℕ) := []
deriving DecidableEq, Repr

namespace LocalStore

variable (opts : KvOptions) (s : LocalStore)

/-- A store never written. Local mode has no terms. -/
def fresh (branch : BranchName) : LocalStore := { part := .fresh branch 0 }

def manifestOf (branch : BranchName) : Option Manifest :=
  if branch = s.part.activeBranch then s.part.manifest else s.others.lookup branch

/-- The content of a logical page of a branch: its file page is looked up in the branch's manifest,
the file in the manifest's ranges. -/
def contentOf (branch : BranchName) (page : ℕ) : Option ℕ :=
  (s.manifestOf branch).bind fun m ↦
    ((replay m).mappingTbl.toFilePage page).bind fun fp ↦
      (getBranchNameAndTerm (replay m).branchMetadata.fileRanges
        (dataFileKey (fileOf opts.pagesPerFileShift fp))).bind fun o ↦
          s.disk.lookup (o, fp)

/-- **The file a page write changes**: that of the open descriptor, whatever branch it is of, or the
active branch's file. -/
def writtenFile (fp : ℕ) : Owner :=
  (s.fds.lookup (fileOf opts.pagesPerFileShift fp)).getD s.part.owner

def manifests : List (BranchName × Manifest) :=
  (s.part.manifest.map fun m ↦ (s.part.activeBranch, m)).toList ++ s.others

end LocalStore

/-- What can happen to a local store. -/
inductive LocalEvent
  | begin
  /-- The task takes a step that allocates nothing. -/
  | step (a : TaskStep)
  /-- The task allocates a file page for a logical page and writes it. -/
  | write (page? : Option ℕ) (content : ℕ)
  | commit
  | abort
  /-- The oldest replaced mapping is released. -/
  | release
  | openFile (fileId : ℕ)
  | closeFile (fileId : ℕ)
  | fork (child : BranchName)
  /-- The instance stops, and one starts on a branch. -/
  | restart (branch : BranchName)
deriving DecidableEq, Repr

def LocalEvent.run (opts : KvOptions) (s : LocalStore) : LocalEvent → Option LocalStore
  | .begin => (PartitionEvent.begin.run opts s.part).map fun p ↦ { s with part := p }
  | .step a =>
    if s.part.task.any fun t ↦ (a.allocation t).isNone then
      ((PartitionEvent.step a).run opts s.part).map fun p ↦ { s with part := p }
    else none
  | .write page? content =>
    s.part.task.bind fun t ↦
      ((PartitionEvent.step (.allocatePage page?)).run opts s.part).map fun p ↦
        let fp := t.cow.mapper.allocator.allocate.1
        let file := s.writtenFile opts fp
        { s with
          part := p
          fds := (fileOf opts.pagesPerFileShift fp, file) :: s.fds
          disk := ((file, fp), content) :: s.disk }
  | .commit => (PartitionEvent.commit.run opts s.part).map fun p ↦ { s with part := p }
  | .abort => (PartitionEvent.abort.run opts s.part).map fun p ↦ { s with part := p }
  | .release => some { s with part := s.part.freeMappingSnapshot }
  | .openFile fileId =>
    (getBranchNameAndTerm s.part.branchFileMapping (dataFileKey fileId)).map fun o ↦
      { s with fds := (fileId, (s.fds.lookup fileId).getD o) :: s.fds }
  | .closeFile fileId => some { s with fds := s.fds.filter (·.1 ≠ fileId) }
  | .fork child =>
    if s.part.task = none then
      match s.part.createBranch opts [] child with
      | .error _ => none
      | .ok (parent, m?) => some { s with
          part := parent
          others := (m?.map fun m ↦ (normalizeBranchName child, m)).toList ++ s.others }
    else none
  | .restart branch =>
    some
      { part := .ofBranch branch 0 (s.manifests.lookup branch)
        others := s.manifests.filter (·.1 ≠ branch)
        disk := s.disk }

abbrev LocalRuns (opts : KvOptions) (G : LocalStore → LocalEvent → Prop) :
    LocalStore → LocalStore → Prop :=
  Transition.Reach (fun s e s' ↦ LocalEvent.run opts s e = some s') G

end EloqStore
