import Mathlib.Algebra.Order.BigOperators.Group.List
import Mathlib.Tactic.Ring

/-!
# Identifiers and options

The vocabulary of the store. Logical pages (ids of the source's `PageId`) are mapped to **file
pages** (`FilePageId`), which are grouped into files (`FileId`): the file of a file page is its id
shifted right by the configured number of bits. All three ids are naturals here: every counter
behind them starts at zero and grows by one per allocation. The source marks an absent page by the
sentinel `MaxPageId`; here an absent page is `none`, so a page id is always the id of a page.

Data pages and the segments of large values live in separate file classes with the same machinery;
a `TypedFileId` says which class a file id belongs to.
-/

namespace EloqStore

abbrev BranchName := String

/-- The two classes of files of a partition. -/
inductive FileClass
  /-- Files of data, index and overflow pages. -/
  | data
  | segment
deriving DecidableEq, Repr

/-- A file id tagged with its class: `DataFileKey` and `SegmentFileKey` of the source. -/
structure TypedFileId where
  cls : FileClass
  fileId : ℕ
deriving DecidableEq, Repr

def dataFileKey (fileId : ℕ) : TypedFileId := ⟨.data, fileId⟩

def segmentFileKey (fileId : ℕ) : TypedFileId := ⟨.segment, fileId⟩

/-- How a store instance persists its partitions. -/
inductive StoreMode
  | localMode
  | standbyMaster
  | standbyReplica
  | cloud
deriving DecidableEq, Repr

/-- The options the modelled code reads. -/
structure KvOptions where
  /-- Pages are only ever appended; otherwise freed file pages are pooled and reused. -/
  dataAppendMode : Bool
  /-- Base-two logarithm of the number of pages of a data file. -/
  pagesPerFileShift : ℕ
  segmentsPerFileShift : ℕ
  /-- The manifest size above which a commit rewrites the manifest instead of appending. -/
  manifestLimit : ℕ
  /-- Space amplification above which a data file is compacted. -/
  fileAmplifyFactor : ℕ
  segmentFileAmplifyFactor : ℕ
  enableLocalStandby : Bool
  standbyMasterAddr : String
  cloudStorePath : String
deriving DecidableEq, Repr

def deriveStoreMode (opts : KvOptions) : StoreMode :=
  if opts.enableLocalStandby then
    if opts.standbyMasterAddr = "" then .standbyMaster else .standbyReplica
  else if opts.cloudStorePath ≠ "" then .cloud
  else .localMode

/-- The number of bits a file page id of the class is shifted by to get its file id. -/
def KvOptions.shift (opts : KvOptions) : FileClass → ℕ
  | .data => opts.pagesPerFileShift
  | .segment => opts.segmentsPerFileShift

def fileOf (shift : ℕ) (fp : ℕ) : ℕ := fp >>> shift

/-- The pair a file name carries besides its id: the writing branch and its term. -/
structure Owner where
  branchName : BranchName
  /-- The term the branch was running under. -/
  term : ℕ
deriving DecidableEq, Repr

/-- The errors of the store. -/
inductive KvError
  | noError
  | invalidArgs
  | notFound
  | resourceMissing
  | notRunning
  | corrupted
  | endOfFile
  | outOfSpace
  | outOfMem
  | openFileLimit
  | tryAgain
  | busy
  | timeout
  | noPermission
  | cloudErr
  | ioFail
  | expiredTerm
  | ossInsufficientStorage
  | alreadyExists
  | largeValueUnsupported
deriving DecidableEq, Repr

/-- How a value is stored. -/
inductive CompressionType
  | none
  | dictionary
  | standalone
deriving DecidableEq, Repr

end EloqStore
