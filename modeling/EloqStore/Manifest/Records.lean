import EloqStore.Branch.FileRanges
import EloqStore.Storage.PageMapper

/-!
# Manifest records

A manifest file is a **snapshot** record followed by **log** records. A snapshot holds the roots,
the allocator maximum, the compression dictionary, the whole mapping table, the branch metadata and,
when the partition has a segment mapping, the segment allocator's maximum and table; a log record
holds the roots, the changes to the mapping table, the branch metadata and the changes to the
segment table.

Records are kept in decoded form; `SnapshotRecord.size` and `LogRecord.size` are the exact numbers
of bytes the builder writes for them, since a commit decides by size whether to append a log record
or to rewrite the manifest.
-/

namespace EloqStore

/-- What a manifest says about its branch. -/
structure BranchManifestMetadata where
  branchName : BranchName
  term : ℕ
  fileRanges : BranchFileMapping
deriving DecidableEq, Repr

/-- A snapshot record. -/
structure SnapshotRecord where
  root : Option ℕ
  ttlRoot : Option ℕ
  maxFpId : ℕ
  /-- The compression dictionary; empty when there is none. -/
  dictBytes : List UInt8
  mappingTbl : MappingTbl
  branchMetadata : BranchManifestMetadata
  /-- The segment allocator's maximum and table; the section is absent without a segment
  mapping. -/
  segment : Option (ℕ × MappingTbl)
deriving DecidableEq, Repr

/-- A log record. -/
structure LogRecord where
  root : Option ℕ
  ttlRoot : Option ℕ
  /-- Changes to the data mapping table, in order. -/
  mappingUpdates : List (ℕ × MappingValue)
  branchMetadata : BranchManifestMetadata
  segmentDeltas : List (ℕ × MappingValue)
deriving DecidableEq, Repr

/-- A manifest file. -/
structure Manifest where
  snapshot : SnapshotRecord
  logs : List LogRecord
deriving DecidableEq, Repr

/-! ### Sizes -/

/-- Bytes of a varint: seven bits a byte. -/
def varintLength (v : ℕ) : ℕ := if v < 128 then 1 else 1 + Nat.log2 v / 7

/-- The 64-bit word of a table value: the id above three tag bits. -/
def MappingValue.encode : MappingValue → ℕ
  | .filePageId fp => fp * 8 + 1
  | .pageId next => next * 8 + 2
  | .invalid => 7

/-- The alignment of manifest records. -/
def pageAlign : ℕ := 4096

/-- Round up to the record alignment. -/
def alignUp (n : ℕ) : ℕ := (n + (pageAlign - 1)) / pageAlign * pageAlign

/-- The bytes of a record header: checksum, roots and payload length. -/
def headerBytes : ℕ := 20

/-- Bytes of the serialized branch metadata. -/
def BranchManifestMetadata.size (m : BranchManifestMetadata) : ℕ :=
  4 + m.branchName.utf8ByteSize + 8 +
    (8 + (m.fileRanges.map fun r ↦ 4 + r.branchName.utf8ByteSize + 24).sum)

def tableSize (tbl : MappingTbl) : ℕ := (tbl.map fun v ↦ varintLength v.encode).sum

/-- Bytes of a sequence of table changes. -/
def deltasSize (ds : List (ℕ × MappingValue)) : ℕ :=
  (ds.map fun d ↦ varintLength d.1 + varintLength d.2.encode).sum

/-- Bytes of a finalized snapshot, padding included. -/
def SnapshotRecord.size (s : SnapshotRecord) : ℕ :=
  alignUp (headerBytes + varintLength s.maxFpId + varintLength s.dictBytes.length +
    s.dictBytes.length + 4 + tableSize s.mappingTbl + 4 + s.branchMetadata.size +
    match s.segment with
    | none => 0
    | some (maxFp, tbl) => varintLength maxFp + 4 + tableSize tbl)

/-- Bytes of a finalized log record, padding included. -/
def LogRecord.size (l : LogRecord) : ℕ :=
  alignUp (headerBytes + 4 + deltasSize l.mappingUpdates + 4 + l.branchMetadata.size +
    (4 + deltasSize l.segmentDeltas))

def Manifest.size (m : Manifest) : ℕ := m.snapshot.size + (m.logs.map LogRecord.size).sum

theorem Manifest.size_append (m : Manifest) (l : LogRecord) :
    ({ m with logs := m.logs ++ [l] } : Manifest).size = m.size + l.size := by
  simp [Manifest.size]
  omega

theorem alignUp_pos {n : ℕ} (h : 0 < n) : 0 < alignUp n := by
  simp only [alignUp, pageAlign]
  have : 1 ≤ (n + (4096 - 1)) / 4096 := Nat.div_pos (by omega) (by omega)
  omega

theorem SnapshotRecord.size_pos (s : SnapshotRecord) : 0 < s.size :=
  alignUp_pos (by simp only [headerBytes]; omega)

theorem Manifest.size_pos (m : Manifest) : 0 < m.size :=
  Nat.add_pos_left m.snapshot.size_pos _

end EloqStore
