import EloqStore.Foundation.ByteCodec
import EloqStore.Manifest.Replayer

/-!
# The bytes of a manifest

`ManifestBuilder` turns a root and its changes into bytes, `Replayer` reads them back. A record is a
header (checksum, roots, payload length), a payload, and **padding** to the next page; the payload
of a snapshot and that of a log are sequences of sections **without tags**, each but the first of a
snapshot behind its length.

The types are the code's own: ids and words are `UInt32` and `UInt64`, names are byte strings, and a
length is written as its lowest 32 bits. A reader of a payload may fail, where the source asserts,
checks or calls `substr` out of range. The hash the checksum is made from is a parameter.
-/

namespace EloqStore.Wire

open ByteCodec

abbrev Bytes := List UInt8

/-! ### Table words -/

/-- `EncodeFilePageId`: the id above three tag bits. -/
def encodeFilePageId (fp : UInt64) : UInt64 := fp <<< 3 ||| 1

def valType (w : UInt64) : UInt64 := w &&& 7

def isFilePageId (w : UInt64) : Bool := valType w == 1

def decodeId (w : UInt64) : UInt64 := w >>> 3

def invalidValue : UInt64 := 7

/-- An entry of a mapping table in memory: a pointer to a cached page, or a word that is none. -/
inductive TableEntry
  | swizzlingPointer (fp : UInt64)
  /-- A file page id, a link of the free list, or the invalid value. -/
  | word (w : UInt64) (h : valType w ≠ 0)
deriving DecidableEq

/-- The word written for an entry: a pointer is replaced by the id of its file page. -/
def TableEntry.serialized : TableEntry → UInt64
  | .swizzlingPointer fp => encodeFilePageId fp
  | .word w _ => w

/-! ### What is written -/

/-- A file range, under the source's types. -/
structure BranchFileRange where
  branchName : Bytes
  term : UInt64
  maxFileId : UInt64
  maxSegmentFileId : UInt64
deriving DecidableEq, Repr

/-- The branch metadata. -/
structure BranchManifestMetadata where
  branchName : Bytes := []
  term : UInt64 := 0
  fileRanges : List BranchFileRange := []
deriving DecidableEq, Repr

/-- A change of a mapping table. -/
inductive MappingUpdate
  /-- `UpdateMapping`. -/
  | update (page : UInt32) (fp : UInt64)
  /-- `DeleteMapping`. -/
  | delete (page : UInt32)
deriving DecidableEq, Repr

def MappingUpdate.page : MappingUpdate → UInt32
  | .update page _ | .delete page => page

/-- The word a change puts in the table. -/
def MappingUpdate.value : MappingUpdate → UInt64
  | .update _ fp => encodeFilePageId fp
  | .delete _ => invalidValue

/-- The arguments of `Snapshot`. -/
structure Snapshot where
  rootId : UInt32
  ttlRoot : UInt32
  mapping : List TableEntry
  maxFpId : UInt64
  dictBytes : Bytes
  branchMetadata : BranchManifestMetadata
  /-- The segment mapping and the segment allocator's maximum, if there is a segment mapping. -/
  segment : Option (List TableEntry × UInt64)
deriving DecidableEq

/-- What a commit appends. -/
structure Log where
  root : UInt32
  ttlRoot : UInt32
  mappingUpdates : List MappingUpdate
  branchMetadata : BranchManifestMetadata
  /-- The segment changes; the section can be left out. -/
  segmentDeltas : Option (List MappingUpdate)
deriving DecidableEq

/-! ### Writing -/

/-- `EncodeVarint32`: at most five groups. -/
def varint32 (v : UInt32) : Bytes := varint 5 v.toNat

/-- `EncodeVarint64`: at most ten groups. -/
def varint64 (v : UInt64) : Bytes := varint 10 v.toNat

/-- A section behind the lowest 32 bits of its length. -/
def prefixed (section_ : Bytes) : Bytes := fixed 4 section_.length ++ section_

def rangeBytes (r : BranchFileRange) : Bytes :=
  prefixed r.branchName ++ fixed 8 r.term.toNat ++ fixed 8 r.maxFileId.toNat ++
    fixed 8 r.maxSegmentFileId.toNat

def serializeBranchFileMapping (mapping : List BranchFileRange) : Bytes :=
  fixed 8 mapping.length ++ mapping.flatMap rangeBytes

/-- `SerializeBranchManifestMetadata`. -/
def serializeBranchManifestMetadata (m : BranchManifestMetadata) : Bytes :=
  prefixed m.branchName ++ fixed 8 m.term.toNat ++ serializeBranchFileMapping m.fileRanges

/-- `MappingSnapshot::Serialize`. -/
def serializeTable (tbl : List TableEntry) : Bytes := tbl.flatMap fun e ↦ varint64 e.serialized

def updateBytes (u : MappingUpdate) : Bytes := varint32 u.page ++ varint64 u.value

/-- The payload of a snapshot. The length of the dictionary is cut to 32 bits. -/
def Snapshot.payload (s : Snapshot) : Bytes :=
  varint64 s.maxFpId ++ (varint32 (UInt32.ofNat s.dictBytes.length) ++ (s.dictBytes ++
    (prefixed (serializeTable s.mapping) ++
      (prefixed (serializeBranchManifestMetadata s.branchMetadata) ++
        match s.segment with
        | none => []
        | some (tbl, maxFp) => varint64 maxFp ++ prefixed (serializeTable tbl)))))

/-- What the builder holds after the header. -/
structure ManifestBuilder where
  body : Bytes := []
  /-- Room has been made for the length of the changes. -/
  resizedForMappingBytesLen : Bool := false

namespace ManifestBuilder

/-- Make room for the length of the changes, once. -/
def reserveLen (b : ManifestBuilder) : ManifestBuilder :=
  if b.resizedForMappingBytesLen then b else ⟨b.body ++ fixed 4 0, true⟩

/-- `UpdateMapping` and `DeleteMapping`. -/
def addUpdate (b : ManifestBuilder) (u : MappingUpdate) : ManifestBuilder :=
  let b := b.reserveLen
  { b with body := b.body ++ updateBytes u }

/-- `AppendBranchManifestMetadata`: fill in the length of the changes, then append. -/
def appendBranchManifestMetadata (b : ManifestBuilder) (metadata : Bytes) : ManifestBuilder :=
  let b := b.reserveLen
  { b with body := fixed 4 (b.body.length - 4) ++ b.body.drop 4 ++ prefixed metadata }

def appendSegmentMapping (b : ManifestBuilder) (segmentMapping : Bytes) : ManifestBuilder :=
  { b with body := b.body ++ segmentMapping }

end ManifestBuilder

/-- The payload of a log: the changes as they happen, then the metadata, with which the length of
the changes is filled in, then the length of the segment changes and the changes. A commit writes
the segment section always. -/
def Log.payload (l : Log) : Bytes :=
  let b := (l.mappingUpdates.foldl ManifestBuilder.addUpdate {}).appendBranchManifestMetadata
    (serializeBranchManifestMetadata l.branchMetadata)
  match l.segmentDeltas with
  | none => b.body
  | some us =>
    let deltas := us.flatMap updateBytes
    ((b.appendSegmentMapping (fixed 4 deltas.length)).appendSegmentMapping deltas).body

section Checksum

variable (xxh3 : Bytes → UInt64)

/-- `CalcChecksum`, over batches of one MiB; the first argument bounds their number. -/
def checksumBatches : ℕ → UInt64 → Bytes → UInt64
  | 0, agg, _ => agg
  | _ + 1, agg, [] => agg
  | k + 1, agg, content =>
    let agg := (agg <<< 1 ||| agg >>> 63) ^^^ xxh3 (content.take (1024 * 1024))
    checksumBatches k (agg * 0x9e3779b97f4a7c15) (content.drop (1024 * 1024))

def calcChecksum (content : Bytes) : UInt64 := checksumBatches xxh3 content.length 0 content

/-- The padding after a number of bytes. -/
def paddingBytes (n : ℕ) : ℕ := (pageAlign - n % pageAlign) % pageAlign

/-- The header without the checksum, and the payload. -/
def content (root ttlRoot : UInt32) (payload : Bytes) : Bytes :=
  fixed 4 root.toNat ++ (fixed 4 ttlRoot.toNat ++ (fixed 4 payload.length ++ payload))

/-- `Finalize`, without the padding. -/
def unpadded (root ttlRoot : UInt32) (payload : Bytes) : Bytes :=
  fixed 8 (calcChecksum xxh3 (content root ttlRoot payload)).toNat ++ content root ttlRoot payload

/-- `Finalize`. The padding is what the buffer held before, given by `stale`. -/
def finalize (root ttlRoot : UInt32) (payload stale : Bytes) : Bytes :=
  unpadded xxh3 root ttlRoot payload ++
    (stale ++ List.replicate (paddingBytes (headerBytes + payload.length)) 0).take
      (paddingBytes (headerBytes + payload.length))

/-! ### Reading records -/

/-- `ValidateChecksum`, of a record that has a header. -/
def validateChecksum (record : Bytes) : Bool :=
  ofFixed (record.take 8) == (calcChecksum xxh3 (record.drop 8)).toNat

/-- A record: its roots and its payload. -/
structure Record where
  root : UInt32
  ttlRoot : UInt32
  payload : Bytes
deriving DecidableEq, Repr

/-- What `ParseNextRecord` finds, with what it adds to the size of the file and what it leaves. -/
inductive Parsed
  | endOfFile (size : ℕ)
  | corrupted (size : ℕ) (rest : Bytes)
  | record (r : Record) (size : ℕ) (rest : Bytes)
deriving DecidableEq, Repr

/-- `ParseNextRecord`. The number of bytes of a record is computed in 32 bits. **A record whose
padding is missing is not applied, but counted.** -/
def parseNextRecord (file : Bytes) : Parsed :=
  if file.length < headerBytes then .endOfFile 0
  else
    let payloadLen := ofFixed ((file.drop 16).take 4)
    if file.length < headerBytes + payloadLen then .endOfFile 0
    else
      let record := file.take (headerBytes + payloadLen)
      let padding := paddingBytes (headerBytes + payloadLen)
      let size := (headerBytes + payloadLen) % 2 ^ 32 + padding
      let rest := file.drop (headerBytes + payloadLen + padding)
      if !validateChecksum xxh3 record then .corrupted size rest
      else if file.length < headerBytes + payloadLen + padding then .endOfFile size
      else .record ⟨UInt32.ofNat (ofFixed ((record.drop 8).take 4)),
        UInt32.ofNat (ofFixed ((record.drop 12).take 4)), record.drop headerBytes⟩ size rest

end Checksum

/-! ### Reading payloads -/

def getVarint32 (input : Bytes) : Option (UInt32 × Bytes) :=
  (readVarint 32 5 0 0 input).map fun p ↦ (UInt32.ofNat p.1, p.2)

def getVarint64 (input : Bytes) : Option (UInt64 × Bytes) :=
  (readVarint 64 10 0 0 input).map fun p ↦ (UInt64.ofNat p.1, p.2)

/-- The change of a table, as it is read. -/
def getUpdate (input : Bytes) : Option ((UInt32 × UInt64) × Bytes) :=
  (getVarint32 input).bind fun (page, input) ↦
    (getVarint64 input).map fun (value, input) ↦ ((page, value), input)

def readTable (view : Bytes) : Option (List UInt64) := readAll getVarint64 view.length view

def readUpdates (view : Bytes) : Option (List (UInt32 × UInt64)) :=
  readAll getUpdate view.length view

def getRange (data : Bytes) : Option (BranchFileRange × Bytes) :=
  if data.length < 4 then none
  else
    let nameLen := ofFixed (data.take 4)
    let data := data.drop 4
    if data.length < nameLen + 24 then none
    else
      let fields := data.drop nameLen
      some (⟨data.take nameLen, UInt64.ofNat (ofFixed (fields.take 8)),
        UInt64.ofNat (ofFixed ((fields.drop 8).take 8)),
        UInt64.ofNat (ofFixed ((fields.drop 16).take 8))⟩, fields.drop 24)

def getRanges : ℕ → Bytes → Option (List BranchFileRange)
  | 0, _ => some []
  | n + 1, data => (getRange data).bind fun (r, data) ↦ (getRanges n data).map (r :: ·)

/-- `DeserializeBranchFileMapping`: empty on an error. -/
def deserializeBranchFileMapping (data : Bytes) : List BranchFileRange :=
  if data.length < 8 then []
  else (getRanges (ofFixed (data.take 8)) (data.drop 8)).getD []

/-- `DeserializeBranchManifestMetadata`. -/
def deserializeBranchManifestMetadata (data : Bytes) : Option BranchManifestMetadata :=
  if data.length < 4 then none
  else
    let nameLen := ofFixed (data.take 4)
    let data := data.drop 4
    if data.length < nameLen + 8 then none
    else
      let fields := data.drop nameLen
      some ⟨data.take nameLen, UInt64.ofNat (ofFixed (fields.take 8)),
        deserializeBranchFileMapping (fields.drop 8)⟩

/-- The metadata section, if one is found, and what follows it. -/
def metadataSection (remaining : Bytes) : Option Bytes × Bytes :=
  if remaining.length < 4 then (none, remaining)
  else
    let len := ofFixed (remaining.take 4)
    let remaining := remaining.drop 4
    if 0 < len ∧ len ≤ remaining.length then (some (remaining.take len), remaining.drop len)
    else (none, remaining)

/-- The sections of a log's payload: the changes, the metadata and the segment changes. -/
structure LogSections where
  mapping : Bytes
  metadata : Option Bytes
  segment : Option Bytes
deriving DecidableEq, Repr

/-- **Where a log's payload is split.** -/
def logSections (payload : Bytes) : Option LogSections :=
  if payload.length ≤ 4 then none
  else
    let mappingLen := ofFixed (payload.take 4)
    -- the position of what follows is computed in 32 bits
    let pos := (4 + mappingLen) % 2 ^ 32
    if payload.length < pos then none
    else
      let (metadata, remaining) := metadataSection (payload.drop pos)
      some ⟨(payload.drop 4).take mappingLen, metadata,
        if remaining.length < 4 then none
        else some ((remaining.drop 4).take (ofFixed (remaining.take 4)))⟩

/-- The sections of a snapshot's payload. -/
structure SnapshotSections where
  maxFpId : UInt64
  dictBytes : Bytes
  mapping : Bytes
  metadata : Option Bytes
  /-- The segment allocator's maximum and the segment mapping, if found. -/
  segment : Option (UInt64 × Bytes)
deriving DecidableEq, Repr

/-- The segment section of a snapshot; the outer option is a failed check. -/
def segmentSection (remaining : Bytes) : Option (Option (UInt64 × Bytes)) :=
  if remaining.length < 4 then some none
  else (getVarint64 remaining).bind fun (maxFp, remaining) ↦
    if remaining.length < 4 then none
    else some (some (maxFp, (remaining.drop 4).take (ofFixed (remaining.take 4))))

/-- **Where a snapshot's payload is split.** -/
def snapshotSections (payload : Bytes) : Option SnapshotSections :=
  (getVarint64 payload).bind fun (maxFpId, snapshot) ↦
    (getVarint32 snapshot).bind fun (dictLen, snapshot) ↦
      if snapshot.length < dictLen.toNat then none
      else
        let dictBytes := snapshot.take dictLen.toNat
        let snapshot := snapshot.drop dictLen.toNat
        if snapshot.length < 4 then none
        else
          let mappingLen := ofFixed (snapshot.take 4)
          if snapshot.length - 4 ≤ mappingLen then none
          else
            let (metadata, remaining) := metadataSection (snapshot.drop (4 + mappingLen))
            (segmentSection remaining).map fun segment ↦
              ⟨maxFpId, dictBytes, (snapshot.drop 4).take mappingLen, metadata, segment⟩

/-! ### Replaying -/

/-- The state of a replay. -/
structure Replayer where
  root : UInt32
  ttlRoot : UInt32
  mappingTbl : List UInt64
  maxFpId : UInt64
  segmentMappingTbl : List UInt64
  maxSegmentFpId : UInt64
  dictBytes : Bytes
  branchMetadata : BranchManifestMetadata
deriving DecidableEq, Repr

/-- Put a word into a table, which grows with invalid values up to its place. -/
def putWord (tbl : List UInt64) (page : UInt32) (value : UInt64) : List UInt64 :=
  (tbl ++ List.replicate (page.toNat + 1 - tbl.length) invalidValue).set page.toNat value

/-- Apply one change to a table, and raise the maximum past the file page it names. -/
def applyUpdate (acc : List UInt64 × UInt64) (u : UInt32 × UInt64) : List UInt64 × UInt64 :=
  (putWord acc.1 u.1 u.2, if isFilePageId u.2 then max acc.2 (decodeId u.2 + 1) else acc.2)

/-- A section of metadata, if found, must be readable; without one the metadata stay. -/
def readMetadata (old : BranchManifestMetadata) : Option Bytes → Option BranchManifestMetadata
  | none => some old
  | some data => deserializeBranchManifestMetadata data

def deserializeSnapshot (r : Record) : Option Replayer :=
  (snapshotSections r.payload).bind fun sec ↦
    (readTable sec.mapping).bind fun tbl ↦
      (readMetadata {} sec.metadata).bind fun metadata ↦
        (match sec.segment with
          | none => some ([], 0)
          | some (maxFp, view) => (readTable view).map fun segTbl ↦ (segTbl, maxFp)).map
          fun (segTbl, maxSegFp) ↦
            ⟨r.root, r.ttlRoot, tbl, sec.maxFpId, segTbl, maxSegFp, sec.dictBytes, metadata⟩

def replayLog (s : Replayer) (r : Record) : Option Replayer :=
  (logSections r.payload).bind fun sec ↦
    (readUpdates sec.mapping).bind fun updates ↦
      (readMetadata s.branchMetadata sec.metadata).bind fun metadata ↦
        (readUpdates (sec.segment.getD [])).map fun deltas ↦
          let data := updates.foldl applyUpdate (s.mappingTbl, s.maxFpId)
          let segment := deltas.foldl applyUpdate (s.segmentMappingTbl, s.maxSegmentFpId)
          { s with
            root := r.root
            ttlRoot := r.ttlRoot
            mappingTbl := data.1
            maxFpId := data.2
            segmentMappingTbl := segment.1
            maxSegmentFpId := segment.2
            branchMetadata := metadata }

/-- Why a replay fails. -/
inductive ReplayError
  | endOfFile
  /-- The first record is corrupted, or a record follows a corrupted one. -/
  | corrupted
  /-- A payload with the right checksum cannot be read. -/
  | unreadable
deriving DecidableEq, Repr

/-- How far a replay is. -/
structure Progress where
  state : Replayer
  fileSize : ℕ
  /-- Where the first corrupted record starts, once one has been found. -/
  corruptedAt : Option ℕ := none
  /-- The log records applied so far; the code does not keep them. -/
  applied : List Record := []
deriving DecidableEq, Repr

/-- The size of the file a replay reports. -/
def Progress.reportedSize (p : Progress) : ℕ := p.corruptedAt.getD p.fileSize

/-- The loop over the log records. A corrupted record is skipped, but none may follow it. The first
argument bounds the number of records, which the length of the file does. -/
def replayLogs (xxh3 : Bytes → UInt64) : ℕ → Progress → Bytes → Except ReplayError Progress
  | 0, p, _ => .ok p
  | k + 1, p, file =>
    match parseNextRecord xxh3 file with
    | .endOfFile size => .ok { p with fileSize := p.fileSize + size }
    | .corrupted size rest =>
      replayLogs xxh3 k { p with
        fileSize := p.fileSize + size
        corruptedAt := some (p.corruptedAt.getD p.fileSize) } rest
    | .record r size rest =>
      if p.corruptedAt.isSome then .error .corrupted
      else
        match replayLog p.state r with
        | none => .error .unreadable
        | some state =>
          replayLogs xxh3 k { p with
            state := state
            fileSize := p.fileSize + size
            applied := p.applied ++ [r] } rest

def replay (xxh3 : Bytes → UInt64) (file : Bytes) : Except ReplayError Progress :=
  match parseNextRecord xxh3 file with
  | .endOfFile _ => .error .endOfFile
  | .corrupted _ _ => .error .corrupted
  | .record r size rest =>
    match deserializeSnapshot r with
    | none => .error .unreadable
    | some state => replayLogs xxh3 rest.length ⟨state, size, none, []⟩ rest

end EloqStore.Wire
