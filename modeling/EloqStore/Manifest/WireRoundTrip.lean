import EloqStore.Manifest.Wire
import Mathlib.Algebra.Order.BigOperators.Group.List

/-!
# Reading back a manifest

What the builder writes, the replayer reads: every section is found at the bytes where it was
written, and the replay of a snapshot followed by logs is **the fold of the logs' changes over the
snapshot**. All it takes is that each record is shorter than `2 ^ 32` bytes, because lengths are
written and added in 32 bits. A longer snapshot is not read back.

There is one lemma for each reader, in the form "reader (writer a ++ rest) = (a, rest)".
-/

namespace EloqStore.Wire

open List Option ManifestBuilder MappingUpdate TableEntry

open ByteCodec

/-! ### Varints and sequences -/

theorem getVarint32_varint32 (v : UInt32) (rest : Bytes) :
    getVarint32 (varint32 v ++ rest) = some (v, rest) := by
  have hread : readVarint 32 5 0 0 (varint 5 v.toNat ++ rest) = some (v.toNat, rest) :=
    readVarint_varint (by decide) (by decide) v.toNat_lt rest
  rw [getVarint32, varint32, hread, map_some, UInt32.ofNat_toNat]

theorem getVarint64_varint64 (v : UInt64) (rest : Bytes) :
    getVarint64 (varint64 v ++ rest) = some (v, rest) := by
  have hread : readVarint 64 10 0 0 (varint 10 v.toNat ++ rest) = some (v.toNat, rest) :=
    readVarint_varint (by decide) (by decide) v.toNat_lt rest
  rw [getVarint64, varint64, hread, map_some, UInt64.ofNat_toNat]

theorem varint64_ne_nil (v : UInt64) : varint64 v ≠ [] := varint_ne_nil (by decide) _

theorem readTable_serializeTable (tbl : List TableEntry) :
    readTable (serializeTable tbl) = some (tbl.map serialized) := by
  have hwords : serializeTable tbl = (tbl.map serialized).flatMap varint64 := by
    rw [serializeTable, flatMap_map]
  rw [readTable, hwords]
  exact readAll_flatMap (fun v _ ↦ getVarint64_varint64 v) (fun v _ ↦ varint64_ne_nil v)
    le_rfl

/-- What is read of a change: its page and its word. -/
def MappingUpdate.pair (u : MappingUpdate) : UInt32 × UInt64 := (u.page, u.value)

theorem readUpdates_flatMap (us : List MappingUpdate) :
    readUpdates (us.flatMap updateBytes) = some (us.map pair) := by
  have hpairs : us.flatMap updateBytes =
      (us.map pair).flatMap fun p ↦ varint32 p.1 ++ varint64 p.2 := by
    rw [flatMap_map]
    rfl
  rw [readUpdates, hpairs]
  refine readAll_flatMap (fun p _ rest ↦ ?_) (fun p _ ↦ ?_) le_rfl
  · rw [getUpdate, append_assoc, getVarint32_varint32, bind_some]
    dsimp only
    rw [getVarint64_varint64, map_some]
  · exact append_ne_nil_of_left_ne_nil (varint_ne_nil (by decide) _) _

/-! ### Sections -/

@[simp] theorem length_prefixed (bs : Bytes) : (prefixed bs).length = 4 + bs.length := by
  rw [prefixed, length_append, length_fixed]

theorem not_length_prefixed_lt (bs rest : Bytes) : ¬(prefixed bs ++ rest).length < 4 := by
  rw [length_append, length_prefixed]
  omega

theorem drop_prefixed (bs rest : Bytes) : (prefixed bs ++ rest).drop 4 = bs ++ rest := by
  exact drop_left' (length_fixed 4 _)

theorem ofFixed_take_prefixed {bs : Bytes} (h : bs.length < 2 ^ 32) (rest : Bytes) :
    ofFixed ((prefixed bs ++ rest).take 4) = bs.length := by
  have htake : (prefixed bs ++ rest).take 4 = fixed 4 bs.length := by
    exact take_left' (length_fixed 4 _)
  rw [htake, ofFixed_fixed]
  exact Nat.mod_eq_of_lt h

theorem last_section {bs : Bytes} (h : bs.length < 2 ^ 32) :
    ((prefixed bs).drop 4).take (ofFixed ((prefixed bs).take 4)) = bs := by
  have hlen := ofFixed_take_prefixed h []
  have hdrop := drop_prefixed bs []
  rw [append_nil] at hlen hdrop
  rw [hlen, hdrop, append_nil, take_length]

theorem ofFixed_take_fixed64 (v : UInt64) (rest : Bytes) :
    UInt64.ofNat (ofFixed ((fixed 8 v.toNat ++ rest).take 8)) = v := by
  have hlt : v.toNat < 256 ^ 8 := v.toNat_lt
  rw [take_left' (length_fixed 8 _), ofFixed_fixed, Nat.mod_eq_of_lt hlt, UInt64.ofNat_toNat]

theorem ofFixed_take_fixed32 (v : UInt32) (rest : Bytes) :
    UInt32.ofNat (ofFixed ((fixed 4 v.toNat ++ rest).take 4)) = v := by
  have hlt : v.toNat < 256 ^ 4 := v.toNat_lt
  rw [take_left' (length_fixed 4 _), ofFixed_fixed, Nat.mod_eq_of_lt hlt, UInt32.ofNat_toNat]

/-! ### Branch metadata -/

theorem getRange_rangeBytes {r : BranchFileRange} (h : r.branchName.length < 2 ^ 32)
    (rest : Bytes) : getRange (rangeBytes r ++ rest) = some (r, rest) := by
  have hbytes : rangeBytes r ++ rest = prefixed r.branchName ++ (fixed 8 r.term.toNat ++
      (fixed 8 r.maxFileId.toNat ++ (fixed 8 r.maxSegmentFileId.toNat ++ rest))) := by
    simp only [rangeBytes, append_assoc]
  rw [hbytes, getRange, if_neg (not_length_prefixed_lt _ _), ofFixed_take_prefixed h, drop_prefixed]
  dsimp only
  rw [if_neg (by simp; omega), take_left, drop_left, ofFixed_take_fixed64,
    drop_left' (length_fixed 8 _), ofFixed_take_fixed64]
  have hdrop : ∀ a b c : ℕ, ∀ tail : Bytes,
      (fixed 8 a ++ (fixed 8 b ++ (fixed 8 c ++ tail))).drop 16 = fixed 8 c ++ tail ∧
        (fixed 8 a ++ (fixed 8 b ++ (fixed 8 c ++ tail))).drop 24 = tail := by
    intro a b c tail
    constructor
    · rw [← append_assoc]
      exact drop_left' (by simp)
    · rw [← append_assoc, ← append_assoc]
      exact drop_left' (by simp)
  rw [(hdrop _ _ _ _).1, (hdrop _ _ _ _).2, ofFixed_take_fixed64]

theorem getRanges_flatMap {rs : List BranchFileRange}
    (h : ∀ r ∈ rs, r.branchName.length < 2 ^ 32) (rest : Bytes) :
    getRanges rs.length (rs.flatMap rangeBytes ++ rest) = some rs := by
  induction rs with
  | nil => rfl
  | cons r rs ih =>
    rw [flatMap_cons, append_assoc, length_cons, getRanges,
      getRange_rangeBytes (h r mem_cons_self), bind_some]
    dsimp only
    rw [ih fun r' hr' ↦ h r' (mem_cons_of_mem _ hr'), map_some]

theorem length_name_le {rs : List BranchFileRange} {r : BranchFileRange} (h : r ∈ rs) :
    r.branchName.length ≤ (rs.flatMap rangeBytes).length := by
  have hsub : (rangeBytes r).length ≤ (rs.flatMap rangeBytes).length :=
    (sublist_flatten_of_mem (mem_map_of_mem h)).length_le
  simp only [rangeBytes, length_append, length_prefixed, length_fixed] at hsub
  omega

theorem length_le_flatMap (rs : List BranchFileRange) :
    rs.length ≤ (rs.flatMap rangeBytes).length := by
  induction rs with
  | nil => exact le_rfl
  | cons r rs ih =>
    have hpos : 0 < (rangeBytes r).length := by
      simp only [rangeBytes, length_append, length_prefixed, length_fixed]
      omega
    rw [flatMap_cons, length_append, length_cons]
    omega

/-- **The metadata read back.** -/
theorem deserialize_serializeBranchManifestMetadata {m : BranchManifestMetadata}
    (h : (serializeBranchManifestMetadata m).length < 2 ^ 32) :
    deserializeBranchManifestMetadata (serializeBranchManifestMetadata m) = some m := by
  have hlen : (serializeBranchManifestMetadata m).length =
      4 + m.branchName.length + 8 + (8 + (m.fileRanges.flatMap rangeBytes).length) := by
    simp only [serializeBranchManifestMetadata, serializeBranchFileMapping, length_append,
      length_prefixed, length_fixed]
  have hcount := length_le_flatMap m.fileRanges
  have hranges : deserializeBranchFileMapping (serializeBranchFileMapping m.fileRanges) =
      m.fileRanges := by
    have hnames : ∀ r ∈ m.fileRanges, r.branchName.length < 2 ^ 32 := fun r hr ↦ by
      have hle := length_name_le hr
      omega
    have hread := getRanges_flatMap hnames []
    rw [append_nil] at hread
    rw [deserializeBranchFileMapping, serializeBranchFileMapping, if_neg (by simp),
      take_left' (length_fixed 8 _), drop_left' (length_fixed 8 _), ofFixed_fixed,
      Nat.mod_eq_of_lt (by omega), hread, getD_some]
  have hbytes : serializeBranchManifestMetadata m = prefixed m.branchName ++
      (fixed 8 m.term.toNat ++ serializeBranchFileMapping m.fileRanges) := by
    simp only [serializeBranchManifestMetadata, append_assoc]
  rw [hbytes, deserializeBranchManifestMetadata, if_neg (not_length_prefixed_lt _ _),
    ofFixed_take_prefixed (by omega), drop_prefixed]
  dsimp only
  rw [if_neg (by simp), take_left, drop_left, ofFixed_take_fixed64,
    drop_left' (length_fixed 8 _), hranges]

theorem serializeBranchManifestMetadata_pos (m : BranchManifestMetadata) :
    0 < (serializeBranchManifestMetadata m).length := by
  simp only [serializeBranchManifestMetadata, length_append, length_prefixed]
  omega

/-- A section of metadata is found where it was written. -/
theorem metadataSection_prefixed {data : Bytes} (hpos : 0 < data.length)
    (h : data.length < 2 ^ 32) (rest : Bytes) :
    metadataSection (prefixed data ++ rest) = (some data, rest) := by
  rw [metadataSection, if_neg (not_length_prefixed_lt _ _), ofFixed_take_prefixed h, drop_prefixed]
  rw [if_pos ⟨hpos, by simp⟩, take_left, drop_left]

/-! ### Payloads -/

/-- After changes the builder holds room for a length, and the changes. -/
theorem ManifestBuilder.foldl_addUpdate (us : List MappingUpdate) (bytes : Bytes) :
    us.foldl addUpdate ⟨fixed 4 0 ++ bytes, true⟩ =
      ⟨fixed 4 0 ++ (bytes ++ us.flatMap updateBytes), true⟩ := by
  induction us generalizing bytes with
  | nil => rw [foldl_nil, flatMap_nil, append_nil]
  | cons u us ih =>
    have hstep : addUpdate ⟨fixed 4 0 ++ bytes, true⟩ u =
        ⟨fixed 4 0 ++ (bytes ++ updateBytes u), true⟩ := by
      rw [addUpdate, reserveLen, if_pos rfl, append_assoc]
    rw [foldl_cons, hstep, ih, flatMap_cons, append_assoc]

/-- The bytes of the segment section of a log. -/
def Log.segmentBytes (l : Log) : Bytes :=
  l.segmentDeltas.elim [] fun us ↦ prefixed (us.flatMap updateBytes)

/-- **The payload of a log**: sections behind their lengths. -/
theorem Log.payload_eq (l : Log) :
    l.payload = prefixed (l.mappingUpdates.flatMap updateBytes) ++
      (prefixed (serializeBranchManifestMetadata l.branchMetadata) ++ l.segmentBytes) := by
  have hreserved : (l.mappingUpdates.foldl addUpdate {}).reserveLen =
      ⟨fixed 4 0 ++ l.mappingUpdates.flatMap updateBytes, true⟩ := by
    cases l.mappingUpdates with
    | nil => rfl
    | cons u us =>
      have hfirst : addUpdate {} u = ⟨fixed 4 0 ++ updateBytes u, true⟩ := rfl
      rw [foldl_cons, hfirst, foldl_addUpdate, flatMap_cons]
      rfl
  rw [Log.payload, appendBranchManifestMetadata, hreserved]
  dsimp only [appendSegmentMapping]
  rw [drop_left' (length_fixed 4 _), length_append, length_fixed, Nat.add_sub_cancel_left,
    Log.segmentBytes]
  cases l.segmentDeltas with
  | none => simp [prefixed]
  | some us => simp only [prefixed, append_assoc, elim_some]

/-- The record is shorter than `2 ^ 32` bytes. -/
def Fits (payload : Bytes) : Prop := headerBytes + payload.length < 2 ^ 32

instance (payload : Bytes) : Decidable (Fits payload) := inferInstanceAs (Decidable (_ < _))

/-- The sections of a log, as they are written. -/
def Log.sections (l : Log) : LogSections where
  mapping := l.mappingUpdates.flatMap updateBytes
  metadata := some (serializeBranchManifestMetadata l.branchMetadata)
  segment := l.segmentDeltas.map (·.flatMap updateBytes)

/-- **A log's payload is split where its sections were written.** -/
theorem logSections_payload {l : Log} (h : Fits l.payload) :
    logSections l.payload = some l.sections := by
  have hfits := h
  rw [Fits, headerBytes, l.payload_eq] at hfits
  simp only [length_append, length_prefixed] at hfits
  have hpos := serializeBranchManifestMetadata_pos l.branchMetadata
  rw [l.payload_eq, logSections, if_neg (by simp only [length_append, length_prefixed]; omega),
    ofFixed_take_prefixed (by omega), drop_prefixed]
  dsimp only
  rw [Nat.mod_eq_of_lt (by omega),
    if_neg (by simp only [length_append, length_prefixed]; omega),
    drop_left' (length_prefixed _), metadataSection_prefixed hpos (by omega)]
  unfold Log.sections
  cases hseg : l.segmentDeltas with
  | none => simp [Log.segmentBytes, hseg]
  | some us =>
    rw [Log.segmentBytes, hseg, elim_some] at hfits ⊢
    rw [length_prefixed] at hfits
    rw [if_neg (by rw [length_prefixed]; omega), last_section (by omega), take_left]
    rfl

/-- The sections of a snapshot, as they are written. -/
def Snapshot.sections (s : Snapshot) : SnapshotSections where
  maxFpId := s.maxFpId
  dictBytes := s.dictBytes
  mapping := serializeTable s.mapping
  metadata := some (serializeBranchManifestMetadata s.branchMetadata)
  segment := s.segment.map fun p ↦ (p.2, serializeTable p.1)

/-- The bytes of the segment section. -/
def Snapshot.segmentBytes (s : Snapshot) : Bytes :=
  match s.segment with
  | none => []
  | some (tbl, maxFp) => varint64 maxFp ++ prefixed (serializeTable tbl)

variable {s : Snapshot} {p : Progress}

theorem segmentSection_segmentBytes (h : s.segmentBytes.length < 2 ^ 32) :
    segmentSection s.segmentBytes = some (s.segment.map fun p ↦ (p.2, serializeTable p.1)) := by
  unfold Snapshot.segmentBytes at h ⊢
  split at h
  · next hnone =>
    rw [hnone]
    rfl
  · next tbl maxFp hsome =>
    rw [length_append, length_prefixed] at h
    have hlast : ¬(prefixed (serializeTable tbl)).length < 4 := by
      rw [length_prefixed]
      omega
    rw [hsome, segmentSection, if_neg (by simp only [length_append, length_prefixed]; omega),
      getVarint64_varint64, bind_some]
    dsimp only
    rw [if_neg hlast, last_section (by omega)]
    rfl

/-- **A snapshot's payload is split where its sections were written.** -/
theorem snapshotSections_payload (h : Fits s.payload) :
    snapshotSections s.payload = some s.sections := by
  have hbytes : s.payload = varint64 s.maxFpId ++
      (varint32 (UInt32.ofNat s.dictBytes.length) ++ (s.dictBytes ++
        (prefixed (serializeTable s.mapping) ++
          (prefixed (serializeBranchManifestMetadata s.branchMetadata) ++ s.segmentBytes)))) := rfl
  have hfits := h
  rw [Fits, headerBytes, hbytes] at hfits
  simp only [length_append, length_prefixed] at hfits
  have hpos := serializeBranchManifestMetadata_pos s.branchMetadata
  have hdict : (UInt32.ofNat s.dictBytes.length).toNat = s.dictBytes.length :=
    UInt32.toNat_ofNat_of_lt (show s.dictBytes.length < 2 ^ 32 by omega)
  rw [hbytes, snapshotSections, getVarint64_varint64, bind_some]
  dsimp only
  rw [getVarint32_varint32, bind_some]
  rw [hdict, if_neg (by simp only [length_append]; omega), take_left, drop_left,
    if_neg (not_length_prefixed_lt _ _), ofFixed_take_prefixed (by omega),
    if_neg (by simp only [length_append, length_prefixed]; omega), drop_prefixed,
    drop_left' (length_prefixed _), metadataSection_prefixed hpos (by omega)]
  rw [segmentSection_segmentBytes (by omega), map_some, take_left]
  rfl

/-! ### Records -/

section Records

variable (xxh3 : Bytes → UInt64) (root ttlRoot : UInt32) (payload : Bytes)

@[simp] theorem length_unpadded :
    (unpadded xxh3 root ttlRoot payload).length = headerBytes + payload.length := by
  simp only [unpadded, content, length_append, length_fixed, headerBytes]
  omega

@[simp] theorem length_finalize (stale : Bytes) :
    (finalize xxh3 root ttlRoot payload stale).length =
      headerBytes + payload.length + paddingBytes (headerBytes + payload.length) := by
  rw [finalize, length_append, length_unpadded, length_take, length_append,
    length_replicate, Nat.min_eq_left (Nat.le_add_left _ _)]

theorem validateChecksum_unpadded :
    validateChecksum xxh3 (unpadded xxh3 root ttlRoot payload) = true := by
  have hlt : (calcChecksum xxh3 (content root ttlRoot payload)).toNat < 256 ^ 8 :=
    UInt64.toNat_lt _
  rw [validateChecksum, unpadded, take_left' (length_fixed 8 _),
    drop_left' (length_fixed 8 _), ofFixed_fixed, Nat.mod_eq_of_lt hlt, beq_self_eq_true]

variable {payload}

/-- **A record in front**: it is found if its padding is there, and counted if it is not. -/
theorem parseNextRecord_unpadded (h : Fits payload) (tail : Bytes) :
    parseNextRecord xxh3 (unpadded xxh3 root ttlRoot payload ++ tail) =
      if tail.length < paddingBytes (headerBytes + payload.length) then
        .endOfFile (headerBytes + payload.length + paddingBytes (headerBytes + payload.length))
      else .record ⟨root, ttlRoot, payload⟩
        (headerBytes + payload.length + paddingBytes (headerBytes + payload.length))
        (tail.drop (paddingBytes (headerBytes + payload.length))) := by
  have hlen := length_unpadded xxh3 root ttlRoot payload
  have hfits : payload.length < 2 ^ 32 := by
    rw [Fits] at h
    omega
  -- the length of the payload stands at offset 16, the roots at 8 and 12
  have hat : ∀ tail' : Bytes, (unpadded xxh3 root ttlRoot payload ++ tail').drop 8 =
      fixed 4 root.toNat ++ (fixed 4 ttlRoot.toNat ++ (prefixed payload ++ tail')) := fun tail' ↦ by
    rw [unpadded, append_assoc, drop_left' (length_fixed 8 _), content]
    simp only [prefixed, append_assoc]
  have hat12 : ∀ tail' : Bytes, (unpadded xxh3 root ttlRoot payload ++ tail').drop 12 =
      fixed 4 ttlRoot.toNat ++ (prefixed payload ++ tail') := fun tail' ↦ by
    rw [show 12 = 8 + 4 from rfl, ← drop_drop, hat, drop_left' (length_fixed 4 _)]
  have hat16 : ∀ tail' : Bytes, (unpadded xxh3 root ttlRoot payload ++ tail').drop 16 =
      prefixed payload ++ tail' := fun tail' ↦ by
    rw [show 16 = 12 + 4 from rfl, ← drop_drop, hat12, drop_left' (length_fixed 4 _)]
  have hat20 : (unpadded xxh3 root ttlRoot payload).drop headerBytes = payload := by
    have hdrop := hat16 []
    have hpayload := drop_prefixed payload []
    simp only [append_nil] at hdrop hpayload
    rw [show headerBytes = 16 + 4 from rfl, ← drop_drop, hdrop, hpayload]
  have hroot : UInt32.ofNat (ofFixed (((unpadded xxh3 root ttlRoot payload).drop 8).take 4)) =
      root := by
    have hdrop := hat []
    rw [append_nil] at hdrop
    rw [hdrop, ofFixed_take_fixed32]
  have httl : UInt32.ofNat (ofFixed (((unpadded xxh3 root ttlRoot payload).drop 12).take 4)) =
      ttlRoot := by
    have hdrop := hat12 []
    rw [append_nil] at hdrop
    rw [hdrop, ofFixed_take_fixed32]
  rw [parseNextRecord, if_neg (by rw [length_append, hlen]; omega), hat16,
    ofFixed_take_prefixed hfits]
  dsimp only
  rw [if_neg (by rw [length_append, hlen]; omega), take_left' hlen,
    validateChecksum_unpadded, Bool.not_true, if_neg (by simp), hroot, httl, hat20,
    Nat.mod_eq_of_lt h, length_append, hlen, drop_append, hlen,
    drop_eq_nil_of_le (by rw [hlen]; omega), nil_append, Nat.add_sub_cancel_left]
  split
  · next hshort => rw [if_pos (by omega)]
  · next hlong => rw [if_neg (by omega)]

/-- A finalized record is found, and what follows it is left. -/
theorem parseNextRecord_finalize (h : Fits payload) (stale rest : Bytes) :
    parseNextRecord xxh3 (finalize xxh3 root ttlRoot payload stale ++ rest) =
      .record ⟨root, ttlRoot, payload⟩ (finalize xxh3 root ttlRoot payload stale).length rest := by
  have hpad : ((stale ++ replicate (paddingBytes (headerBytes + payload.length)) 0).take
      (paddingBytes (headerBytes + payload.length))).length =
        paddingBytes (headerBytes + payload.length) := by
    rw [length_take, length_append, length_replicate,
      Nat.min_eq_left (Nat.le_add_left _ _)]
  rw [length_finalize, finalize, append_assoc, parseNextRecord_unpadded xxh3 root ttlRoot h,
    if_neg (by rw [length_append, hpad]; omega), drop_left' hpad]

end Records

/-! ### The loop -/

section Loop

variable {xxh3 : Bytes → UInt64}

theorem length_rest_lt {file rest : Bytes} {size : ℕ}
    (h : parseNextRecord xxh3 file = .corrupted size rest ∨
      ∃ r, parseNextRecord xxh3 file = .record r size rest) : rest.length < file.length := by
  unfold parseNextRecord at h
  split at h
  · simp at h
  · next hlen =>
    have hheader : 0 < headerBytes := by decide
    dsimp only at h
    split at h
    · simp at h
    · split at h
      · obtain ⟨-, rfl⟩ : _ ∧ _ = rest := by simpa using h
        rw [length_drop]
        omega
      · split at h
        · simp at h
        · obtain ⟨-, rfl⟩ : _ ∧ _ = rest := by simpa using h
          rw [length_drop]
          omega

/-- The bound on the number of records does not matter, once it is no less than the length. -/
theorem replayLogs_stable {k k' : ℕ} {file : Bytes} (hk : file.length ≤ k)
    (hk' : file.length ≤ k') : replayLogs xxh3 k p file = replayLogs xxh3 k' p file := by
  -- with no step left the file is empty, and one step finds its end
  have hempty : ∀ j p, replayLogs xxh3 j p [] = .ok p := by
    intro j p
    cases j <;> rfl
  induction k generalizing k' p file with
  | zero =>
    obtain rfl : file = [] := length_eq_zero_iff.1 (by omega)
    rw [hempty, hempty]
  | succ k ih =>
    cases k' with
    | zero =>
      obtain rfl : file = [] := length_eq_zero_iff.1 (by omega)
      rw [hempty, hempty]
    | succ k' =>
      rw [replayLogs, replayLogs]
      cases hparse : parseNextRecord xxh3 file with
      | endOfFile size => rfl
      | corrupted size rest =>
        have hlt := length_rest_lt (.inl hparse)
        exact ih (by omega) (by omega)
      | record r size rest =>
        have hlt := length_rest_lt (.inr ⟨r, hparse⟩)
        dsimp only
        split
        · rfl
        · split
          · rfl
          · exact ih (by omega) (by omega)

/-- **One step of the loop**: a record that is found and can be read is applied. -/
theorem replayLogs_record {k : ℕ} {file rest : Bytes} {r : Record} {size : ℕ} {state : Replayer}
    (hk : file.length ≤ k) (hparse : parseNextRecord xxh3 file = .record r size rest)
    (hp : p.corruptedAt = none) (hread : replayLog p.state r = some state) :
    replayLogs xxh3 k p file = replayLogs xxh3 rest.length
      ⟨state, p.fileSize + size, none, p.applied ++ [r]⟩ rest := by
  have hlt := length_rest_lt (.inr ⟨r, hparse⟩)
  cases k with
  | zero => exact absurd hlt (by omega)
  | succ k =>
    rw [replayLogs, hparse]
    dsimp only
    rw [hp, if_neg (by simp), hread]
    exact replayLogs_stable (by omega) le_rfl

end Loop

/-! ### The fold -/

/-- The state a snapshot describes. -/
def Snapshot.state (s : Snapshot) : Replayer where
  root := s.rootId
  ttlRoot := s.ttlRoot
  mappingTbl := s.mapping.map serialized
  maxFpId := s.maxFpId
  segmentMappingTbl := (s.segment.map fun p ↦ p.1.map serialized).getD []
  maxSegmentFpId := (s.segment.map (·.2)).getD 0
  dictBytes := s.dictBytes
  branchMetadata := s.branchMetadata

def Replayer.apply (st : Replayer) (l : Log) : Replayer :=
  let data := (l.mappingUpdates.map pair).foldl applyUpdate
    (st.mappingTbl, st.maxFpId)
  let segment := ((l.segmentDeltas.getD []).map pair).foldl applyUpdate
    (st.segmentMappingTbl, st.maxSegmentFpId)
  { st with
    root := l.root
    ttlRoot := l.ttlRoot
    mappingTbl := data.1
    maxFpId := data.2
    segmentMappingTbl := segment.1
    maxSegmentFpId := segment.2
    branchMetadata := l.branchMetadata }

def Log.record (l : Log) : Record := ⟨l.root, l.ttlRoot, l.payload⟩

/-- The bytes of a log, with what the buffer held before. -/
def logBytes (xxh3 : Bytes → UInt64) (l : Log × Bytes) : Bytes :=
  finalize xxh3 l.1.root l.1.ttlRoot l.1.payload l.2

/-- The bytes of a snapshot followed by logs, each with what the buffer held before. -/
def manifestBytes (xxh3 : Bytes → UInt64) (s : Snapshot) (stale : Bytes)
    (logs : List (Log × Bytes)) : Bytes :=
  finalize xxh3 s.rootId s.ttlRoot s.payload stale ++ logs.flatMap (logBytes xxh3)

theorem deserializeSnapshot_payload (h : Fits s.payload) :
    deserializeSnapshot ⟨s.rootId, s.ttlRoot, s.payload⟩ = some s.state := by
  have hmeta : (serializeBranchManifestMetadata s.branchMetadata).length < 2 ^ 32 := by
    rw [Fits, headerBytes, Snapshot.payload] at h
    simp only [length_append, length_prefixed] at h
    omega
  rw [deserializeSnapshot, snapshotSections_payload h, bind_some, Snapshot.sections,
    readTable_serializeTable, bind_some, readMetadata,
    deserialize_serializeBranchManifestMetadata hmeta, bind_some]
  unfold Snapshot.state
  cases s.segment with
  | none => rfl
  | some p =>
    dsimp only [map_some]
    rw [readTable_serializeTable]
    rfl

theorem replayLog_payload (st : Replayer) {l : Log} (h : Fits l.payload) :
    replayLog st l.record = some (st.apply l) := by
  have hmeta : (serializeBranchManifestMetadata l.branchMetadata).length < 2 ^ 32 := by
    rw [Fits, headerBytes, l.payload_eq] at h
    simp only [length_append, length_prefixed] at h
    omega
  rw [replayLog, Log.record, logSections_payload h, bind_some, Log.sections,
    readUpdates_flatMap, bind_some, readMetadata,
    deserialize_serializeBranchManifestMetadata hmeta, bind_some]
  unfold Replayer.apply
  cases l.segmentDeltas with
  | none => rfl
  | some us =>
    dsimp only [map_some, getD_some]
    rw [readUpdates_flatMap, map_some]

/-- The logs of a file are applied, and the replay goes on with what follows them. -/
theorem replayLogs_append {xxh3 : Bytes → UInt64} {logs : List (Log × Bytes)}
    (h : ∀ l ∈ logs, Fits l.1.payload) {k : ℕ} (hp : p.corruptedAt = none) {rest : Bytes}
    (hk : (logs.flatMap (logBytes xxh3) ++ rest).length ≤ k) :
    replayLogs xxh3 k p (logs.flatMap (logBytes xxh3) ++ rest) =
      replayLogs xxh3 rest.length ⟨(logs.map (·.1)).foldl Replayer.apply p.state,
        p.fileSize + (logs.flatMap (logBytes xxh3)).length, none,
        p.applied ++ logs.map (·.1.record)⟩ rest := by
  induction logs generalizing k p with
  | nil =>
    obtain ⟨state, size, corruptedAt, applied⟩ := p
    obtain rfl : corruptedAt = none := hp
    rw [flatMap_nil, nil_append] at hk ⊢
    rw [map_nil, map_nil, append_nil, length_nil, Nat.add_zero]
    exact replayLogs_stable hk le_rfl
  | cons l logs ih =>
    have hl := h l mem_cons_self
    rw [flatMap_cons, append_assoc] at hk ⊢
    rw [replayLogs_record hk (parseNextRecord_finalize xxh3 l.1.root l.1.ttlRoot hl l.2 _) hp
        (replayLog_payload p.state hl),
      ih (fun l' hl' ↦ h l' (mem_cons_of_mem _ hl')) rfl (le_rfl)]
    simp only [map_cons, foldl_cons, length_append, append_assoc,
      singleton_append, Nat.add_assoc]
    rfl

/-- A file that starts with a snapshot that was written. -/
theorem replay_finalize (xxh3 : Bytes → UInt64) (hs : Fits s.payload) (stale rest : Bytes) :
    replay xxh3 (finalize xxh3 s.rootId s.ttlRoot s.payload stale ++ rest) =
      replayLogs xxh3 rest.length
        ⟨s.state, (finalize xxh3 s.rootId s.ttlRoot s.payload stale).length, none, []⟩ rest := by
  rw [replay, parseNextRecord_finalize xxh3 s.rootId s.ttlRoot hs]
  dsimp only
  rw [deserializeSnapshot_payload hs]

/-- **A manifest reads back as what was written.** If each record is shorter than `2 ^ 32` bytes,
the replay succeeds with the fold of the logs' changes over the snapshot, at the end of the file,
and every payload is split into the sections that were written. -/
theorem replay_manifestBytes (xxh3 : Bytes → UInt64) (s : Snapshot) (stale : Bytes)
    (logs : List (Log × Bytes)) (hs : Fits s.payload) (hlogs : ∀ l ∈ logs, Fits l.1.payload) :
    (∃ p, replay xxh3 (manifestBytes xxh3 s stale logs) = .ok p ∧
      p.state = (logs.map (·.1)).foldl Replayer.apply s.state ∧
      p.reportedSize = (manifestBytes xxh3 s stale logs).length) ∧
    snapshotSections s.payload = some s.sections ∧
    ∀ l ∈ logs, logSections l.1.payload = some l.1.sections := by
  refine ⟨?_, snapshotSections_payload hs, fun l hl ↦ logSections_payload (hlogs l hl)⟩
  rw [manifestBytes, replay_finalize xxh3 hs, ← append_nil (logs.flatMap _),
    replayLogs_append hlogs rfl le_rfl, append_nil]
  exact ⟨_, rfl, rfl, by rw [length_append]; rfl⟩

/-- A free entry, a cached page and a segment table, then a log that moves a page and deletes a
segment. -/
def sampleSnapshot : Snapshot where
  rootId := 0
  ttlRoot := 4294967295
  mapping := [.swizzlingPointer 5, .word 7 (by decide), .word 10 (by decide)]
  maxFpId := 6
  dictBytes := [1, 2, 3]
  branchMetadata := ⟨[109, 97, 105, 110], 1, [⟨[109, 97, 105, 110], 1, 0, 0⟩]⟩
  segment := some ([.word 1 (by decide)], 1)

def sampleLog : Log where
  root := 0
  ttlRoot := 4294967295
  mappingUpdates := [.update 0 6, .update 4 7]
  branchMetadata := ⟨[109, 97, 105, 110], 1, [⟨[109, 97, 105, 110], 1, 1, 0⟩]⟩
  segmentDeltas := some [.delete 0]

/-- The page moves, the table grows, and the segment goes, whatever the hash. -/
theorem replay_sample : ∃ logs, logs = [(sampleLog, ([] : Bytes))] ∧
    ∀ xxh3 : Bytes → UInt64, ∃ p,
      replay xxh3 (manifestBytes xxh3 sampleSnapshot [] logs) = .ok p ∧
        p.state.mappingTbl = [49, 7, 10, 7, 57] ∧ p.state.maxFpId = 8 ∧
        p.state.segmentMappingTbl = [7] := by
  refine ⟨_, rfl, fun xxh3 ↦ ?_⟩
  obtain ⟨⟨p, hp, hstate, -⟩, -⟩ := replay_manifestBytes xxh3 sampleSnapshot []
    [(sampleLog, [])] (by decide) (by decide)
  exact ⟨p, hp, by rw [hstate]; decide, by rw [hstate]; decide, by rw [hstate]; decide⟩

/-- A mapping section that is found is shorter than `2 ^ 32` bytes. -/
theorem length_mapping_lt {payload : Bytes} {sec : SnapshotSections}
    (h : snapshotSections payload = some sec) : sec.mapping.length < 2 ^ 32 := by
  obtain ⟨⟨maxFpId, input⟩, -, h⟩ := bind_eq_some_iff.1 h
  obtain ⟨⟨dictLen, snapshot⟩, -, h⟩ := bind_eq_some_iff.1 h
  obtain ⟨-, h⟩ := ite_none_left_eq_some.1 h
  obtain ⟨-, h⟩ := ite_none_left_eq_some.1 h
  obtain ⟨-, h⟩ := ite_none_left_eq_some.1 h
  obtain ⟨-, -, rfl⟩ := map_eq_some_iff.1 h
  refine (length_take_le _ _).trans_lt (Nat.lt_of_lt_of_le (ofFixed_lt _) ?_)
  exact Nat.pow_le_pow_right (by omega) (length_take_le 4 _)

/-- **A table of 4 GiB of varints is not read back** from any record. -/
theorem deserializeSnapshot_ne {r : Record} (hlong : 2 ^ 32 ≤ (serializeTable s.mapping).length) :
    deserializeSnapshot r ≠ some s.state := by
  intro h
  obtain ⟨sec, hsec, h⟩ := bind_eq_some_iff.1 h
  obtain ⟨tbl, htbl, h⟩ := bind_eq_some_iff.1 h
  obtain ⟨metadata, -, h⟩ := bind_eq_some_iff.1 h
  obtain ⟨segment, -, h⟩ := map_eq_some_iff.1 h
  have hwords : tbl = s.mapping.map serialized := congrArg Replayer.mappingTbl h
  have hle : (tbl.flatMap varint64).length ≤ sec.mapping.length := by
    refine length_flatMap_le_of_readAll (fun {bytes a rest} hread ↦ ?_) htbl
    obtain ⟨⟨v, rest'⟩, hv, heq⟩ := map_eq_some_iff.1 hread
    cases heq
    refine length_varint_le_of_readVarint hv ?_
    rw [UInt64.toNat_ofNat']
    exact Nat.mod_le _ _
  rw [hwords, flatMap_map] at hle
  exact absurd (hle.trans_lt (length_mapping_lt hsec)) (Nat.not_lt_of_le hlong)

theorem toNat_encodeFilePageId (fp : UInt64) :
    (encodeFilePageId fp).toNat = fp.toNat * 8 % 2 ^ 64 + 1 := by
  have hshift : (fp <<< 3).toNat = fp.toNat * 8 % 2 ^ 64 := by
    rw [UInt64.toNat_shiftLeft]
    simp [Nat.shiftLeft_eq]
  have hlow : fp.toNat * 8 % 2 ^ 64 = 2 ^ 3 * (fp.toNat % 2 ^ 61) := by omega
  rw [encodeFilePageId, UInt64.toNat_or, hshift, hlow]
  exact (Nat.two_pow_add_eq_or_of_lt (b := 1) (by omega) _).symm

theorem valType_encodeFilePageId (fp : UInt64) : valType (encodeFilePageId fp) ≠ 0 := by
  intro h
  have hmod : (encodeFilePageId fp).toNat &&& 7 = 0 := by
    rw [← UInt64.toNat_zero, ← h, valType, UInt64.toNat_and]
    rfl
  rw [toNat_encodeFilePageId, show 7 = 2 ^ 3 - 1 by rfl, Nat.and_two_pow_sub_one_eq_mod] at hmod
  omega

/-- A table of mapped pages, from file page `2 ^ 18` on. -/
def pagesTable (n : ℕ) : List TableEntry :=
  (List.range n).map fun i ↦
    .word (encodeFilePageId (UInt64.ofNat (2 ^ 18 + i))) (valType_encodeFilePageId _)

/-- Each of its words takes four bytes at least. -/
theorem length_pagesTable {n : ℕ} (hn : n ≤ 2 ^ 60) :
    n * 4 ≤ (serializeTable (pagesTable n)).length := by
  have hentry : ∀ i ∈ List.range n,
      4 ≤ (varint64 (encodeFilePageId (UInt64.ofNat (2 ^ 18 + i)))).length := by
    intro i hi
    have hi := mem_range.1 hi
    refine le_length_varint (n := 3) (by omega) ?_
    rw [toNat_encodeFilePageId, UInt64.toNat_ofNat']
    omega
  have hsum := card_nsmul_le_sum ((List.range n).map fun i ↦
    (varint64 (encodeFilePageId (UInt64.ofNat (2 ^ 18 + i)))).length) 4 fun x hx ↦ by
      obtain ⟨i, hi, rfl⟩ := List.mem_map.1 hx
      exact hentry i hi
  rw [length_map, length_range, nsmul_eq_mul] at hsum
  rwa [serializeTable, pagesTable, flatMap_map, length_flatMap]

/-- **A table of `2 ^ 30` pages is lost**, whatever the hash and the padding: the length of its
bytes is written in 32 bits, so the record is not split where it was written, and what is read is
not the snapshot's state. -/
theorem replay_loses_mapping : ∃ s : Snapshot, s.mapping.length = 2 ^ 30 ∧
    ∀ (xxh3 : Bytes → UInt64) (stale : Bytes) (r : Record) (size : ℕ) (rest : Bytes),
      parseNextRecord xxh3 (manifestBytes xxh3 s stale []) = .record r size rest →
        snapshotSections r.payload ≠ some s.sections ∧ deserializeSnapshot r ≠ some s.state := by
  obtain ⟨n, hn⟩ : ∃ n, n = 2 ^ 30 := ⟨_, rfl⟩
  have hlong : 2 ^ 32 ≤ (serializeTable (pagesTable n)).length := by
    have hle := length_pagesTable (n := n) (by omega)
    omega
  refine ⟨{ sampleSnapshot with mapping := pagesTable n, maxFpId := 2 ^ 18 + 2 ^ 30 }, ?_,
    fun xxh3 stale r size rest _ ↦ ⟨fun h ↦ ?_, deserializeSnapshot_ne hlong⟩⟩
  · rw [← hn, pagesTable, length_map, length_range]
  · exact absurd (length_mapping_lt h) (Nat.not_lt_of_le hlong)

end EloqStore.Wire
