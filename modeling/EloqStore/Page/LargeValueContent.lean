import EloqStore.Foundation.ByteCodec

/-!
# What a page keeps of a large value

A large value is written to segments, and the page keeps its length, the ids of its segments and its
metadata. The length shares a word of 32 bits with the flag for metadata, the length of the metadata
is kept in 16 bits, and neither is checked when the value is written. The number of segments is not
kept: the reader computes it from the length, in 32 bits, while the writer takes one segment for
each fragment it is given.

What was written is read back exactly when all of this fits (`SegmentWriter.decode_write_iff`).
-/

namespace EloqStore

open List Option

open ByteCodec

/-! ### Encoding and decoding -/

def encodeLargeValueContent (actualLength : ℕ) (ids : List ℕ) (metadata : List UInt8) :
    List UInt8 :=
  fixed 4 (if metadata = [] then actualLength else actualLength ||| 2 ^ 31) ++
    (ids.flatMap (fixed 4) ++
      if metadata = [] then [] else fixed 2 metadata.length ++ metadata)

/-- `LargeValueHeader`. -/
structure LargeValueHeader where
  actualLength : ℕ
  numSegments : ℕ
  metadataLength : ℕ
deriving DecidableEq, Repr

def decodeLargeValueHeader (encoded : List UInt8) (segmentSize : ℕ) : Option LargeValueHeader :=
  if encoded.length < 4 then none
  else
    let word0 := ofFixed (encoded.take 4)
    let actualLength := word0 % 2 ^ 31
    let numSegments := (actualLength + segmentSize - 1) % 2 ^ 32 / segmentSize
    let segmentsEnd := 4 + 4 * numSegments
    if word0 < 2 ^ 31 then
      if encoded.length = segmentsEnd then some ⟨actualLength, numSegments, 0⟩ else none
    else if encoded.length < segmentsEnd + 2 then none
    else
      let metadataLength := ofFixed ((encoded.drop segmentsEnd).take 2)
      if encoded.length = segmentsEnd + 2 + metadataLength then
        some ⟨actualLength, numSegments, metadataLength⟩
      else none

def decodeIds : ℕ → List UInt8 → List ℕ
  | 0, _ => []
  | n + 1, bytes => ofFixed (bytes.take 4) :: decodeIds n (bytes.drop 4)

/-- `DecodeLargeValueContent`: the ids and the metadata. -/
def decodeLargeValueContent (encoded : List UInt8) (header : LargeValueHeader) :
    List ℕ × List UInt8 :=
  (decodeIds header.numSegments (encoded.drop 4),
    if header.metadataLength > 0 then
      (encoded.drop (4 + 4 * header.numSegments + 2)).take header.metadataLength
    else [])

/-- The length, the ids and the metadata that a reader finds. -/
def decodeLargeValue (segmentSize : ℕ) (encoded : List UInt8) :
    Option (ℕ × List ℕ × List UInt8) :=
  (decodeLargeValueHeader encoded segmentSize).map fun header ↦
    (header.actualLength, decodeLargeValueContent encoded header)

/-- The segments that hold a value. -/
def segmentsOf (size segmentSize : ℕ) : ℕ := (size + segmentSize - 1) / segmentSize

/-- The size is what the length, the flag and the length of the metadata say. -/
def SizeMatches (segmentSize : ℕ) (encoded : List UInt8) : Prop :=
  let word0 := ofFixed (encoded.take 4)
  let segmentsEnd := 4 + 4 * segmentsOf (word0 % 2 ^ 31) segmentSize
  4 ≤ encoded.length ∧
    if word0 < 2 ^ 31 then encoded.length = segmentsEnd
    else segmentsEnd + 2 ≤ encoded.length ∧
      encoded.length = segmentsEnd + 2 + ofFixed ((encoded.drop segmentsEnd).take 2)

/-! ### Writing -/

/-- `large_val_` of a change. -/
inductive LargeSource
  /-- An `IoStringBuffer` of some size, with its fragments. -/
  | fragments (size count : ℕ)
  | pinned (base size : ℕ)
deriving DecidableEq, Repr

def LargeSource.size : LargeSource → ℕ
  | .fragments size _ => size
  | .pinned _ size => size

/-- What a write of a large value depends on. -/
structure SegmentWriter where
  segmentSize : ℕ
  /-- The pinned chunks, each with its size. -/
  chunks : List (ℕ × ℕ)
  tailScratch : Bool
  allocateSegment : ℕ → UInt32
  /-- Whether a batch of segments is written. -/
  writeSegments : ℕ → Bool

namespace SegmentWriter

variable (w : SegmentWriter)

def numSegments : LargeSource → ℕ
  | .fragments _ count => count % 2 ^ 32
  | .pinned _ size => segmentsOf size w.segmentSize % 2 ^ 32

def pinnedChunkFor (p : ℕ) : Option (ℕ × ℕ) :=
  w.chunks.find? fun chunk ↦ decide (chunk.1 ≤ p ∧ p < chunk.1 + chunk.2)

def accepts : LargeSource → Bool
  | .fragments _ _ => true
  | .pinned base size => (w.pinnedChunkFor base).any fun chunk ↦
      decide (base + size ≤ chunk.1 + chunk.2) &&
        (decide (base + w.numSegments (.pinned base size) * w.segmentSize ≤ chunk.1 + chunk.2) ||
          w.tailScratch)

def ids (n : ℕ) : List ℕ := (List.range n).map fun i ↦ (w.allocateSegment i).toNat

/-- `WriteLargeValue`, with the batches of `WriteLargeValueSegments`; `none` is an error. -/
def writeLargeValue (v : LargeSource) (metadata : List UInt8) : Option (List UInt8) :=
  let n := w.numSegments v
  if w.accepts v ∧ (List.range ((n + 7) / 8)).all w.writeSegments then
    some (encodeLargeValueContent (v.size % 2 ^ 32) (w.ids n) metadata)
  else none

/-- The parts fit the places they are kept in, and there is a fragment for every segment. -/
def Fits (v : LargeSource) (metadata : List UInt8) : Prop :=
  v.size < 2 ^ 31 ∧ metadata.length < 2 ^ 16 ∧ v.size + w.segmentSize ≤ 2 ^ 32 ∧
    match v with
    | .fragments size count => count % 2 ^ 32 = segmentsOf size w.segmentSize
    | .pinned _ _ => True

end SegmentWriter

/-! ### What decoding certifies -/

theorem length_decodeIds (n : ℕ) (bytes : List UInt8) : (decodeIds n bytes).length = n := by
  induction n generalizing bytes with
  | zero => rfl
  | succ n ih => rw [decodeIds, length_cons, ih]

theorem decodeIds_flatMap {ids : List ℕ} (hids : ∀ id ∈ ids, id < 2 ^ 32) (rest : List UInt8) :
    decodeIds ids.length (ids.flatMap (fixed 4) ++ rest) = ids := by
  induction ids with
  | nil => rfl
  | cons id ids ih =>
    obtain ⟨hid, hids⟩ := forall_mem_cons.1 hids
    rw [flatMap_cons, append_assoc, length_cons, decodeIds,
      take_left' (length_fixed 4 id), drop_left' (length_fixed 4 id), ofFixed_fixed,
      Nat.mod_eq_of_lt (show id < 256 ^ 4 from hid), ih hids]

variable {segmentSize size : ℕ} {encoded metadata : List UInt8} {ids : List ℕ}

/-- The header of an accepted string, and its size. -/
theorem of_decodeLargeValueHeader {header : LargeValueHeader}
    (h : decodeLargeValueHeader encoded segmentSize = some header) :
    header.actualLength < 2 ^ 31 ∧ header.metadataLength < 2 ^ 16 ∧
      header.numSegments = (header.actualLength + segmentSize - 1) % 2 ^ 32 / segmentSize := by
  rw [decodeLargeValueHeader, ite_none_left_eq_some] at h
  obtain ⟨-, h⟩ := h
  dsimp only at h
  split at h
  · obtain ⟨-, rfl⟩ := ite_some_none_eq_some.1 h
    exact ⟨Nat.mod_lt _ (by decide), Nat.two_pow_pos 16, rfl⟩
  · rw [ite_none_left_eq_some, ite_none_right_eq_some] at h
    obtain ⟨-, -, h⟩ := h
    cases h
    refine ⟨Nat.mod_lt _ (by decide), ?_, rfl⟩
    exact Nat.lt_of_lt_of_le (ofFixed_lt _)
      (Nat.pow_le_pow_right (n := 256) (j := 2) (by decide) (length_take_le 2 _))

theorem of_decodeLargeValue
    (h : decodeLargeValue segmentSize encoded = some (size, ids, metadata)) :
    size < 2 ^ 31 ∧ metadata.length < 2 ^ 16 ∧
      ids.length = (size + segmentSize - 1) % 2 ^ 32 / segmentSize := by
  obtain ⟨header, hheader, heq⟩ := map_eq_some_iff.1 h
  obtain ⟨hsize, hmeta, hnum⟩ := of_decodeLargeValueHeader hheader
  cases heq
  refine ⟨hsize, Nat.lt_of_le_of_lt ?_ hmeta, (length_decodeIds _ _).trans hnum⟩
  by_cases hpos : header.metadataLength > 0
  · rw [if_pos hpos]
    exact length_take_le _ _
  · rw [if_neg hpos]
    exact Nat.zero_le _

/-- Without a sum of more than 32 bits, only strings of the right size are accepted. -/
theorem decodeLargeValueHeader_eq_none (hle : segmentSize ≤ 2 ^ 31 + 1)
    (h : ¬ SizeMatches segmentSize encoded) :
    decodeLargeValueHeader encoded segmentSize = none := by
  have hsum : (ofFixed (encoded.take 4) % 2 ^ 31 + segmentSize - 1) % 2 ^ 32 =
      ofFixed (encoded.take 4) % 2 ^ 31 + segmentSize - 1 := Nat.mod_eq_of_lt (by omega)
  rw [SizeMatches] at h
  rw [decodeLargeValueHeader]
  dsimp only at h ⊢
  unfold segmentsOf at h
  grind

/-- A sum of more than 32 bits makes the reader look for no segment where there is one. -/
theorem segments_of_wrapped (hlt : segmentSize < 2 ^ 32) (hsize : size < 2 ^ 31)
    (hgt : 2 ^ 32 < size + segmentSize) :
    segmentsOf size segmentSize = 1 ∧ (size + segmentSize - 1) % 2 ^ 32 / segmentSize = 0 :=
  ⟨Nat.div_eq_of_lt_le (by omega) (by omega), Nat.div_eq_of_lt (by omega)⟩

theorem wrapped_accepted (hlt : segmentSize < 2 ^ 32) (hgt : 2 ^ 31 + 1 < segmentSize) :
    ¬ SizeMatches segmentSize (fixed 4 (2 ^ 31 - 1)) ∧
      ∃ header, decodeLargeValueHeader (fixed 4 (2 ^ 31 - 1)) segmentSize = some header := by
  have hword : ofFixed ((fixed 4 (2 ^ 31 - 1)).take 4) = 2 ^ 31 - 1 := by decide
  have hmod : (2 ^ 31 - 1) % 2 ^ 31 = 2 ^ 31 - 1 := rfl
  obtain ⟨hone, hzero⟩ :=
    segments_of_wrapped hlt (show 2 ^ 31 - 1 < 2 ^ 31 by decide) (by omega)
  rw [SizeMatches, decodeLargeValueHeader]
  simp only [hword, hmod, hone, hzero]
  exact ⟨by decide, _, rfl⟩

/-! ### The round trip -/

theorem ofFixed_word (hsize : size < 2 ^ 31) (rest : List UInt8) :
    ofFixed ((fixed 4 (if metadata = [] then size else size ||| 2 ^ 31) ++ rest).take 4) =
      if metadata = [] then size else size + 2 ^ 31 := by
  have hor : size ||| 2 ^ 31 = size + 2 ^ 31 := by
    have h := Nat.two_pow_add_eq_or_of_lt hsize 1
    rw [Nat.mul_one] at h
    rw [Nat.or_comm, ← h, Nat.add_comm]
  rw [take_left' (length_fixed 4 _), ofFixed_fixed, hor]
  exact Nat.mod_eq_of_lt (by split <;> omega)

theorem decodeLargeValueHeader_encode (hsize : size < 2 ^ 31) (hmeta : metadata.length < 2 ^ 16)
    (hsum : size + segmentSize ≤ 2 ^ 32) (hlen : ids.length = segmentsOf size segmentSize) :
    decodeLargeValueHeader (encodeLargeValueContent size ids metadata) segmentSize =
      some ⟨size, ids.length, metadata.length⟩ := by
  have hnum : (size + segmentSize - 1) % 2 ^ 32 / segmentSize = ids.length := by
    rw [hlen, segmentsOf, Nat.mod_eq_of_lt (by omega)]
  have hflat := length_flatMap_fixed 4 ids
  rw [decodeLargeValueHeader, encodeLargeValueContent, ofFixed_word hsize]
  by_cases hnil : metadata = []
  · have hlength : (fixed 4 size ++ (ids.flatMap (fixed 4) ++ [])).length = 4 + 4 * ids.length := by
      simp [hflat]
    simp only [if_pos hnil]
    rw [hlength, if_neg (by omega), if_pos hsize, Nat.mod_eq_of_lt hsize, hnum, if_pos rfl, hnil]
    rfl
  · have hmod : (size + 2 ^ 31) % 2 ^ 31 = size := by
      rw [Nat.add_mod_right, Nat.mod_eq_of_lt hsize]
    have htrailer : ofFixed (((fixed 4 (size ||| 2 ^ 31) ++ (ids.flatMap (fixed 4) ++
        (fixed 2 metadata.length ++ metadata))).drop (4 + 4 * ids.length)).take 2) =
        metadata.length := by
      rw [← append_assoc, drop_left' (by simp [hflat]),
        take_left' (length_fixed 2 _), ofFixed_fixed]
      exact Nat.mod_eq_of_lt hmeta
    simp only [if_neg hnil, hmod, hnum, htrailer]
    rw [if_neg (by simp), if_neg (by omega), if_neg, if_pos]
    · simp [hflat]
      omega
    · simp [hflat]
      omega

theorem decode_encode (hids : ∀ id ∈ ids, id < 2 ^ 32) (hsize : size < 2 ^ 31)
    (hmeta : metadata.length < 2 ^ 16) (hsum : size + segmentSize ≤ 2 ^ 32)
    (hlen : ids.length = segmentsOf size segmentSize) :
    decodeLargeValue segmentSize (encodeLargeValueContent size ids metadata) =
      some (size, ids, metadata) := by
  have hflat := length_flatMap_fixed 4 ids
  rw [decodeLargeValue, decodeLargeValueHeader_encode hsize hmeta hsum hlen, map_some,
    decodeLargeValueContent, encodeLargeValueContent, drop_left' (length_fixed 4 _),
    decodeIds_flatMap hids]
  by_cases hnil : metadata = []
  · subst hnil
    rfl
  · have hmetadata : (fixed 4 (size ||| 2 ^ 31) ++ (ids.flatMap (fixed 4) ++
        (fixed 2 metadata.length ++ metadata))).drop (4 + 4 * ids.length + 2) = metadata := by
      rw [← append_assoc, ← append_assoc,
        drop_left' (by simp [hflat, Nat.add_assoc])]
    simp only [if_neg hnil, if_pos (length_pos_iff.2 hnil), hmetadata, take_length]

namespace SegmentWriter

variable {w : SegmentWriter} {v : LargeSource} {content : List UInt8}

@[simp] theorem length_ids (n : ℕ) : (w.ids n).length = n := by simp [ids]

theorem ids_lt (n : ℕ) : ∀ id ∈ w.ids n, id < 2 ^ 32 := by
  intro id hid
  obtain ⟨i, -, rfl⟩ := mem_map.1 hid
  exact (w.allocateSegment i).toNat_lt

theorem eq_of_writeLargeValue (h : w.writeLargeValue v metadata = some content) :
    content = encodeLargeValueContent (v.size % 2 ^ 32) (w.ids (w.numSegments v)) metadata :=
  (some.inj (ite_none_right_eq_some.1 h).2).symm

theorem numSegments_of_fits (h : w.Fits v metadata) :
    w.numSegments v = segmentsOf v.size w.segmentSize := by
  obtain ⟨-, -, hsum, hv⟩ := h
  cases v with
  | fragments size count => exact hv
  | pinned base size =>
    have hle := Nat.div_le_self (size + w.segmentSize - 1) w.segmentSize
    change size + w.segmentSize ≤ 2 ^ 32 at hsum
    exact Nat.mod_eq_of_lt (hle.trans_lt (by omega))

/-- **A large value is read back exactly when it fits**, and strings of a wrong size are rejected
exactly when no sum of a length and the segment size takes more than 32 bits. -/
theorem decode_write_iff (w : SegmentWriter) (hlt : w.segmentSize < 2 ^ 32) :
    (∀ v metadata content, w.writeLargeValue v metadata = some content →
      ((decodeLargeValue w.segmentSize content =
            some (v.size, w.ids (w.numSegments v), metadata) ∧
          w.numSegments v = segmentsOf v.size w.segmentSize) ↔ w.Fits v metadata)) ∧
    ((∀ encoded, ¬ SizeMatches w.segmentSize encoded →
        decodeLargeValueHeader encoded w.segmentSize = none) ↔ w.segmentSize ≤ 2 ^ 31 + 1) := by
  refine ⟨fun v metadata content h ↦ ⟨fun ⟨hread, hnum⟩ ↦ ?_, fun h' ↦ ?_⟩, fun h ↦ ?_,
    fun hle _ ↦ decodeLargeValueHeader_eq_none hle⟩
  · obtain ⟨hsize, hmeta, hids⟩ := of_decodeLargeValue hread
    rw [length_ids, hnum] at hids
    refine ⟨hsize, hmeta, ?_, ?_⟩
    · by_contra hgt
      obtain ⟨hone, hzero⟩ := segments_of_wrapped hlt hsize (not_le.1 hgt)
      omega
    cases v with
    | fragments size count => exact hnum
    | pinned base size => trivial
  · have hnum := numSegments_of_fits h'
    obtain ⟨hsize, hmeta, hsum, -⟩ := h'
    refine ⟨?_, hnum⟩
    rw [eq_of_writeLargeValue h, Nat.mod_eq_of_lt (by omega)]
    exact decode_encode (ids_lt _) hsize hmeta hsum (by rw [length_ids, hnum])
  · by_contra hgt
    obtain ⟨hmatch, header, hheader⟩ := wrapped_accepted hlt (not_le.1 hgt)
    exact nomatch (h _ hmatch).symm.trans hheader

/-- Two segments in pinned memory, the last one from a scratch slot, with metadata. -/
theorem decode_write_iff_pinned : ∃ w : SegmentWriter, w.segmentSize = 4096 ∧
    ∃ content, w.writeLargeValue (.pinned 10 5000) [1, 2] = some content ∧
      decodeLargeValue 4096 content = some (5000, [7, 8], [1, 2]) := by
  refine ⟨⟨4096, [(0, 5010)], true, fun i ↦ .ofNat (i + 7), fun _ ↦ true⟩, rfl, _, rfl, ?_⟩
  exact (((decode_write_iff ⟨4096, [(0, 5010)], true, fun i ↦ .ofNat (i + 7), fun _ ↦ true⟩
    (by decide)).1 (.pinned 10 5000) [1, 2] _ rfl).2
    ⟨by decide, by decide, by decide, trivial⟩).1

/-- **A value of two gigabytes is not read back**: its length sets the flag for metadata. -/
theorem large_value_unread : ∃ w : SegmentWriter, w.segmentSize = 2 ^ 30 ∧
    ∃ content, w.writeLargeValue (.fragments (2 ^ 31) 2) [] = some content ∧
      segmentsOf (2 ^ 31) w.segmentSize = 2 ∧
      decodeLargeValue w.segmentSize content = none :=
  ⟨⟨2 ^ 30, [], false, .ofNat, fun _ ↦ true⟩, rfl, _, rfl, rfl, by decide⟩

end SegmentWriter

end EloqStore
