import Mathlib.Algebra.Order.BigOperators.Group.Finset
import Mathlib.Data.UInt
import EloqStore.Foundation.LinkedChain
import EloqStore.Foundation.Tally
import EloqStore.Foundation.Transition

/-!
# The registered memory and its free list

`GlobalRegisteredMemory` cuts chunks of memory into segments and keeps the free ones on a lock-free
stack. `head_` is one 64-bit word, a version and the index of the top segment; `successors_` has the
index below each segment. A pop reads the head and the successor of the top and swings the head with
a compare-exchange; a push writes the successor of its segment first. Both count the version up, so
that a head that was read before another update is recognised even if the same segment is on top
again.

The model takes **each atomic access as one step** and lets any number of threads take their steps
in any order. The version has 32 bits, so the compare-exchange can be fooled by a multiple of `2 ^
32` updates; that none of the calls sleeps for so long is the condition `Recent`.

* `Kept` is what the memory keeps: every segment is on the free list, with a client or in the hands
  of one call, and `TryGetSegment` returns nothing only if the list was empty when it looked.
* The **counter** of the free segments is changed after the list. A segment that has been put back
  and not yet counted can be taken and counted as gone first, so the counter can go below zero, that
  is, wrap around.
-/

namespace EloqStore

open Function List Option

open LinkedChain

/-! ### The head of the free list -/

/-- The index that stands for no segment. -/
def kInvalidIdx : UInt32 := 0xFFFFFFFF

/-- A version and the index of the top segment, in one word. -/
def encodeHead (ver idx : UInt32) : UInt64 := (ver.toUInt64 <<< 32) ||| idx.toUInt64

def decodeVer (enc : UInt64) : UInt32 := (enc >>> 32).toUInt32

def decodeIdx (enc : UInt64) : UInt32 := (enc &&& 0xFFFFFFFF).toUInt32

theorem toNat_encodeHead (ver idx : UInt32) :
    (encodeHead ver idx).toNat = ver.toNat * 2 ^ 32 + idx.toNat := by
  have hver := ver.toNat_lt
  have hidx := idx.toNat_lt
  have hshift : (ver.toNat <<< ((32 : UInt64).toNat % 64)) % 2 ^ 64 = ver.toNat <<< 32 := by
    rw [show (32 : UInt64).toNat % 64 = 32 from rfl, Nat.shiftLeft_eq]
    exact Nat.mod_eq_of_lt (by omega)
  simp only [encodeHead, UInt64.toNat_or, UInt64.toNat_shiftLeft, UInt32.toNat_toUInt64]
  rw [hshift, ← Nat.shiftLeft_add_eq_or_of_lt hidx, Nat.shiftLeft_eq]

@[simp] theorem decodeVer_encodeHead (ver idx : UInt32) : decodeVer (encodeHead ver idx) = ver := by
  apply UInt32.toNat_inj.1
  have hver := ver.toNat_lt
  have hidx := idx.toNat_lt
  simp only [decodeVer, UInt64.toNat_toUInt32, UInt64.toNat_shiftRight, toNat_encodeHead]
  rw [show (32 : UInt64).toNat % 64 = 32 from rfl, Nat.shiftRight_eq_div_pow]
  omega

@[simp] theorem decodeIdx_encodeHead (ver idx : UInt32) : decodeIdx (encodeHead ver idx) = idx := by
  apply UInt32.toNat_inj.1
  have hidx := idx.toNat_lt
  simp only [decodeIdx, UInt64.toNat_toUInt32, UInt64.toNat_and, toNat_encodeHead]
  rw [show (0xFFFFFFFF : UInt64).toNat = 2 ^ 32 - 1 from rfl, Nat.and_two_pow_sub_one_eq_mod]
  omega

/-! ### Segments and their addresses -/

/-- The sizes of a registered memory, as its constructor asserts them, and where its chunks are. -/
structure MemoryLayout where
  segmentSize : ℕ
  chunkSize : ℕ
  totalSize : ℕ
  base : ℕ → ℕ
  pageAlign_le : 4096 ≤ segmentSize
  pageAlign_dvd : 4096 ∣ segmentSize
  segmentSize_dvd : segmentSize ∣ chunkSize
  chunkSize_dvd : chunkSize ∣ totalSize
  total_pos : 0 < totalSize / segmentSize
  total_lt : totalSize / segmentSize < kInvalidIdx.toNat

namespace MemoryLayout

variable (L : MemoryLayout)

def segmentsPerChunk : ℕ := L.chunkSize / L.segmentSize

def totalSegments : ℕ := L.totalSize / L.segmentSize

def numChunks : ℕ := L.totalSize / L.chunkSize

/-- The index of a segment in a chunk, computed in 32 bits. -/
def segmentIndex (seg chunkIdx : ℕ) : UInt32 :=
  UInt32.ofNat chunkIdx * UInt32.ofNat L.segmentsPerChunk +
    UInt32.ofNat ((seg - L.base chunkIdx) / L.segmentSize)

def chunkIdxOf (idx : UInt32) : ℕ := (idx / UInt32.ofNat L.segmentsPerChunk).toNat

def segmentPtr (idx : UInt32) : ℕ :=
  L.base (L.chunkIdxOf idx) + (idx % UInt32.ofNat L.segmentsPerChunk).toNat * L.segmentSize

/-- A segment as a client knows it. -/
def segment (idx : UInt32) : ℕ × ℕ := (L.segmentPtr idx, L.chunkIdxOf idx)

/-- The segments in the order the constructor puts them on the free list. -/
def indices : List UInt32 :=
  (List.range L.numChunks).flatMap fun c ↦ (List.range L.segmentsPerChunk).map fun i ↦
    UInt32.ofNat c * UInt32.ofNat L.segmentsPerChunk + UInt32.ofNat i

theorem segmentSize_pos : 0 < L.segmentSize := Nat.lt_of_lt_of_le (by decide) L.pageAlign_le

theorem numChunks_mul : L.numChunks * L.segmentsPerChunk = L.totalSegments := by
  obtain ⟨k, hk⟩ := L.segmentSize_dvd
  obtain ⟨n, hn⟩ := L.chunkSize_dvd
  have hpos := L.segmentSize_pos
  have htotal := L.total_pos
  have hk0 : 0 < k := by
    refine Nat.pos_of_ne_zero fun h0 ↦ ?_
    simp [hn, hk, h0] at htotal
  rw [numChunks, segmentsPerChunk, totalSegments, hn, hk, Nat.mul_div_cancel_left _ hpos,
    Nat.mul_div_cancel_left _ (Nat.mul_pos hpos hk0), Nat.mul_assoc, Nat.mul_div_cancel_left _ hpos,
    Nat.mul_comm]

theorem totalSegments_lt : L.totalSegments < 2 ^ 32 := L.total_lt.trans (by decide)

theorem segmentsPerChunk_lt : L.segmentsPerChunk < 2 ^ 32 := by
  have hmul := L.numChunks_mul
  have htotal : 0 < L.totalSegments := L.total_pos
  have hle : L.segmentsPerChunk ≤ L.totalSegments := by
    rw [← hmul]
    refine Nat.le_mul_of_pos_left _ (Nat.pos_of_ne_zero fun h0 ↦ ?_)
    rw [h0, Nat.zero_mul] at hmul
    omega
  exact hle.trans_lt L.totalSegments_lt

/-- **`SegmentIndex` undoes the conversion of an index.** -/
theorem segmentIndex_segment (idx : UInt32) :
    L.segmentIndex (L.segment idx).1 (L.segment idx).2 = idx := by
  have hspc : (UInt32.ofNat L.segmentsPerChunk).toNat = L.segmentsPerChunk :=
    UInt32.toNat_ofNat_of_lt' L.segmentsPerChunk_lt
  apply UInt32.toNat_inj.1
  have hlt := idx.toNat_lt
  have hdiv : idx.toNat / L.segmentsPerChunk ≤ idx.toNat := Nat.div_le_self _ _
  have hmod : idx.toNat % L.segmentsPerChunk < 2 ^ 32 :=
    (Nat.mod_le _ _).trans_lt hlt
  have hsum := Nat.div_add_mod' idx.toNat L.segmentsPerChunk
  simp only [segmentIndex, segment, segmentPtr, chunkIdxOf, UInt32.toNat_add, UInt32.toNat_mul,
    UInt32.toNat_div, UInt32.toNat_mod, UInt32.toNat_ofNat', Nat.add_sub_cancel_left,
    Nat.mul_div_cancel _ L.segmentSize_pos, hspc]
  rw [Nat.mod_eq_of_lt (hdiv.trans_lt hlt), Nat.mod_eq_of_lt hmod,
    Nat.mod_eq_of_lt (a := _ * _) (by omega), hsum, Nat.mod_eq_of_lt hlt]

theorem segment_injective : Function.Injective L.segment := fun i j h ↦ by
  rw [← L.segmentIndex_segment i, ← L.segmentIndex_segment j, h]

theorem indices_eq : L.indices = (List.range L.totalSegments).map UInt32.ofNat := by
  have hcast : ∀ c i : ℕ, UInt32.ofNat c * UInt32.ofNat L.segmentsPerChunk + UInt32.ofNat i =
      UInt32.ofNat (c * L.segmentsPerChunk + i) := by
    intro c i
    rw [UInt32.ofNat_add, UInt32.ofNat_mul]
  have hrange : ∀ n, ((range n).flatMap fun c ↦
      (range L.segmentsPerChunk).map fun i ↦ UInt32.ofNat (c * L.segmentsPerChunk + i)) =
      (range (n * L.segmentsPerChunk)).map UInt32.ofNat := by
    intro n
    induction n with
    | zero => simp
    | succ n ih =>
      rw [range_succ, flatMap_append, ih, Nat.succ_mul, range_add, map_append]
      simp [comp_def]
  simp only [indices, hcast]
  rw [hrange, L.numChunks_mul]

theorem toNat_ofNat_of_lt {n : ℕ} (h : n < L.totalSegments) : (UInt32.ofNat n).toNat = n :=
  UInt32.toNat_ofNat_of_lt' (h.trans L.totalSegments_lt)

variable {idx : UInt32}

theorem mem_indices : idx ∈ L.indices ↔ idx.toNat < L.totalSegments := by
  rw [indices_eq, List.mem_map]
  constructor
  · rintro ⟨n, hn, rfl⟩
    have hlt := List.mem_range.1 hn
    rwa [L.toNat_ofNat_of_lt hlt]
  · exact fun h ↦ ⟨idx.toNat, List.mem_range.2 h, UInt32.ofNat_toNat⟩

theorem nodup_indices : L.indices.Nodup := by
  rw [indices_eq]
  refine Nodup.map_on (fun m hm n hn heq ↦ ?_) nodup_range
  have hm' := L.toNat_ofNat_of_lt (mem_range.1 hm)
  have hn' := L.toNat_ofNat_of_lt (mem_range.1 hn)
  rw [← hm', ← hn', heq]

theorem ne_kInvalidIdx (h : idx.toNat < L.totalSegments) : idx ≠ kInvalidIdx :=
  fun heq ↦ lt_irrefl _ ((heq ▸ h).trans L.total_lt)

end MemoryLayout

/-! ### Threads -/

/-- Where a thread is. A head that was read comes with the number of list updates until then, which
the program does not have. -/
inductive MemoryCall
  | idle
  /-- In `TryGetSegment`, with a head; `seen` is the free list when the head was read. -/
  | popLoaded (cur : UInt64) (stamp : ℕ) (seen : List UInt32)
  /-- In `TryGetSegment`, with the successor of the top segment too. -/
  | popNext (cur : UInt64) (stamp : ℕ) (next : UInt32)
  /-- In `TryGetSegment`, with a segment that has not been counted. -/
  | popped (idx : UInt32)
  /-- In `Recycle`, with a head. -/
  | pushLoaded (idx : UInt32) (cur : UInt64) (stamp : ℕ)
  /-- In `Recycle`, with the successor of the segment set. -/
  | pushStored (idx : UInt32) (cur : UInt64) (stamp : ℕ)
  /-- In `Recycle`, with the segment on the list and not counted. -/
  | pushed
deriving DecidableEq, Repr

namespace MemoryCall

/-- The segment is in the hands of the call. -/
def holds (idx : UInt32) : MemoryCall → ℕ
  | .popped i | .pushLoaded i _ _ | .pushStored i _ _ => if i = idx then 1 else 0
  | _ => 0

/-- Some segment is in the hands of the call. -/
def holdsAny : MemoryCall → ℕ
  | .popped _ | .pushLoaded _ _ _ | .pushStored _ _ _ => 1
  | _ => 0

/-- The call has taken a segment off the list and not counted it. -/
def pendingSub : MemoryCall → ℕ
  | .popped _ => 1
  | _ => 0

/-- The call has put a segment on the list and not counted it. -/
def pendingAdd : MemoryCall → ℕ
  | .pushed => 1
  | _ => 0

/-- The number of list updates when the call read its head. -/
def stamp? : MemoryCall → Option ℕ
  | .popLoaded _ stamp _ | .popNext _ stamp _ | .pushLoaded _ _ stamp | .pushStored _ _ stamp =>
    some stamp
  | _ => none

end MemoryCall

/-- The free list, the threads and the segments clients have. -/
structure RegisteredMemory (τ : Type*) where
  head : UInt64
  successors : UInt32 → UInt32
  freeCount : UInt64
  threads : τ → MemoryCall := fun _ ↦ .idle
  /-- The segments clients own, as addresses in chunks. -/
  owned : List (ℕ × ℕ) := []
  updates : ℕ := 0

/-- One atomic access of a thread, or its return. -/
inductive MemoryEvent (τ : Type*)
  /-- `TryGetSegment` reads the head. -/
  | tryGetSegment (t : τ)
  | giveUp (t : τ)
  /-- It reads the successor of the top segment. -/
  | loadNext (t : τ)
  /-- It tries to swing the head, and may fail for no reason. -/
  | casPop (t : τ) (spurious : Bool)
  /-- It counts, and returns the segment. -/
  | fetchSub (t : τ)
  /-- `Recycle` of a segment reads the head. -/
  | recycle (t : τ) (seg : ℕ × ℕ)
  /-- It sets the successor of the segment. -/
  | storeNext (t : τ)
  /-- It tries to swing the head, and may fail for no reason. -/
  | casPush (t : τ) (spurious : Bool)
  | fetchAdd (t : τ)
deriving DecidableEq, Repr

namespace RegisteredMemory

variable {τ : Type*} (L : MemoryLayout)

/-- The memory the constructor makes. -/
def init : RegisteredMemory τ where
  head := encodeHead 0 (pushAll (fun _ ↦ 0) kInvalidIdx L.indices).2
  successors := (pushAll (fun _ ↦ 0) kInvalidIdx L.indices).1
  freeCount := UInt64.ofNat L.totalSegments

variable (s : RegisteredMemory τ)

/-- The segments on the free list, from the top. -/
def freeList : List UInt32 := walk s.successors kInvalidIdx L.totalSegments (decodeIdx s.head)

def freeSegments : ℕ := s.freeCount.toNat

/-- The head is swung to another top segment. -/
def swing (cur : UInt64) (idx : UInt32) : RegisteredMemory τ :=
  { s with head := encodeHead (decodeVer cur + 1) idx, updates := s.updates + 1 }

def goto [DecidableEq τ] (t : τ) (c : MemoryCall) : RegisteredMemory τ :=
  { s with threads := Function.update s.threads t c }

end RegisteredMemory

def MemoryEvent.step {τ : Type*} [DecidableEq τ] (L : MemoryLayout) (s : RegisteredMemory τ) :
    MemoryEvent τ → Option (RegisteredMemory τ)
  | .tryGetSegment t =>
    match s.threads t with
    | .idle => some (s.goto t (.popLoaded s.head s.updates (s.freeList L)))
    | _ => none
  | .giveUp t =>
    match s.threads t with
    | .popLoaded cur _ _ => if decodeIdx cur = kInvalidIdx then some (s.goto t .idle) else none
    | _ => none
  | .loadNext t =>
    match s.threads t with
    | .popLoaded cur stamp _ =>
      if decodeIdx cur = kInvalidIdx then none
      else some (s.goto t (.popNext cur stamp (s.successors (decodeIdx cur))))
    | _ => none
  | .casPop t spurious =>
    match s.threads t with
    | .popNext cur _ next =>
      if s.head = cur ∧ spurious = false then
        some ((s.swing cur next).goto t (.popped (decodeIdx cur)))
      else some (s.goto t (.popLoaded s.head s.updates (s.freeList L)))
    | _ => none
  | .fetchSub t =>
    match s.threads t with
    | .popped idx =>
      some ({ s with freeCount := s.freeCount - 1, owned := L.segment idx :: s.owned }.goto t .idle)
    | _ => none
  | .recycle t seg =>
    match s.threads t with
    | .idle =>
      if seg ∈ s.owned then
        some ({ s with owned := s.owned.erase seg }.goto t
          (.pushLoaded (L.segmentIndex seg.1 seg.2) s.head s.updates))
      else none
    | _ => none
  | .storeNext t =>
    match s.threads t with
    | .pushLoaded idx cur stamp =>
      some ({ s with successors := Function.update s.successors idx (decodeIdx cur) }.goto t
        (.pushStored idx cur stamp))
    | _ => none
  | .casPush t spurious =>
    match s.threads t with
    | .pushStored idx cur _ =>
      if s.head = cur ∧ spurious = false then some ((s.swing cur idx).goto t .pushed)
      else some (s.goto t (.pushLoaded idx s.head s.updates))
    | _ => none
  | .fetchAdd t =>
    match s.threads t with
    | .pushed => some ({ s with freeCount := s.freeCount + 1 }.goto t .idle)
    | _ => none

/-- The interleavings of the threads' steps. -/
abbrev MemoryRuns {τ : Type*} [DecidableEq τ] (L : MemoryLayout)
    (G : RegisteredMemory τ → MemoryEvent τ → Prop) : RegisteredMemory τ → Prop :=
  Transition.Reach (fun s e s' ↦ MemoryEvent.step L s e = some s') G (.init L)

namespace RegisteredMemory

variable {τ : Type*} {L : MemoryLayout} {s : RegisteredMemory τ} {l l' : List UInt32} {t : τ}

/-! ### What a call knows -/

/-- A head that was read is of its time, and still the head if the list has not been updated. -/
structure Fresh (s : RegisteredMemory τ) (cur : UInt64) (stamp : ℕ) : Prop where
  le : stamp ≤ s.updates
  version : decodeVer cur = UInt32.ofNat stamp
  head : stamp = s.updates → s.head = cur

/-- What a call has read can be relied on as far as it goes. -/
def CallOk (s : RegisteredMemory τ) : MemoryCall → Prop
  | .popLoaded cur stamp seen => s.Fresh cur stamp ∧ (decodeIdx cur = kInvalidIdx → seen = [])
  | .popNext cur stamp next => s.Fresh cur stamp ∧ decodeIdx cur ≠ kInvalidIdx ∧
      (stamp = s.updates → s.successors (decodeIdx cur) = next)
  | .pushLoaded _ cur stamp => s.Fresh cur stamp
  | .pushStored idx cur stamp => s.Fresh cur stamp ∧ s.successors idx = decodeIdx cur
  | _ => True

variable {c : MemoryCall} {s' : RegisteredMemory τ} {cur : UInt64} {stamp : ℕ}

/-- What a call has read depends on the list only, and on links it has read. -/
theorem CallOk.frame (h : s.CallOk c) (hhead : s'.head = s.head) (hupdates : s'.updates = s.updates)
    (hnext : ∀ cur stamp next, c = .popNext cur stamp next → stamp = s.updates →
      s'.successors (decodeIdx cur) = s.successors (decodeIdx cur))
    (hstored : ∀ idx cur stamp, c = .pushStored idx cur stamp →
      s'.successors idx = s.successors idx) : s'.CallOk c := by
  have hfresh : ∀ {cur stamp}, s.Fresh cur stamp → s'.Fresh cur stamp := by
    intro cur stamp hf
    exact ⟨hupdates ▸ hf.le, hf.version, fun heq ↦ hhead ▸ hf.head (hupdates ▸ heq)⟩
  cases c with
  | popLoaded cur stamp seen => exact ⟨hfresh h.1, h.2⟩
  | popNext cur stamp next =>
    refine ⟨hfresh h.1, h.2.1, fun heq ↦ ?_⟩
    have heq' : stamp = s.updates := hupdates ▸ heq
    exact (hnext cur stamp next rfl heq').trans (h.2.2 heq')
  | pushLoaded idx cur stamp => exact hfresh h
  | pushStored idx cur stamp => exact ⟨hfresh h.1, (hstored idx cur stamp rfl).trans h.2⟩
  | idle | popped idx | pushed => trivial

/-- After an update of the list nothing that was read before is relied on but links. -/
theorem CallOk.swing (h : s.CallOk c) (cur : UInt64) (idx : UInt32) :
    (s.swing cur idx).CallOk c := by
  have hfresh : ∀ {cur' stamp}, s.Fresh cur' stamp → (s.swing cur idx).Fresh cur' stamp := by
    intro cur' stamp hf
    refine ⟨Nat.le_succ_of_le hf.le, hf.version, fun heq ↦ ?_⟩
    exact absurd (heq ▸ hf.le) (Nat.not_succ_le_self _)
  cases c with
  | popLoaded cur' stamp seen => exact ⟨hfresh h.1, h.2⟩
  | popNext cur' stamp next =>
    exact ⟨hfresh h.1, h.2.1, fun heq ↦ absurd (heq ▸ h.1.le) (Nat.not_succ_le_self _)⟩
  | pushLoaded idx' cur' stamp => exact hfresh h
  | pushStored idx' cur' stamp => exact ⟨hfresh h.1, h.2⟩
  | idle | popped idx' | pushed => trivial

theorem Fresh.eq_updates (h : s.Fresh cur stamp) (hver : decodeVer s.head = UInt32.ofNat s.updates)
    (hcur : s.head = cur) (hrecent : s.updates < stamp + 2 ^ 32) : stamp = s.updates := by
  have heq : UInt32.ofNat stamp = UInt32.ofNat s.updates := by rw [← h.version, ← hcur, hver]
  have hmod : stamp % 2 ^ 32 = s.updates % 2 ^ 32 := by
    simpa [UInt32.toNat_ofNat'] using congrArg UInt32.toNat heq
  have hle := h.le
  omega

/-! ### The invariant -/

variable [Fintype τ]

/-- **Every segment is in one place**, and the free list is what the calls take it for. -/
structure Custody (L : MemoryLayout) (s : RegisteredMemory τ) (l : List UInt32) : Prop where
  linked : Linked s.successors kInvalidIdx (decodeIdx s.head) l
  /-- A segment is on the list, with a client, or in the hands of a call. -/
  once : ∀ i : UInt32, i.toNat < L.totalSegments →
    l.count i + s.owned.count (L.segment i) + ∑ u, (s.threads u).holds i = 1
  total : l.length + s.owned.length + ∑ u, (s.threads u).holdsAny = L.totalSegments
  listed : ∀ i ∈ l, i.toNat < L.totalSegments
  owned : ∀ x ∈ s.owned, ∃ i : UInt32, i.toNat < L.totalSegments ∧ x = L.segment i
  held : ∀ u i, (s.threads u).holds i ≠ 0 → i.toNat < L.totalSegments
  version : decodeVer s.head = UInt32.ofNat s.updates
  calls : ∀ u, s.CallOk (s.threads u)

theorem Custody.length_le (h : Custody L s l) : l.length ≤ L.totalSegments := by
  have htotal := h.total
  omega

theorem Custody.freeList_eq (h : Custody L s l) : s.freeList L = l := h.linked.walk_eq h.length_le

theorem Custody.fresh (h : Custody L s l) : s.Fresh s.head s.updates :=
  ⟨le_rfl, h.version, fun _ ↦ rfl⟩

variable [DecidableEq τ]

theorem Custody.alone (h : Custody L s l) {i : UInt32} (hi : (s.threads t).holds i ≠ 0) :
    i ∉ l ∧ L.segment i ∉ s.owned ∧ ∀ u, u ≠ t → (s.threads u).holds i = 0 := by
  have honce := h.once i (h.held t i hi)
  have hsplit := Finset.add_sum_erase Finset.univ (fun u ↦ (s.threads u).holds i)
    (Finset.mem_univ t)
  refine ⟨fun hmem ↦ ?_, fun hmem ↦ ?_, fun u hu ↦ ?_⟩
  · have hpos := count_pos_iff.2 hmem
    omega
  · have hpos := count_pos_iff.2 hmem
    omega
  · have hle : (s.threads u).holds i ≤ ∑ v ∈ Finset.univ.erase t, (s.threads v).holds i :=
      Finset.single_le_sum (f := fun v ↦ (s.threads v).holds i) (fun _ _ ↦ Nat.zero_le _)
        (Finset.mem_erase.2 ⟨hu, Finset.mem_univ u⟩)
    omega

open MemoryCall

section

variable (h : Custody L s l)

include h

/-- **One thread gets on.** The places are as they were but for what moves between the list, the
clients and this call, and the other calls can rely on what they could rely on. -/
theorem Custody.move (hthreads : s'.threads = update s.threads t c)
    (hlinked : Linked s'.successors kInvalidIdx (decodeIdx s'.head) l')
    (honce : ∀ i : UInt32, i.toNat < L.totalSegments →
      l'.count i + s'.owned.count (L.segment i) + c.holds i =
      l.count i + s.owned.count (L.segment i) + (s.threads t).holds i)
    (htotal : l'.length + s'.owned.length + c.holdsAny =
      l.length + s.owned.length + (s.threads t).holdsAny)
    (hlisted : ∀ i ∈ l', i.toNat < L.totalSegments)
    (howned : ∀ x ∈ s'.owned, ∃ i : UInt32, i.toNat < L.totalSegments ∧ x = L.segment i)
    (hheld : ∀ i, c.holds i ≠ 0 → i.toNat < L.totalSegments)
    (hversion : decodeVer s'.head = UInt32.ofNat s'.updates)
    (hothers : ∀ u, u ≠ t → s'.CallOk (s.threads u)) (hcall : s'.CallOk c) :
    Custody L s' l' where
  linked := hlinked
  once i hi := by
    have hsum := Tally.sum_update (holds i) s.threads t c
    have hold := h.once i hi
    have hnew := honce i hi
    rw [hthreads]
    omega
  total := by
    have hsum := Tally.sum_update holdsAny s.threads t c
    have hold := h.total
    rw [hthreads]
    omega
  listed := hlisted
  owned := howned
  held u i := by
    rw [hthreads]
    by_cases hut : u = t
    · rw [hut, update_self]
      exact hheld i
    · rw [update_of_ne hut]
      exact h.held u i
  version := hversion
  calls u := by
    rw [hthreads]
    by_cases hut : u = t
    · rw [hut, update_self]
      exact hcall
    · rw [update_of_ne hut]
      exact hothers u hut

/-- A call that moves no segment, whatever it does to the counter. -/
theorem Custody.goto {n : UInt64} (hholds : ∀ i, c.holds i = (s.threads t).holds i)
    (hany : c.holdsAny = (s.threads t).holdsAny) (hcall : s.CallOk c) :
    Custody L ({ s with freeCount := n }.goto t c) l :=
  h.move rfl h.linked (fun i _ ↦ by rw [hholds]; rfl) (by rw [hany]; rfl) h.listed h.owned
    (fun i hi ↦ h.held t i (hholds i ▸ hi)) h.version
    (fun u _ ↦ (h.calls u).frame rfl rfl (fun _ _ _ _ _ ↦ rfl) fun _ _ _ _ ↦ rfl)
    (hcall.frame rfl rfl (fun _ _ _ _ _ ↦ rfl) fun _ _ _ _ ↦ rfl)

/-! ### The steps -/

/-- `TryGetSegment` **reads the head**, at first or after a compare-exchange that failed. -/
theorem Custody.loadHead (hholds : ∀ i, (s.threads t).holds i = 0)
    (hany : (s.threads t).holdsAny = 0) :
    Custody L (s.goto t (.popLoaded s.head s.updates (s.freeList L))) l := by
  refine h.goto (n := s.freeCount) (fun i ↦ (hholds i).symm) hany.symm ⟨h.fresh, fun hnil ↦ ?_⟩
  rw [h.freeList_eq]
  exact (hnil ▸ h.linked).eq_nil

/-- **A pop**: the compare-exchange finds the head it expects. -/
theorem Custody.pop {next : UInt32} (ht : s.threads t = .popNext cur stamp next)
    (hcur : s.head = cur) (hrecent : s.updates < stamp + 2 ^ 32) :
    ∃ l', l = decodeIdx cur :: l' ∧
      Custody L ((s.swing cur next).goto t (.popped (decodeIdx cur))) l' := by
  obtain ⟨hfresh, hne, hnext⟩ : s.CallOk (.popNext cur stamp next) := ht ▸ h.calls t
  have hnow : stamp = s.updates := hfresh.eq_updates h.version hcur hrecent
  obtain ⟨l', rfl, hlinked⟩ := h.linked.exists_cons (hcur ▸ hne)
  rw [hcur, hnext hnow] at hlinked
  refine ⟨l', by rw [hcur], h.move rfl ?_ (fun i _ ↦ ?_) ?_ (fun i hi ↦ ?_) h.owned (fun i hi ↦ ?_)
    ?_ (fun u _ ↦ ?_) trivial⟩
  · show Linked s.successors kInvalidIdx (decodeIdx (encodeHead (decodeVer cur + 1) next)) l'
    rw [decodeIdx_encodeHead]
    exact hlinked
  · rw [ht, hcur, count_cons]
    simp only [holds, RegisteredMemory.goto, RegisteredMemory.swing, beq_iff_eq]
    omega
  · rw [ht]
    simp only [holdsAny, RegisteredMemory.goto, RegisteredMemory.swing, length_cons]
    omega
  · exact h.listed i (mem_cons_of_mem _ hi)
  · have hi' : decodeIdx cur = i := by simpa [holds] using hi
    exact h.listed i (hi' ▸ hcur ▸ mem_cons_self)
  · show decodeVer (encodeHead (decodeVer cur + 1) next) = UInt32.ofNat (s.updates + 1)
    rw [decodeVer_encodeHead, ← hcur, h.version, UInt32.ofNat_add]
    rfl
  · exact ((h.calls u).swing cur next).frame rfl rfl (fun _ _ _ _ _ ↦ rfl) fun _ _ _ _ ↦ rfl

/-- **The segment goes to a client.** -/
theorem Custody.fetchSub (ht : s.threads t = .popped idx) :
    Custody L ({ s with
      freeCount := s.freeCount - 1, owned := L.segment idx :: s.owned }.goto t .idle) l := by
  have hidx : idx.toNat < L.totalSegments := h.held t idx (by rw [ht]; simp [holds])
  refine h.move rfl h.linked (fun i _ ↦ ?_) ?_ h.listed (fun x hx ↦ ?_) (fun i hi ↦ absurd rfl hi)
    h.version (fun u _ ↦ ?_) trivial
  · rw [ht]
    simp only [holds, RegisteredMemory.goto, count_cons, beq_iff_eq,
      L.segment_injective.eq_iff]
    omega
  · rw [ht]
    simp only [holdsAny, RegisteredMemory.goto, length_cons]
    omega
  · rcases mem_cons.1 hx with rfl | hx
    · exact ⟨idx, hidx, rfl⟩
    · exact h.owned x hx
  · exact (h.calls u).frame rfl rfl (fun _ _ _ _ _ ↦ rfl) fun _ _ _ _ ↦ rfl

/-- **A client gives a segment back.** -/
theorem Custody.recycle {seg : ℕ × ℕ} (ht : s.threads t = .idle) (hseg : seg ∈ s.owned) :
    Custody L ({ s with owned := s.owned.erase seg }.goto t
      (.pushLoaded (L.segmentIndex seg.1 seg.2) s.head s.updates)) l := by
  obtain ⟨idx, hidx, rfl⟩ := h.owned seg hseg
  have hpos := count_pos_iff.2 hseg
  have hlen := length_pos_of_mem hseg
  rw [L.segmentIndex_segment]
  refine h.move rfl h.linked (fun i _ ↦ ?_) ?_ h.listed
    (fun x hx ↦ h.owned x (mem_of_mem_erase hx)) (fun i hi ↦ ?_) h.version (fun u _ ↦ ?_) ?_
  · rw [ht]
    simp only [holds, RegisteredMemory.goto, count_erase, beq_iff_eq,
      L.segment_injective.eq_iff]
    split
    · next heq =>
      subst heq
      omega
    · omega
  · rw [ht]
    simp only [holdsAny, RegisteredMemory.goto, length_erase_of_mem hseg]
    omega
  · have hi' : idx = i := by simpa [holds] using hi
    exact hi' ▸ hidx
  · exact (h.calls u).frame rfl rfl (fun _ _ _ _ _ ↦ rfl) fun _ _ _ _ ↦ rfl
  · exact ⟨le_rfl, h.version, fun _ ↦ rfl⟩

/-- **The link of the segment is set**, which no call that matters has read. -/
theorem Custody.storeNext (ht : s.threads t = .pushLoaded idx cur stamp) :
    Custody L ({ s with successors := update s.successors idx (decodeIdx cur) }.goto t
      (.pushStored idx cur stamp)) l := by
  have hcall : s.CallOk (.pushLoaded idx cur stamp) := ht ▸ h.calls t
  have hfresh : s.Fresh cur stamp := hcall
  have hheld : (s.threads t).holds idx ≠ 0 := by rw [ht]; simp [holds]
  obtain ⟨hlist, -, hothers⟩ := h.alone hheld
  refine h.move rfl (h.linked.update hlist _) (fun i _ ↦ ?_) (by rw [ht]; rfl) h.listed h.owned
    (fun i hi ↦ ?_) h.version (fun u hu ↦ ?_) ⟨⟨hfresh.le, hfresh.version, hfresh.head⟩, ?_⟩
  · rw [ht]
    rfl
  · have hi' : idx = i := by simpa [holds] using hi
    exact h.held t i (hi' ▸ hheld)
  · refine (h.calls u).frame rfl rfl (fun cur' stamp' next hc hnow ↦ ?_)
      fun idx' cur' stamp' hc ↦ ?_
    · -- a head that is still the head has its top on the list
      obtain ⟨hfresh', hne, -⟩ : s.CallOk (.popNext cur' stamp' next) := hc ▸ h.calls u
      obtain ⟨l', rfl, -⟩ := h.linked.exists_cons (hfresh'.head hnow ▸ hne)
      refine update_of_ne (fun heq ↦ hlist ?_) _ _
      rw [← heq, ← hfresh'.head hnow]
      exact mem_cons_self
    · refine update_of_ne (fun heq ↦ ?_) _ _
      have hzero := hothers u hu
      rw [hc, heq] at hzero
      simp [holds] at hzero
  · exact update_self _ _ _

/-- **A push**: the compare-exchange finds the head it expects. -/
theorem Custody.push (ht : s.threads t = .pushStored idx cur stamp) (hcur : s.head = cur) :
    Custody L ((s.swing cur idx).goto t .pushed) (idx :: l) := by
  obtain ⟨-, hlink⟩ : s.CallOk (.pushStored idx cur stamp) := ht ▸ h.calls t
  have hheld : (s.threads t).holds idx ≠ 0 := by rw [ht]; simp [holds]
  have hidx := h.held t idx hheld
  refine h.move rfl ?_ (fun i _ ↦ ?_) ?_ (fun i hi ↦ ?_) h.owned (fun i hi ↦ absurd rfl hi) ?_
    (fun u _ ↦ ?_) trivial
  · show Linked s.successors kInvalidIdx (decodeIdx (encodeHead (decodeVer cur + 1) idx)) (idx :: l)
    rw [decodeIdx_encodeHead]
    exact h.linked.push (L.ne_kInvalidIdx hidx) (by rw [hlink, hcur])
  · rw [ht, count_cons]
    simp only [holds, RegisteredMemory.goto, RegisteredMemory.swing, beq_iff_eq]
    omega
  · rw [ht]
    simp only [holdsAny, RegisteredMemory.goto, RegisteredMemory.swing, length_cons]
    omega
  · rcases mem_cons.1 hi with rfl | hi
    · exact hidx
    · exact h.listed i hi
  · show decodeVer (encodeHead (decodeVer cur + 1) idx) = UInt32.ofNat (s.updates + 1)
    rw [decodeVer_encodeHead, ← hcur, h.version, UInt32.ofNat_add]
    rfl
  · exact ((h.calls u).swing cur idx).frame rfl rfl (fun _ _ _ _ _ ↦ rfl) fun _ _ _ _ ↦ rfl

end

/-! ### Runs -/

/-- **No call sleeps through `2 ^ 32` updates** between reading the head and the compare-exchange.
-/
def Recent (s : RegisteredMemory τ) : MemoryEvent τ → Prop
  | .casPop t _ | .casPush t _ => ∀ n ∈ (s.threads t).stamp?, s.updates < n + 2 ^ 32
  | _ => True

/-- **A segment is not counted as gone before it was counted as there**: when `TryGetSegment`
counts, the counter is not at zero. -/
def Counted (s : RegisteredMemory τ) : MemoryEvent τ → Prop
  | .fetchSub _ => s.freeCount ≠ 0
  | _ => True

instance decidableRecent (s : RegisteredMemory τ) (e : MemoryEvent τ) : Decidable (Recent s e) := by
  cases e <;> dsimp only [Recent] <;> infer_instance

instance decidableCounted (s : RegisteredMemory τ) (e : MemoryEvent τ) :
    Decidable (Counted s e) := by
  cases e <;> dsimp only [Counted] <;> infer_instance

/-- The counter agrees with the list, but for the calls that have not counted yet. -/
def Balanced (s : RegisteredMemory τ) (l : List UInt32) : Prop :=
  s.freeSegments + ∑ u, (s.threads u).pendingAdd = l.length + ∑ u, (s.threads u).pendingSub

/-- The counter and one call change as the list does. -/
theorem Balanced.move (h : s.Balanced l) (hthreads : s'.threads = update s.threads t c)
    (heq : s'.freeSegments + c.pendingAdd + l.length + (s.threads t).pendingSub = s.freeSegments +
    (s.threads t).pendingAdd + l'.length + c.pendingSub) : s'.Balanced l' := by
  have hadd := Tally.sum_update pendingAdd s.threads t c
  have hsub := Tally.sum_update pendingSub s.threads t c
  unfold Balanced at h ⊢
  rw [hthreads]
  omega

omit [DecidableEq τ] in
/-- The counter is at most the number of segments. -/
theorem Balanced.le (h : s.Balanced l) (hc : Custody L s l) : s.freeSegments ≤ L.totalSegments := by
  have hle : ∑ u, (s.threads u).pendingSub ≤ ∑ u, (s.threads u).holdsAny :=
    Finset.sum_le_sum fun u _ ↦ by
      cases s.threads u <;> simp [pendingSub, holdsAny]
  have htotal := hc.total
  unfold Balanced at h
  omega

/-- **Every step keeps the segments**, and the counter if it is not at zero when it is counted
down. -/
theorem Custody.event (h : Custody L s l) {e : MemoryEvent τ} (hrecent : Recent s e)
    (hstep : e.step L s = some s') :
    ∃ l', Custody L s' l' ∧ (Counted s e → s.Balanced l → s'.Balanced l') := by
  cases e with
  | tryGetSegment t =>
    simp only [MemoryEvent.step] at hstep
    split at hstep
    · next ht =>
      cases hstep
      refine ⟨l, h.loadHead (by simp [ht, holds]) (by simp [ht, holdsAny]),
        fun _ hb ↦ hb.move (t := t) rfl (by rw [ht]; rfl)⟩
    · cases hstep
  | giveUp t =>
    simp only [MemoryEvent.step] at hstep
    split at hstep
    · next cur stamp seen ht =>
      obtain ⟨-, hs'⟩ := ite_none_right_eq_some.1 hstep
      cases hs'
      exact ⟨l, h.goto (n := s.freeCount) (by simp [ht, holds])
        (by simp [ht, holdsAny]) trivial,
        fun _ hb ↦ hb.move (t := t) rfl (by rw [ht]; rfl)⟩
    · cases hstep
  | loadNext t =>
    simp only [MemoryEvent.step] at hstep
    split at hstep
    · next cur stamp seen ht =>
      obtain ⟨hne, hs'⟩ := ite_none_left_eq_some.1 hstep
      cases hs'
      obtain ⟨hfresh, -⟩ : s.CallOk (.popLoaded cur stamp seen) := ht ▸ h.calls t
      exact ⟨l, h.goto (n := s.freeCount) (by simp [ht, holds])
        (by simp [ht, holdsAny]) ⟨hfresh, hne, fun _ ↦ rfl⟩,
        fun _ hb ↦ hb.move (t := t) rfl (by rw [ht]; rfl)⟩
    · cases hstep
  | casPop t spurious =>
    simp only [MemoryEvent.step] at hstep
    split at hstep
    · next cur stamp next ht =>
      split at hstep
      · next hcas =>
        cases hstep
        obtain ⟨l', rfl, hc⟩ := h.pop ht hcas.1 (hrecent stamp (by rw [ht]; rfl))
        refine ⟨l', hc, fun _ hb ↦ hb.move (t := t) rfl ?_⟩
        rw [ht]
        show s.freeSegments + 0 + (l'.length + 1) + 0 = s.freeSegments + 0 + l'.length + 1
        omega
      · cases hstep
        exact ⟨l, h.loadHead (by simp [ht, holds]) (by simp [ht, holdsAny]),
          fun _ hb ↦ hb.move (t := t) rfl (by rw [ht]; rfl)⟩
    · cases hstep
  | fetchSub t =>
    simp only [MemoryEvent.step] at hstep
    split at hstep
    · next idx ht =>
      cases hstep
      refine ⟨l, h.fetchSub ht, fun hne hb ↦ hb.move (t := t) rfl ?_⟩
      have hpos : 0 < s.freeCount.toNat := Nat.pos_of_ne_zero fun h0 ↦ hne (UInt64.toNat_inj.1 h0)
      have hsub : (s.freeCount - 1).toNat = s.freeCount.toNat - 1 :=
        UInt64.toNat_sub_of_le _ _ (UInt64.le_iff_toNat_le.2 hpos)
      rw [ht]
      show (s.freeCount - 1).toNat + 0 + l.length + 1 = s.freeCount.toNat + 0 + l.length + 0
      omega
    · cases hstep
  | recycle t seg =>
    simp only [MemoryEvent.step] at hstep
    split at hstep
    · next ht =>
      obtain ⟨hseg, hs'⟩ := ite_none_right_eq_some.1 hstep
      cases hs'
      exact ⟨l, h.recycle ht hseg, fun _ hb ↦ hb.move (t := t) rfl (by rw [ht]; rfl)⟩
    · cases hstep
  | storeNext t =>
    simp only [MemoryEvent.step] at hstep
    split at hstep
    · next idx cur stamp ht =>
      cases hstep
      exact ⟨l, h.storeNext ht, fun _ hb ↦ hb.move (t := t) rfl (by rw [ht]; rfl)⟩
    · cases hstep
  | casPush t spurious =>
    simp only [MemoryEvent.step] at hstep
    split at hstep
    · next idx cur stamp ht =>
      split at hstep
      · next hcas =>
        cases hstep
        refine ⟨idx :: l, h.push ht hcas.1, fun _ hb ↦ hb.move (t := t) rfl ?_⟩
        rw [ht]
        show s.freeSegments + 1 + l.length + 0 = s.freeSegments + 0 + (l.length + 1) + 0
        omega
      · cases hstep
        exact ⟨l, h.goto (n := s.freeCount) (by simp [ht, holds])
          (by simp [ht, holdsAny]) h.fresh,
          fun _ hb ↦ hb.move (t := t) rfl (by rw [ht]; rfl)⟩
    · cases hstep
  | fetchAdd t =>
    simp only [MemoryEvent.step] at hstep
    split at hstep
    · next ht =>
      cases hstep
      refine ⟨l, h.goto (by simp [ht, holds]) (by simp [ht, holdsAny])
        trivial, fun _ hb ↦ hb.move (t := t) rfl ?_⟩
      have hle : s.freeCount.toNat ≤ L.totalSegments := hb.le h
      have hlt := L.totalSegments_lt
      have hadd : (s.freeCount + 1).toNat = s.freeCount.toNat + 1 := by
        rw [UInt64.toNat_add]
        exact Nat.mod_eq_of_lt (by simp only [UInt64.reduceToNat]; omega)
      rw [ht]
      show (s.freeCount + 1).toNat + 0 + l.length + 0 = s.freeCount.toNat + 1 + l.length + 0
      omega
    · cases hstep

omit [DecidableEq τ] in
/-- The constructor puts every segment on the list. -/
theorem custody_init (L : MemoryLayout) :
    Custody L (init L : RegisteredMemory τ) L.indices.reverse := by
  have hempty : Linked (fun _ ↦ 0) kInvalidIdx kInvalidIdx [] := rfl
  have hlinked := hempty.pushAll L.indices
    (by rw [append_nil]; exact L.nodup_indices)
    fun hmem ↦ L.ne_kInvalidIdx (L.mem_indices.1 hmem) rfl
  rw [append_nil] at hlinked
  refine ⟨?_, fun i hi ↦ ?_, ?_, fun i hi ↦ ?_, fun x hx ↦ ?_, fun u i hi ↦ ?_, ?_, fun u ↦ trivial⟩
  · show Linked _ kInvalidIdx (decodeIdx (encodeHead 0 _)) _
    rw [decodeIdx_encodeHead]
    exact hlinked
  · have hone : L.indices.reverse.count i = 1 := by
      rw [count_reverse]
      exact count_eq_one_of_mem L.nodup_indices (L.mem_indices.2 hi)
    rw [hone]
    simp [init, holds]
  · have hlen : L.indices.reverse.length = L.totalSegments := by
      rw [length_reverse, L.indices_eq, length_map, length_range]
    rw [hlen]
    simp [init, holdsAny]
  · exact L.mem_indices.1 (mem_reverse.1 hi)
  · simp [init] at hx
  · exact absurd rfl hi
  · show decodeVer (encodeHead 0 _) = UInt32.ofNat 0
    rw [decodeVer_encodeHead]
    rfl

omit [DecidableEq τ] in
theorem balanced_init (L : MemoryLayout) :
    (init L : RegisteredMemory τ).Balanced L.indices.reverse := by
  have hlt := L.totalSegments_lt
  have hcount : (init L : RegisteredMemory τ).freeSegments = L.totalSegments :=
    UInt64.toNat_ofNat_of_lt' (by simp only [UInt64.size]; omega)
  rw [Balanced, hcount, length_reverse, L.indices_eq, length_map, length_range]
  simp [init, pendingAdd, pendingSub]

/-- **What the memory keeps.** -/
structure Kept (L : MemoryLayout) (s : RegisteredMemory τ) : Prop where
  /-- Every segment is in one place: on the free list, with a client, or in the hands of a call. -/
  once : ∀ i : UInt32, i.toNat < L.totalSegments →
    (s.freeList L).count i + s.owned.count (L.segment i) + ∑ u, (s.threads u).holds i = 1
  owned : ∀ x ∈ s.owned, ∃ i : UInt32, i.toNat < L.totalSegments ∧ x = L.segment i
  /-- A call of `TryGetSegment` that is about to return nothing has seen the list empty. -/
  empty : ∀ u cur stamp seen, s.threads u = .popLoaded cur stamp seen →
    decodeIdx cur = kInvalidIdx → seen = []
  /-- The index of a segment is recovered from its address. -/
  inverse : ∀ i : UInt32, i.toNat < L.totalSegments →
    L.segmentIndex (L.segmentPtr i) (L.chunkIdxOf i) = i

omit [DecidableEq τ] in
theorem Custody.kept (h : Custody L s l) : s.Kept L where
  once := h.freeList_eq.symm ▸ h.once
  owned := h.owned
  empty u cur stamp seen hu := by
    obtain ⟨-, hseen⟩ : s.CallOk (.popLoaded cur stamp seen) := hu ▸ h.calls u
    exact hseen
  inverse i _ := L.segmentIndex_segment i

/-- **The free list keeps every segment**, in every interleaving in which no call sleeps through
`2 ^ 32` updates; and the counter stays within the number of segments in those in which no segment
is counted as gone before it was counted as there. -/
theorem kept_of_recent (hrun : MemoryRuns L Recent s) :
    s.Kept L ∧ (MemoryRuns L (fun s e ↦ Recent s e ∧ Counted s e) s →
      s.freeSegments ≤ L.totalSegments) := by
  constructor
  · obtain ⟨l, hl⟩ := hrun.invariant (fun s ↦ ∃ l, Custody L s l) ⟨_, custody_init L⟩
      fun ⟨l, hl⟩ hrecent hstep ↦ (hl.event hrecent hstep).imp fun _ h ↦ h.1
    exact hl.kept
  · intro hcounted
    obtain ⟨l, hl, hb⟩ := hcounted.invariant (fun s ↦ ∃ l, Custody L s l ∧ s.Balanced l)
      ⟨_, custody_init L, balanced_init L⟩ fun ⟨l, hl, hb⟩ hguard hstep ↦
        (hl.event hguard.1 hstep).imp fun _ h ↦ ⟨h.1, h.2 hguard.2 hb⟩
    exact hb.le hl

/-- A segment is taken and given back while another thread takes one. -/
theorem kept_of_recent_shared : ∃ (L : MemoryLayout) (s : RegisteredMemory (Fin 2)),
    s.owned = [L.segment 0] ∧ s.Kept L ∧ s.freeSegments ≤ L.totalSegments := by
  let L : MemoryLayout := ⟨4096, 8192, 8192, fun _ ↦ 65536, by decide, by decide, by decide,
    by decide, by decide, by decide⟩
  obtain ⟨s, hrun, hs⟩ : ∃ s : RegisteredMemory (Fin 2),
      MemoryRuns L (fun s e ↦ Recent s e ∧ Counted s e) s ∧ s.owned = [L.segment 0] :=
    Transition.exists_reach_of_exec
      [.tryGetSegment 0, .loadNext 0, .casPop 0 false, .tryGetSegment 1, .fetchSub 0,
        .recycle 0 (L.segment 1), .loadNext 1, .casPop 1 false, .storeNext 0, .casPush 0 false,
        .storeNext 0, .casPush 0 false, .fetchSub 1, .fetchAdd 0] (by decide +kernel)
  have h := kept_of_recent (hrun.mono fun _ _ h ↦ h.1)
  exact ⟨L, s, hs, h.1, h.2 hrun⟩

/-- The only segment is put back, taken by another thread and counted as gone before it has been
counted as there: the counter wraps around. -/
theorem freeSegments_wraps : ∃ (L : MemoryLayout) (s : RegisteredMemory (Fin 2)),
    MemoryRuns L Recent s ∧ L.totalSegments < s.freeSegments := by
  let L : MemoryLayout := ⟨4096, 4096, 4096, fun _ ↦ 65536, by decide, by decide, by decide,
    by decide, by decide, by decide⟩
  exact ⟨L, Transition.exists_reach_of_exec
    [.tryGetSegment 0, .loadNext 0, .casPop 0 false, .fetchSub 0, .recycle 0 (L.segment 0),
      .storeNext 0, .casPush 0 false, .tryGetSegment 1, .loadNext 1, .casPop 1 false,
      .fetchSub 1] (by decide +kernel)⟩

end RegisteredMemory

end EloqStore
