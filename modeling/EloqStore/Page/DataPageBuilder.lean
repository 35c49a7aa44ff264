import EloqStore.Foundation.RestartBuilder
import EloqStore.Types

/-!
# Building data pages

A data page has a header of 19 bytes (checksum, type, content length, the ids of its neighbours),
then its entries. An entry shares a prefix of its key with the entry before it and has the
difference of the two timestamps, zig-zag encoded; a timestamp above the largest signed one is cut
down to it. The low bits of the length of the value are markers.

`DataPageBuilder` decides whether an entry fits from the numbers of bytes alone (`calculateDelta`);
they are the numbers of bytes it writes (`calculateDelta_eq`). `IsOverflowKV` asks the same about a
page of one entry, but forgets that without a restart interval there is one more restart point
(`isOverflowKV_iff_add_eq_none`).
-/

namespace EloqStore

open ByteCodec RestartPage List

abbrev Key := List UInt8

/-- The options of pages. -/
structure PageOptions where
  dataPageSize : ℕ
  dataPageRestartInterval : ℕ
  overflowPointers : ℕ
  dataPageSize_lt : dataPageSize < 65536

/-- What `ValidateOptions` asks of them; a page of the system has 4096 bytes. -/
def PageOptions.Valid (opts : PageOptions) : Prop :=
  opts.dataPageSize % 4096 = 0 ∧ 0 < opts.overflowPointers ∧ opts.overflowPointers ≤ 128

instance (opts : PageOptions) : Decidable opts.Valid := inferInstanceAs (Decidable (_ ∧ _))

def pageOptions (interval : ℕ) : PageOptions := ⟨4096, interval, 16, by decide⟩

/-- An entry of a data page. -/
structure PageEntry where
  key : Key
  /-- The bytes of the value, or what leads to them. -/
  value : List UInt8
  overflow : Bool
  timestamp : UInt64
  /-- When the entry expires, zero if never. -/
  expireTs : UInt64
  compression : CompressionType
  largeValue : Bool
deriving DecidableEq, Repr

/-! ### Numbers -/

def clampTimestampToInt64 (ts : UInt64) : ℕ := min ts.toNat (2 ^ 63 - 1)

/-- A number as 64 bits have it, with a sign. -/
def toInt64 (x : ℤ) : ℤ := (x + 2 ^ 63) % 2 ^ 64 - 2 ^ 63

/-- The lowest bit is the sign. -/
def encodeInt64Delta (delta : ℤ) : ℕ :=
  ((if 0 ≤ delta then delta * 2 else toInt64 (-delta) * 2 + 1) % 2 ^ 64).toNat

/-- The number of bytes two keys share at the beginning. -/
def sharedLength : Key → Key → ℕ
  | a :: as, b :: bs => if a = b then sharedLength as bs + 1 else 0
  | _, _ => 0

/-! ### Writing -/

/-- What a builder keeps of the entry before. -/
structure LastEntry where
  /-- `last_key_`. -/
  key : Key
  /-- `last_timestamp_`. -/
  timestamp : ℕ
deriving DecidableEq, Repr

def CompressionType.bits : CompressionType → ℕ
  | .none => 0
  | .dictionary => 1
  | .standalone => 2

def PageEntry.markers (e : PageEntry) : ℕ :=
  4 * (if e.largeValue then 3 else e.compression.bits) + 2 * (if e.expireTs = 0 then 0 else 1) +
    e.overflow.toNat

def PageEntry.storedValLen (e : PageEntry) : ℕ := 16 * e.value.length + e.markers

theorem PageEntry.markers_lt (e : PageEntry) : e.markers < 16 := by
  rw [markers]
  by_cases h : e.expireTs = 0 <;> cases e.largeValue <;> cases e.compression <;>
    cases e.overflow <;> simp [h, CompressionType.bits]

/-- `CalculateDelta`: the bytes by which an entry lengthens a page. -/
def calculateDelta (key : Key) (storedValLen : ℕ) (ts expireTs : UInt64) (lastKey : Key)
    (lastTs : ℕ) (restart : Bool) : ℕ :=
  let shared := if restart then 0 else sharedLength lastKey key
  let lastTs := if restart then 0 else lastTs
  let nonShared := key.length - shared
  (if restart then 2 else 0) + (varint 5 shared).length + (varint 5 nonShared).length +
    (varint 5 storedValLen).length + nonShared + storedValLen / 16 +
    (if expireTs = 0 then 0 else (varint 10 expireTs.toNat).length) +
    (varint 10 (encodeInt64Delta (clampTimestampToInt64 ts - lastTs))).length

/-- What `Add` appends. -/
def PageEntry.write (last : LastEntry) (e : PageEntry) : List UInt8 :=
  let shared := sharedLength last.key e.key
  varint 5 shared ++ (varint 5 (e.key.length - shared) ++ (varint 5 e.storedValLen ++
    (e.key.drop shared ++ (e.value ++
      ((if e.expireTs = 0 then [] else varint 10 e.expireTs.toNat) ++
        varint 10 (encodeInt64Delta (clampTimestampToInt64 e.timestamp - last.timestamp)))))))

def dataFormat : Format PageEntry LastEntry where
  start := ⟨[], 0⟩
  after e := ⟨e.key, clampTimestampToInt64 e.timestamp⟩
  write := PageEntry.write

namespace DataPageBuilder

abbrev State := Builder LastEntry

def headerSize : ℕ := 8 + 1 + 2 + 4 * 2

/-- The header of a new page: all zero but for its type, `PageType::Data`. -/
def header : List UInt8 := .replicate 8 0 ++ (2 :: .replicate 10 0)

def reset : State := ⟨header, [headerSize], 0, ⟨[], 0⟩⟩

variable (opts : PageOptions) (b : State)

def currentSizeEstimate : ℕ := b.buffer.length + b.restarts.length * 2 + 2

def needRestart : Bool :=
  decide (opts.dataPageRestartInterval ≤ b.counter)

def add (e : PageEntry) : Option State :=
  let delta := calculateDelta e.key e.storedValLen e.timestamp e.expireTs b.last.key
    b.last.timestamp (needRestart opts b)
  if opts.dataPageSize < currentSizeEstimate b + delta then none
  else some (b.append dataFormat (needRestart opts b) e)

def finish : List UInt8 :=
  RestartPage.finish opts.dataPageSize b.buffer b.restarts

def isOverflowKV (key : Key) (valSize : ℕ) (ts expireTs : UInt64) : Bool :=
  let reserved := headerSize + 2 * 2
  if opts.dataPageSize < reserved + valSize then true
  else
    decide (opts.dataPageSize < reserved + calculateDelta key (16 * valSize) ts expireTs [] 0 false)

/-- The entries are added one after the other, and none is refused. -/
def addAll (es : List PageEntry) : Option State := es.foldlM (add opts) reset

end DataPageBuilder

/-! ### Sizes -/

theorem PageEntry.storedValLen_div (e : PageEntry) : e.storedValLen / 16 = e.value.length := by
  have := e.markers_lt
  rw [storedValLen]
  omega

/-- **The size is known before the entry is written.** -/
theorem calculateDelta_eq (e : PageEntry) (last : LastEntry) (restart : Bool) :
    calculateDelta e.key e.storedValLen e.timestamp e.expireTs last.key last.timestamp restart =
      (if restart then 2 else 0) +
        (dataFormat.write (if restart then dataFormat.start else last) e).length := by
  rw [calculateDelta, e.storedValLen_div]
  cases restart <;> by_cases hexp : e.expireTs = 0 <;>
    simp [dataFormat, PageEntry.write, sharedLength, hexp] <;> omega

namespace DataPageBuilder

variable {opts : PageOptions} {es : List PageEntry} {b b' : State} {e : PageEntry}

theorem currentSizeEstimate_eq (b : State) :
    currentSizeEstimate b = (content b.buffer b.restarts).length :=
  (length_content _ _).symm

/-- **What an entry that is added does.** -/
theorem add_eq_some : add opts b e = some b' ↔ b' = b.append dataFormat (needRestart opts b) e ∧
    currentSizeEstimate b' ≤ opts.dataPageSize := by
  have hsize : currentSizeEstimate (b.append dataFormat (needRestart opts b) e) =
      currentSizeEstimate b + calculateDelta e.key e.storedValLen e.timestamp e.expireTs b.last.key
        b.last.timestamp (needRestart opts b) := by
    rw [calculateDelta_eq]
    simp only [currentSizeEstimate, Builder.append, length_append]
    split <;> simp <;> omega
  rw [add, Option.ite_none_left_eq_some, not_lt, ← hsize]
  constructor
  · rintro ⟨hle, ⟨⟩⟩
    exact ⟨rfl, hle⟩
  · rintro ⟨rfl, hle⟩
    exact ⟨hle, rfl⟩

theorem length_varint_markers (n : ℕ) {m : ℕ} (hm : m < 16) :
    (varint 5 (16 * n + m)).length = (varint 5 (16 * n)).length := by
  have hbytes : ∀ k, varint 5 k = if k < 128 then [UInt8.ofNat k]
    else UInt8.ofNat (k % 128 + 128) :: varint 4 (k / 128) := fun _ ↦ rfl
  have hdiv : (16 * n + m) / 128 = 16 * n / 128 := by omega
  rw [hbytes, hbytes (16 * n), hdiv]
  by_cases h : 16 * n < 128
  · rw [if_pos h, if_pos (by omega)]
    rfl
  · rw [if_neg h, if_neg (by omega), length_cons, length_cons]

/-- The bytes of an entry that is written in full. -/
def fullSize (e : PageEntry) : ℕ := (dataFormat.write dataFormat.start e).length

theorem calculateDelta_value (e : PageEntry) :
    calculateDelta e.key (16 * e.value.length) e.timestamp e.expireTs [] 0 false = fullSize e := by
  have hfull : calculateDelta e.key e.storedValLen e.timestamp e.expireTs [] 0 false =
      0 + fullSize e := calculateDelta_eq e dataFormat.start false
  have hvarint : (varint 5 e.storedValLen).length = (varint 5 (16 * e.value.length)).length :=
    length_varint_markers _ e.markers_lt
  have hdiv : 16 * e.value.length / 16 = e.value.length := by omega
  rw [← Nat.zero_add (fullSize e), ← hfull]
  simp only [calculateDelta, hvarint, hdiv, e.storedValLen_div]

/-- **`IsOverflowKV`** is about the bytes of the entry; its fast path makes no difference. -/
theorem isOverflowKV_eq_true :
    isOverflowKV opts e.key e.value.length e.timestamp e.expireTs = true ↔
      opts.dataPageSize < 23 + fullSize e := by
  have hvalue : e.value.length ≤ fullSize e := by
    show _ ≤ (PageEntry.write _ e).length
    simp only [PageEntry.write, length_append]
    omega
  rw [isOverflowKV, calculateDelta_value]
  show (if opts.dataPageSize < 23 + e.value.length then true else _) = true ↔ _
  split
  · next hlt => exact ⟨fun _ ↦ by omega, fun _ ↦ rfl⟩
  · exact decide_eq_true_iff

/-- **The first entry of a page**: without a restart interval it gets a restart point of its own, in
addition to the one each page has. -/
theorem add_reset_eq_none : add opts reset e = none ↔ opts.dataPageSize <
    23 + fullSize e + if opts.dataPageRestartInterval = 0 then 2 else 0 := by
  have hdelta : calculateDelta e.key e.storedValLen e.timestamp e.expireTs [] 0
      (needRestart opts reset) =
        (if opts.dataPageRestartInterval = 0 then 2 else 0) + fullSize e := by
    have hrestart : needRestart opts reset = decide (opts.dataPageRestartInterval = 0) :=
      decide_eq_decide.2 Nat.le_zero
    have h := calculateDelta_eq e dataFormat.start (needRestart opts reset)
    rw [show calculateDelta _ _ _ _ [] 0 _ = _ from h, hrestart]
    simp [fullSize]
  have hadd : add opts reset e = none ↔ opts.dataPageSize < 23 + calculateDelta e.key e.storedValLen
      e.timestamp e.expireTs [] 0 (needRestart opts reset) := by
    show (if _ then none else some _) = none ↔ _
    rw [ite_eq_left_iff]
    exact ⟨fun h ↦ by_contra fun hlt ↦ (nomatch h hlt), absurd⟩
  rw [hadd, hdelta]
  omega

/-- **`IsOverflowKV` foretells `Add`**, exactly if there is a restart interval or the entry does not
fill the page to the last byte but one. **A page that entries have been added to fits**; one without
entries fits if there is room for its header. -/
theorem isOverflowKV_iff_add_eq_none (opts : PageOptions) (e : PageEntry) :
    ((isOverflowKV opts e.key e.value.length e.timestamp e.expireTs = true ↔
        add opts reset e = none) ↔
      opts.dataPageRestartInterval ≠ 0 ∨
        ¬(23 + fullSize e ≤ opts.dataPageSize ∧ opts.dataPageSize < 25 + fullSize e)) ∧
    ∀ es b, addAll opts es = some b → ((content b.buffer b.restarts).length ≤ opts.dataPageSize ↔
      es ≠ [] ∨ 23 ≤ opts.dataPageSize) := by
  constructor
  · rw [isOverflowKV_eq_true, add_reset_eq_none]
    split <;> omega
  · intro es b hadd
    rw [← currentSizeEstimate_eq]
    obtain rfl | ⟨init, last, rfl⟩ := es.eq_nil_or_concat
    · cases hadd
      exact ⟨.inr, fun h ↦ h.resolve_left fun hne ↦ hne rfl⟩
    · rw [addAll, concat_eq_append, foldlM_append] at hadd
      obtain ⟨b₀, -, hadd⟩ := Option.bind_eq_some_iff.1 hadd
      obtain ⟨b₁, hb₁, hadd⟩ := Option.bind_eq_some_iff.1 hadd
      cases hadd
      exact ⟨fun _ ↦ .inl (by simp), fun _ ↦ (add_eq_some.1 hb₁).2⟩

/-- An entry with a key of one byte and a value of zeros. -/
def zeros (n : ℕ) : PageEntry := ⟨[1], .replicate n 0, false, 0, 0, .none, false⟩

/-- With a restart interval the largest entry that `IsOverflowKV` lets pass is added. -/
theorem isOverflowKV_iff_add_zeros : (pageOptions 16).dataPageRestartInterval ≠ 0 ∧
    (isOverflowKV (pageOptions 16) (zeros 4066).key (zeros 4066).value.length 0 0 = true ↔
      add (pageOptions 16) reset (zeros 4066) = none) :=
  ⟨by decide, (isOverflowKV_iff_add_eq_none (pageOptions 16) (zeros 4066)).1.2 (.inl (by decide))⟩

/-- **Without one it is not.** -/
theorem overflow_not_foretold : (pageOptions 0).Valid ∧
    isOverflowKV (pageOptions 0) (zeros 4066).key (zeros 4066).value.length 0 0 = false ∧
    add (pageOptions 0) reset (zeros 4066) = none := by
  have hsize : fullSize (zeros 4066) = 4073 := by
    have hvarint : (varint 5 (zeros 4066).storedValLen).length = 3 := by
      rw [PageEntry.storedValLen, zeros, length_replicate]
      decide
    simp only [fullSize, dataFormat, PageEntry.write, length_append, hvarint]
    simp only [zeros, length_replicate]
    decide
  refine ⟨by decide, Bool.eq_false_iff.2 fun h ↦ ?_, add_reset_eq_none.2 ?_⟩
  · exact absurd (isOverflowKV_eq_true.1 h) (by rw [hsize]; decide)
  · rw [hsize]
    decide

end DataPageBuilder

end EloqStore
