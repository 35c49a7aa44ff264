import Mathlib.Data.Nat.Bitwise

/-!
# Where a page lies in the files

A file page id is the id of a file and, in its lowest bits, the place of the page in that file. The
offset of the page is computed in 32 bits, and nothing bounds the number of pages of a file and the
size of a page together. Pages of one file overlap as soon as the offset of the last one needs more
bits, and a page size of zero, which is accepted outside the cloud mode, puts all pages of a file in
one place; otherwise everything has a place of its own (`FileOptions.placed_iff`).
-/

namespace EloqStore

/-- The options that place pages and segments in files. -/
structure FileOptions where
  dataPageSize : UInt16
  pagesPerFileShift : UInt8
  segmentSize : UInt32
  segmentsPerFileShift : UInt8
  /-- There is a `cloud_store_path`. -/
  cloud : Bool
deriving DecidableEq, Repr

/-- `x << shift` for a number of 64 bits; no more than 63 places are defined. -/
def fileSize (size shift : ℕ) : Option ℕ :=
  if shift < 64 then some (size * 2 ^ shift % 2 ^ 64) else none

/-- The file and the offset of an id. The mask is `(1 << shift) - 1` in a type with room for `w`
bits, undefined for more places; the product is cut to 32 bits. -/
def convId (w shift size id : ℕ) : Option (ℕ × ℕ) :=
  if shift < w then some (id >>> shift, (id &&& (2 ^ shift - 1)) * size % 2 ^ 32) else none

namespace FileOptions

variable (opts : FileOptions)

def dataFileSize : Option ℕ := fileSize opts.dataPageSize.toNat opts.pagesPerFileShift.toNat

def segmentFileSize : Option ℕ := fileSize opts.segmentSize.toNat opts.segmentsPerFileShift.toNat

/-- What `ValidateOptions` asks of them. -/
def validateOptions : Bool :=
  decide (opts.dataPageSize.toNat % 4096 = 0 ∧ opts.segmentSize.toNat % 4096 = 0 ∧
    opts.segmentSize ≠ 0 ∧ (opts.cloud = true → ∀ n ∈ opts.dataFileSize, n ≠ 0))

/-- `IouringMgr::ConvFilePageId`; the mask is an `int`. -/
def convFilePageId : ℕ → Option (ℕ × ℕ) :=
  convId 31 opts.pagesPerFileShift.toNat opts.dataPageSize.toNat

/-- `IouringMgr::ConvFileSegmentId`. -/
def convFileSegmentId : ℕ → Option (ℕ × ℕ) :=
  convId 31 opts.segmentsPerFileShift.toNat opts.segmentSize.toNat

/-- `WriteTask::ConvFilePageId`; the mask is a `uint32_t`. -/
def writeConvFilePageId : ℕ → Option (ℕ × ℕ) :=
  convId 32 opts.pagesPerFileShift.toNat opts.dataPageSize.toNat

end FileOptions

/-! ### Placing -/

/-- **Every id has a place of its own** inside a file. -/
structure OwnPlaces (conv : ℕ → Option (ℕ × ℕ)) (size : ℕ) (fileSize : Option ℕ) : Prop where
  inside : ∀ id < 2 ^ 64, ∃ file offset n, conv id = some (file, offset) ∧ fileSize = some n ∧
    offset + size ≤ n
  /-- Different ids are at different places. -/
  injective : ∀ id < 2 ^ 64, ∀ id' < 2 ^ 64, conv id = conv id' → id = id'
  disjoint : ∀ id < 2 ^ 64, ∀ id' < 2 ^ 64, id ≠ id' → ∀ file offset offset',
    conv id = some (file, offset) → conv id' = some (file, offset') →
      offset + size ≤ offset' ∨ offset' + size ≤ offset

/-- The mask is defined, the offset of the last page fits, and a page is not empty. -/
def Fitting (shift size : ℕ) : Prop :=
  shift < 31 ∧ (2 ^ shift - 1) * size < 2 ^ 32 ∧ (0 < size ∨ shift = 0)

instance (shift size : ℕ) : Decidable (Fitting shift size) :=
  inferInstanceAs (Decidable (_ ∧ _ ∧ _))

variable {w shift size id id' : ℕ}

theorem convId_eq (hshift : shift < w) (hfit : (2 ^ shift - 1) * size < 2 ^ 32) (id : ℕ) :
    convId w shift size id = some (id / 2 ^ shift, id % 2 ^ shift * size) := by
  have hlt := Nat.mod_lt id (Nat.two_pow_pos shift)
  have hle : id % 2 ^ shift * size ≤ (2 ^ shift - 1) * size := Nat.mul_le_mul_right _ (by omega)
  rw [convId, if_pos hshift, Nat.shiftRight_eq_div_pow, Nat.and_two_pow_sub_one_eq_mod,
    Nat.mod_eq_of_lt (hle.trans_lt hfit)]

/-- In a file whose last offset fits, all pages have their places. -/
theorem placed_of_fitting (hsize : size < 2 ^ 32) (h : Fitting shift size) :
    OwnPlaces (convId 31 shift size) size (fileSize size shift) := by
  obtain ⟨hshift, hfit, hpos⟩ := h
  have hconv := convId_eq hshift hfit
  have hle : 2 ^ shift ≤ 2 ^ 30 := Nat.pow_le_pow_right (by decide) (by omega)
  refine ⟨fun id _ ↦ ⟨_, _, _, hconv id, if_pos (by omega), ?_⟩, fun id _ id' _ heq ↦ ?_,
    fun id _ id' _ hne file offset offset' heq heq' ↦ ?_⟩
  · have hlt := Nat.mod_lt id (Nat.two_pow_pos shift)
    have hprod : size * 2 ^ shift < 2 ^ 64 :=
      (Nat.mul_le_mul_left size hle).trans_lt (by omega)
    rw [Nat.mod_eq_of_lt hprod, Nat.mul_comm size, ← Nat.succ_mul]
    exact Nat.mul_le_mul_right _ hlt
  · rw [hconv, hconv, Option.some.injEq, Prod.mk.injEq] at heq
    obtain ⟨hfile, hoffset⟩ := heq
    obtain hpos | rfl := hpos
    · have hrest := Nat.eq_of_mul_eq_mul_right hpos hoffset
      rw [← Nat.div_add_mod id (2 ^ shift), hfile, hrest, Nat.div_add_mod]
    · simpa using hfile
  · rw [hconv, Option.some.injEq, Prod.mk.injEq] at heq heq'
    obtain ⟨rfl, rfl⟩ := heq
    obtain ⟨hfile, rfl⟩ := heq'
    have hrest : id % 2 ^ shift ≠ id' % 2 ^ shift := fun hrest ↦ hne (by
      rw [← Nat.div_add_mod id (2 ^ shift), ← hfile, hrest, Nat.div_add_mod])
    rw [← Nat.succ_mul, ← Nat.succ_mul]
    exact (Nat.lt_or_gt_of_ne hrest).imp (Nat.mul_le_mul_right size ·)
      (Nat.mul_le_mul_right size ·)

/-- If the last offset does not fit, the first page whose offset is cut meets the first page. -/
theorem exists_cut (hsize : 0 < size) (hlt : size < 2 ^ 32)
    (hcut : 2 ^ 32 ≤ (2 ^ shift - 1) * size) :
    ∃ r, 0 < r ∧ r < 2 ^ shift ∧ r * size % 2 ^ 32 < size := by
  have hdiv := Nat.div_add_mod (2 ^ 32 - 1) size
  have hmod := Nat.mod_lt (2 ^ 32 - 1) hsize
  have hr : ((2 ^ 32 - 1) / size + 1) * size = (2 ^ 32 - 1) / size * size + size := Nat.succ_mul _ _
  rw [Nat.mul_comm size] at hdiv
  refine ⟨(2 ^ 32 - 1) / size + 1, Nat.succ_pos _, ?_, by omega⟩
  have hq : (2 ^ 32 - 1) / size < 2 ^ shift - 1 := (Nat.div_lt_iff_lt_mul hsize).2 (by omega)
  exact Nat.lt_sub_iff_add_lt.1 hq

theorem fitting_of_placed (hlt : size < 2 ^ 32)
    (h : OwnPlaces (convId 31 shift size) size (fileSize size shift)) : Fitting shift size := by
  obtain ⟨_, _, _, hzero, -, -⟩ := h.inside 0 (by decide)
  obtain ⟨hshift, -⟩ := Option.ite_none_right_eq_some.1 hzero
  have hle : 2 ^ shift ≤ 2 ^ 30 := Nat.pow_le_pow_right (by decide) (by omega)
  have hconv {r : ℕ} (hr : r < 2 ^ shift) :
      convId 31 shift size r = some (0, r * size % 2 ^ 32) := by
    rw [convId, if_pos hshift, Nat.shiftRight_eq_div_pow, Nat.div_eq_of_lt hr,
      Nat.and_two_pow_sub_one_eq_mod, Nat.mod_eq_of_lt hr]
  have hfirst := hconv (Nat.two_pow_pos shift)
  refine ⟨hshift, ?_, ?_⟩
  · by_contra hcut
    have hsize : 0 < size := by
      refine Nat.pos_of_ne_zero fun h0 ↦ hcut ?_
      rw [h0, Nat.mul_zero]
      decide
    obtain ⟨r, hpos, hr, hmeet⟩ := exists_cut hsize hlt (not_lt.1 hcut)
    have hdisjoint := h.disjoint 0 (by decide) r (by omega) (by omega) _ _ _ hfirst (hconv hr)
    omega
  · by_contra hempty
    obtain rfl : size = 0 := by omega
    have hone : 1 < 2 ^ shift := Nat.one_lt_two_pow (by omega)
    exact absurd (h.injective 0 (by decide) 1 (by decide) (hfirst.trans (hconv hone).symm))
      (by decide)

namespace FileOptions

/-- **Pages and segments have places of their own**, which the write task and the reader agree on,
exactly when the offsets of the last ones fit into 32 bits and a page is not empty. -/
theorem placed_iff (opts : FileOptions) :
    ((∀ id < 2 ^ 64, opts.writeConvFilePageId id = opts.convFilePageId id) ∧
      OwnPlaces opts.convFilePageId opts.dataPageSize.toNat opts.dataFileSize ∧
      OwnPlaces opts.convFileSegmentId opts.segmentSize.toNat opts.segmentFileSize) ↔
    Fitting opts.pagesPerFileShift.toNat opts.dataPageSize.toNat ∧
      Fitting opts.segmentsPerFileShift.toNat opts.segmentSize.toNat := by
  have hpage : opts.dataPageSize.toNat < 2 ^ 32 :=
    opts.dataPageSize.toNat_lt.trans (by decide)
  have hsegment := opts.segmentSize.toNat_lt
  refine ⟨fun ⟨_, hdata, hsegments⟩ ↦ ⟨fitting_of_placed hpage hdata,
    fitting_of_placed hsegment hsegments⟩, fun ⟨hdata, hsegments⟩ ↦ ⟨fun id _ ↦ ?_,
    placed_of_fitting hpage hdata, placed_of_fitting hsegment hsegments⟩⟩
  exact (convId_eq (Nat.lt_succ_of_lt hdata.1) hdata.2.1 id).trans
    (convId_eq hdata.1 hdata.2.1 id).symm

/-- **Accepted options that put two pages in one place**: the first page of a file and the first one
whose offset is cut. -/
theorem accepted_pages_overlap : ∃ opts : FileOptions, opts.validateOptions = true ∧
    opts.dataPageSize = 61440 ∧ opts.pagesPerFileShift = 18 ∧
      ¬ OwnPlaces opts.convFilePageId opts.dataPageSize.toNat opts.dataFileSize := by
  refine ⟨⟨61440, 18, 262144, 7, false⟩, by decide, rfl, rfl, fun h ↦ ?_⟩
  have hdisjoint := h.disjoint 0 (by decide) 69906 (by decide) (by decide) 0 0 57344 rfl rfl
  exact absurd hdisjoint (by decide)

end FileOptions

end EloqStore
