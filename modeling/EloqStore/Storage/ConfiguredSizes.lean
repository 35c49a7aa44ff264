import EloqStore.Cloud.FileNames
import EloqStore.Storage.FileLayout

/-!
# The sizes of a configuration file

`data_page_size` and `data_file_size` are read from strings such as `4KB` and `8 MB`. A string that
is no number is read as zero and replaced by a default, a product that is too large is cut to 64
bits, and what is read is cut again, to 16 bits for the page and to 32 bits for the file, before one
is divided by the other. None of this is an error.

What is loaded is what the strings denote exactly when the page has between 1 and `2 ^ 16 - 1` bytes
and the file at least a page and less than `2 ^ 32` bytes (`IniSizes.load_iff`).
-/

namespace EloqStore

open Option

/-! ### Strings -/

/-- Without the white space at the end. -/
def trimEnd (s : List Char) : List Char := (s.reverse.dropWhile isCSpace).reverse

def unitOf : Char → Option ℕ
  | 'K' => some (2 ^ 10)
  | 'M' => some (2 ^ 20)
  | 'G' => some (2 ^ 30)
  | 'T' => some (2 ^ 40)
  | _ => none

/-- What stands before the unit, and the factor. -/
def splitUnit (s : List Char) : List Char × ℕ :=
  match s.reverse with
  | c₂ :: c₁ :: rest =>
    match if c₂.toUpper = 'B' then unitOf c₁.toUpper else none with
    | some mul => (rest.reverse, mul)
    | none => (s, 1)
  | _ => (s, 1)

/-- The digits and the factor of a size. -/
def sizeParts (s : List Char) : List Char × ℕ :=
  let parts := splitUnit (trimEnd (s.dropWhile isCSpace))
  (trimEnd parts.1, parts.2)

def parseSizeWithUnit (s : List Char) : ℕ :=
  ((parseDigits (sizeParts s).1).map (· * (sizeParts s).2 % 2 ^ 64)).getD 0

/-- **What a size string denotes**, if it is a number with or without a unit. -/
def denotedSize (s : List Char) : Option ℕ :=
  if (sizeParts s).1.isEmpty || !(sizeParts s).1.all Char.isDigit then none
  else some (Nat.ofDigitChars 10 (sizeParts s).1 0 * (sizeParts s).2)

theorem splitUnit_pos (s : List Char) : 0 < (splitUnit s).2 := by
  rw [splitUnit]
  split
  · split
    · next h =>
      obtain ⟨-, h⟩ := ite_none_right_eq_some.1 h
      unfold unitOf at h
      split at h <;> cases h <;> exact Nat.two_pow_pos _
    · exact Nat.one_pos
  · exact Nat.one_pos

theorem parseSizeWithUnit_of_denotedSize {s : List Char} {n : ℕ} (h : denotedSize s = some n)
    (hn : n < 2 ^ 64) : parseSizeWithUnit s = n := by
  obtain ⟨hdigits, h⟩ := ite_none_left_eq_some.1 h
  cases h
  have hle := Nat.le_mul_of_pos_right (Nat.ofDigitChars 10 (sizeParts s).1 0)
    (splitUnit_pos (trimEnd (s.dropWhile isCSpace)))
  rw [parseSizeWithUnit, parseDigits, if_neg hdigits, if_pos (hle.trans_lt hn)]
  exact Nat.mod_eq_of_lt hn

/-! ### Loading -/

/-- The two keys of the configuration. -/
structure IniSizes where
  dataPageSize : Option (List Char)
  dataFileSize : Option (List Char)
deriving DecidableEq, Repr

namespace IniSizes

/-- The parsed size, or a default in the place of zero. -/
def parsedOr (default : ℕ) (s : List Char) : ℕ :=
  if parseSizeWithUnit s > 0 then parseSizeWithUnit s else default

/-- `data_page_size` after loading. -/
def pageSize (ini : IniSizes) (old : UInt16) : UInt16 :=
  (ini.dataPageSize.map fun s ↦ UInt16.ofNat (parsedOr 4096 s)).getD old

/-- `pages_per_file_shift` after loading; `none` is a division by zero. -/
def fileShift (ini : IniSizes) (page : UInt16) (old : UInt8) : Option UInt8 :=
  match ini.dataFileSize with
  | none => some old
  | some s =>
    let dataFileSize := parsedOr (8 * 2 ^ 20) s % 2 ^ 32
    if page = 0 then none
    else
      let pagesPerFile := dataFileSize / page.toNat
      some (if pagesPerFile = 0 then 0 else UInt8.ofNat pagesPerFile.log2)

/-- `LoadFromIni`. -/
def load (ini : IniSizes) (old : FileOptions) : Option FileOptions :=
  let page := ini.pageSize old.dataPageSize
  (ini.fileShift page old.pagesPerFileShift).map fun shift ↦
    { old with dataPageSize := page, pagesPerFileShift := shift }

/-- **The options are what the strings denote**, a file rounded down to a power of two of pages. -/
def Denoted (ini : IniSizes) (opts : FileOptions) : Prop :=
  (∀ s ∈ ini.dataPageSize, denotedSize s = some opts.dataPageSize.toNat) ∧
  ∀ s ∈ ini.dataFileSize, ∃ n, denotedSize s = some n ∧
    opts.dataPageSize.toNat * 2 ^ opts.pagesPerFileShift.toNat ≤ n ∧
    n < opts.dataPageSize.toNat * 2 ^ (opts.pagesPerFileShift.toNat + 1)

/-- The sizes fit: the page into 16 bits, the file into 32 bits, and a page into the file. -/
def Fits (ini : IniSizes) (old : FileOptions) : Prop :=
  (∀ s ∈ ini.dataPageSize, ∃ n, denotedSize s = some n ∧ 0 < n ∧ n < 2 ^ 16) ∧
  ∀ s ∈ ini.dataFileSize, ∃ n, denotedSize s = some n ∧ n < 2 ^ 32 ∧
    0 < (ini.pageSize old.dataPageSize).toNat ∧ (ini.pageSize old.dataPageSize).toNat ≤ n

variable {ini : IniSizes} {old opts : FileOptions} {s : List Char} {n : ℕ}

theorem parsedOr_of_denotedSize {default : ℕ} (h : denotedSize s = some n) (hpos : 0 < n)
    (hn : n < 2 ^ 64) : parsedOr default s = n := by
  rw [parsedOr, parseSizeWithUnit_of_denotedSize h hn, if_pos hpos]

/-- The page is what its string denotes if it fits. -/
theorem pageSize_iff (old : FileOptions) (h : s ∈ ini.dataPageSize) :
    denotedSize s = some (ini.pageSize old.dataPageSize).toNat ↔
      ∃ n, denotedSize s = some n ∧ 0 < n ∧ n < 2 ^ 16 := by
  have hpage : (ini.pageSize old.dataPageSize).toNat = parsedOr 4096 s % 2 ^ 16 := by
    rw [pageSize, mem_def.1 h, map_some, getD_some]
    exact UInt16.toNat_ofNat'
  refine ⟨fun hs ↦ ⟨_, hs, Nat.pos_of_ne_zero fun h0 ↦ ?_, (ini.pageSize _).toNat_lt⟩,
    fun ⟨n, hs, hpos, hn⟩ ↦ ?_⟩
  · -- zero would have been replaced
    rw [h0] at hs
    rw [h0, parsedOr, parseSizeWithUnit_of_denotedSize hs (by decide)] at hpage
    exact absurd hpage (by decide)
  · rw [hpage, parsedOr_of_denotedSize hs hpos (by omega), Nat.mod_eq_of_lt hn, hs]

section

variable {page : UInt16} {shift old : UInt8} (h : s ∈ ini.dataFileSize)
    (hshift : ini.fileShift page old = some shift)

include h hshift

/-- The shift is that of the largest power of two of pages that the file holds, or zero. -/
theorem fileShift_bounds :
    0 < page.toNat ∧
      page.toNat * 2 ^ shift.toNat ≤ max (parsedOr (8 * 2 ^ 20) s % 2 ^ 32) page.toNat ∧
      parsedOr (8 * 2 ^ 20) s % 2 ^ 32 < page.toNat * 2 ^ (shift.toNat + 1) := by
  rw [fileShift, mem_def.1 h] at hshift
  obtain ⟨hpage, hshift⟩ := ite_none_left_eq_some.1 hshift
  have hpos : 0 < page.toNat := Nat.pos_of_ne_zero fun h0 ↦ hpage (UInt16.toNat_inj.1 h0)
  cases hshift
  generalize hD : parsedOr (8 * 2 ^ 20) s % 2 ^ 32 = D
  have hlt : D < 2 ^ 32 := hD ▸ Nat.mod_lt _ (by decide)
  have hdiv := Nat.lt_mul_div_succ D hpos
  refine ⟨hpos, ?_⟩
  by_cases hq : D / page.toNat = 0
  · rw [if_pos hq]
    rw [hq] at hdiv
    refine ⟨(Nat.mul_one _).le.trans (Nat.le_max_right _ _), Nat.lt_of_lt_of_le hdiv ?_⟩
    exact Nat.mul_le_mul_left _ (by decide)
  · have hlog : (D / page.toNat).log2 < 32 :=
      (Nat.log2_lt hq).2 ((Nat.div_le_self _ _).trans_lt hlt)
    have htoNat : (UInt8.ofNat (D / page.toNat).log2).toNat = (D / page.toNat).log2 :=
      UInt8.toNat_ofNat_of_lt' (hlog.trans (by decide))
    rw [if_neg hq, htoNat]
    refine ⟨Nat.le_trans ?_ (Nat.le_max_left _ _), Nat.lt_of_lt_of_le hdiv ?_⟩
    · exact (Nat.mul_le_mul_left _ (Nat.log2_self_le hq)).trans (Nat.mul_div_le D _)
    · exact Nat.mul_le_mul_left _ Nat.lt_log2_self

/-- The file is what its string denotes if it fits and holds a page. -/
theorem fileShift_iff :
    (∃ n, denotedSize s = some n ∧ page.toNat * 2 ^ shift.toNat ≤ n ∧
        n < page.toNat * 2 ^ (shift.toNat + 1)) ↔
      ∃ n, denotedSize s = some n ∧ n < 2 ^ 32 ∧ 0 < page.toNat ∧ page.toNat ≤ n := by
  obtain ⟨hpos, hle, hlt⟩ := fileShift_bounds h hshift
  have hpage := page.toNat_lt
  have hbase := Nat.le_mul_of_pos_right page.toNat (Nat.two_pow_pos shift.toNat)
  have hmod := Nat.mod_lt (parsedOr (8 * 2 ^ 20) s) (y := 2 ^ 32) (by decide)
  have hsucc : page.toNat * 2 ^ (shift.toNat + 1) = 2 * (page.toNat * 2 ^ shift.toNat) := by
    rw [pow_succ, ← Nat.mul_assoc, Nat.mul_comm]
  rw [hsucc] at hlt ⊢
  refine ⟨fun ⟨n, hs, hge, hn⟩ ↦ ⟨n, hs, ?_, hpos, hbase.trans hge⟩,
    fun ⟨n, hs, hn, _, hge⟩ ↦ ⟨n, hs, ?_⟩⟩
  · rw [parsedOr_of_denotedSize hs (by omega) (by omega)] at hle hlt hmod
    omega
  · rw [parsedOr_of_denotedSize hs (by omega) (by omega), Nat.mod_eq_of_lt hn] at hle hlt
    omega

end

theorem denoted_iff (h : ini.load old = some opts) : ini.Denoted opts ↔ ini.Fits old := by
  obtain ⟨shift, hshift, rfl⟩ := map_eq_some_iff.1 h
  refine and_congr ?_ ?_
  · exact forall₂_congr fun s hs ↦ pageSize_iff old hs
  · exact forall₂_congr fun s hs ↦ fileShift_iff hs hshift

theorem exists_load (h : ini.Fits old) : ∃ opts, ini.load old = some opts := by
  cases hfile : ini.dataFileSize with
  | none => exact ⟨_, by rw [load, fileShift, hfile]; rfl⟩
  | some s =>
    obtain ⟨-, -, -, hpos, -⟩ := h.2 s hfile
    have hpage : ini.pageSize old.dataPageSize ≠ 0 := fun h0 ↦ by
      rw [h0] at hpos
      exact absurd hpos (by decide)
    exact ⟨_, by rw [load, fileShift, hfile]; dsimp only; rw [if_neg hpage]; rfl⟩

/-- **Loading gives what the strings denote, without a division by zero, exactly when the sizes
fit**, options that are rejected afterwards apart. -/
theorem load_iff (ini : IniSizes) (old : FileOptions) :
    (∃ opts, ini.load old = some opts ∧ (opts.validateOptions = true → ini.Denoted opts)) ↔
      ini.Fits old ∨ ∃ opts, ini.load old = some opts ∧ opts.validateOptions = false := by
  constructor
  · rintro ⟨opts, hload, h⟩
    cases hvalid : opts.validateOptions with
    | false => exact .inr ⟨opts, hload, hvalid⟩
    | true => exact .inl ((denoted_iff hload).1 (h hvalid))
  · rintro (h | ⟨opts, hload, hvalid⟩)
    · obtain ⟨opts, hload⟩ := exists_load h
      exact ⟨opts, hload, fun _ ↦ (denoted_iff hload).2 h⟩
    · exact ⟨opts, hload, fun h ↦ nomatch hvalid.symm.trans h⟩

/-- **A page of 68 KB is loaded as one of 4 KB and accepted, and one of 64 KB makes the file size be
divided by zero.** -/
theorem wrong_sizes_loaded : ∃ old : FileOptions, old.dataPageSize = 4096 ∧
    (∃ opts, load ⟨some "68KB".toList, none⟩ old = some opts ∧ opts.validateOptions = true ∧
      opts.dataPageSize = 4096 ∧ denotedSize "68KB".toList = some 69632) ∧
    load ⟨some "64KB".toList, some "8MB".toList⟩ old = none :=
  ⟨⟨4096, 18, 262144, 7, false⟩, rfl, ⟨_, rfl, by decide, by decide, by decide⟩, by decide⟩

end IniSizes

end EloqStore
