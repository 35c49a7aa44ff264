import EloqStore.Partition.DeleteBranch

/-!
# The names of the files of a store

A data file is named `data_<id>_<branch>_<term>`, a segment file `segment_<id>_<branch>_<term>`, a
manifest `manifest_<branch>_<term>`, an archive `manifest_<branch>_<term>_<tag>`, and the file with
the term of a branch in a partition group `CURRENT_TERM_<branch>_<group>`.

`StoreFile.readings` has what the parsers make of a name. It is the file the name was built from and
nothing else, but for manifests and archives of a branch whose name reads as a number: those no
parser accepts (`StoreFile.readings_name_iff`).
-/

namespace EloqStore

open List ManifestName Option

/-! ### Building names -/

/-- A file of a store, with what its name carries. -/
inductive StoreFile
  | file (f : FileName)
  /-- A manifest or, with a tag, an archive. -/
  | manifest (n : ManifestName)
  | currentTerm (branch : BranchName) (pgId : ℕ)
deriving DecidableEq, Repr

/-- `FileNameData` and `FileNameSegment`. -/
def FileClass.typeName : FileClass → List Char
  | .data => "data".toList
  | .segment => "segment".toList

def fileNameManifest : List Char := "manifest".toList

namespace StoreFile

def branch : StoreFile → BranchName
  | .file f => f.owner.branchName
  | .manifest n => n.branch
  | .currentTerm branch _ => branch

/-- The same file with its branch in lower case. -/
def normalized : StoreFile → StoreFile
  | .file ⟨fid, branch, term⟩ => .file ⟨fid, normalizeBranchName branch, term⟩
  | .manifest n => .manifest { n with branch := normalizeBranchName n.branch }
  | .currentTerm branch pgId => .currentTerm (normalizeBranchName branch) pgId

/-- `BranchDataFileName`, `SegmentFileName`, `BranchManifestFileName`, `BranchArchiveName` and
`CurrentTermFileNameForBranchAndPartitionGroup`. -/
def name (f : StoreFile) : List Char :=
  if normalizeBranchName f.branch = "" then []
  else match f with
    | .file f => f.fid.cls.typeName ++ fileNameSeparator :: dataFileSuffix f
    | .manifest n => fileNameManifest ++ fileNameSeparator :: n.suffix
    | .currentTerm branch pgId =>
      currentTermFileName ++ fileNameSeparator ::
        ((normalizeBranchName branch).toList ++ fileNameSeparator :: Nat.toDigits 10 pgId)

end StoreFile

/-! ### Parsing names -/

def parseFileName (name : List Char) : List Char × List Char :=
  (splitAtSeparator name).getD (name, [])

/-- `ParseDataFileSuffix`, which `ParseSegmentFileSuffix` is as well. -/
def parseDataFileSuffix (suffix : List Char) : Option (ℕ × BranchName × ℕ) :=
  (splitAtSeparator suffix).bind fun (idStr, rest) ↦
    (splitAtSeparator rest).bind fun (branchStr, termStr) ↦
      (parseUint64 idStr).bind fun fileId ↦
        if isValidBranchName branchStr then
          (parseUint64 termStr).map fun term ↦ (fileId, String.ofList branchStr, term)
        else none

/-- One digit of a partition group; a number of more than 32 bits is refused. -/
def pgDigit (n : ℕ) (c : Char) : Option ℕ :=
  if c.isDigit ∧ n ≤ (2 ^ 32 - 1 - (c.toNat - '0'.toNat)) / 10 then
    some (10 * n + (c.toNat - '0'.toNat))
  else none

/-- `ParseCurrentTermFilename`; the last separator is found from the end. -/
def parseCurrentTermFilename (filename : List Char) : Option (BranchName × ℕ) :=
  if currentTermFileName ++ [fileNameSeparator] <+: filename then
    (splitAtSeparator (filename.drop 13).reverse).bind fun (pgStr, branchStr) ↦
      if pgStr = [] ∨ isValidBranchName branchStr.reverse = false then none
      else (pgStr.reverse.foldlM pgDigit 0).map (String.ofList branchStr.reverse, ·)
  else none

/-- What the parser of a class of files makes of a name. -/
def readFile (cls : FileClass) (name : List Char) : Option StoreFile :=
  if (parseFileName name).1 = cls.typeName then
    (parseDataFileSuffix (parseFileName name).2).map fun (fileId, branch, term) ↦
      .file ⟨⟨cls, fileId⟩, branch, term⟩
  else none

/-- What the parser of manifests and archives makes of a name. -/
def readManifest (name : List Char) : Option StoreFile :=
  if (parseFileName name).1 = fileNameManifest then
    (parseManifestFileSuffix (parseFileName name).2).map .manifest
  else none

/-- **All a name is read as.** -/
def StoreFile.readings (name : List Char) : List StoreFile :=
  (readFile .data name).toList ++ (readFile .segment name).toList ++ (readManifest name).toList ++
    ((parseCurrentTermFilename name).map fun (branch, pgId) ↦ .currentTerm branch pgId).toList

/-! ### The round trip -/

theorem toNat_lt_of_isBranchChar {c : Char} (h : isBranchChar c = true) : c.toNat < 128 := by
  have hlt {d : Char} (hd : d.toNat < 128) (hle : c.val ≤ d.val) : c.toNat < 128 :=
    (UInt32.le_iff_toNat_le.1 hle).trans_lt hd
  simp only [isBranchChar, Bool.or_eq_true, beq_iff_eq] at h
  obtain ((h | h) | h) | rfl := h
  · exact hlt (d := 'z') (by decide) (of_decide_eq_true (Bool.and_elim_right h))
  · exact hlt (d := 'Z') (by decide) (of_decide_eq_true h).2
  · exact hlt (d := '9') (by decide) (of_decide_eq_true (Bool.and_elim_right h))
  · decide

theorem toLower_of_isBranchChar {c : Char} (h : isBranchChar c = true) :
    isBranchChar c.toLower = true ∧ c.toLower.toLower = c.toLower := by
  have hascii : ∀ n < 128, isBranchChar (.ofNat n) = true →
      isBranchChar (Char.ofNat n).toLower = true ∧
        (Char.ofNat n).toLower.toLower = (Char.ofNat n).toLower := by
    decide +kernel
  have hc := hascii c.toNat (toNat_lt_of_isBranchChar h)
  rw [Char.ofNat_toNat] at hc
  exact hc h

theorem isNormalized_normalizeBranchName {name : BranchName} (h : normalizeBranchName name ≠ "") :
    IsNormalized (normalizeBranchName name) := by
  refine ⟨h, ?_⟩
  by_cases hall : name.toList.all isBranchChar = true
  · have hname : normalizeBranchName name = String.ofList (name.toList.map Char.toLower) :=
      if_pos hall
    have hlower c (hc : c ∈ name.toList) := toLower_of_isBranchChar (all_eq_true.1 hall c hc)
    rw [hname, normalizeBranchName, String.toList_ofList, if_pos, List.map_map]
    · exact congrArg _ (map_congr_left fun c hc ↦ (hlower c hc).2)
    · rw [List.all_map]
      exact all_eq_true.2 fun c hc ↦ (hlower c hc).1
  · exact absurd (if_neg hall) h

theorem le_ofDigitChars (ds : List Char) (n : ℕ) : n ≤ Nat.ofDigitChars 10 ds n := by
  induction ds generalizing n with
  | nil => exact le_rfl
  | cons c ds ih =>
    rw [Nat.ofDigitChars_cons]
    exact Nat.le_trans (by omega) (ih _)

/-- The digits of a number of 32 bits are read back. -/
theorem foldlM_pgDigit {ds : List Char} {n : ℕ} (hds : ∀ c ∈ ds, c.isDigit = true)
    (hlt : Nat.ofDigitChars 10 ds n < 2 ^ 32) :
    ds.foldlM pgDigit n = some (Nat.ofDigitChars 10 ds n) := by
  induction ds generalizing n with
  | nil => rfl
  | cons c ds ih =>
    obtain ⟨hc, hds⟩ := forall_mem_cons.1 hds
    rw [Nat.ofDigitChars_cons] at hlt ⊢
    have hle := (le_ofDigitChars ds _).trans_lt hlt
    rw [foldlM_cons, pgDigit, if_pos ⟨hc, by omega⟩]
    exact ih hds hlt

section

variable {type : List Char} (h : fileNameSeparator ∉ type)

include h

theorem parseFileName_append (rest : List Char) :
    parseFileName (type ++ fileNameSeparator :: rest) = (type, rest) := by
  rw [parseFileName, splitAtSeparator_append rest h, getD_some]

theorem readFile_append (cls : FileClass) (rest : List Char) :
    readFile cls (type ++ fileNameSeparator :: rest) =
      if type = cls.typeName then
        (parseDataFileSuffix rest).map fun (fileId, branch, term) ↦
          .file ⟨⟨cls, fileId⟩, branch, term⟩
      else none := by
  rw [readFile, parseFileName_append h]

theorem readManifest_append (rest : List Char) :
    readManifest (type ++ fileNameSeparator :: rest) =
      if type = fileNameManifest then (parseManifestFileSuffix rest).map .manifest else none := by
  rw [readManifest, parseFileName_append h]

end

theorem separator_notMem_typeName (cls : FileClass) : fileNameSeparator ∉ cls.typeName := by
  cases cls <;> decide

theorem parseCurrentTermFilename_append {type : List Char} (h : type.head? ≠ some 'C')
    (rest : List Char) : parseCurrentTermFilename (type ++ fileNameSeparator :: rest) = none := by
  refine if_neg fun hprefix ↦ ?_
  cases type with
  | nil => exact absurd (cons_prefix_cons.1 hprefix).1 (by decide)
  | cons c cs => exact h (congrArg some (cons_prefix_cons.1 hprefix).1.symm)

theorem parseDataFileSuffix_dataFileSuffix {f : FileName}
    (hbranch : normalizeBranchName f.owner.branchName ≠ "") (hid : f.fid.fileId < 2 ^ 64)
    (hterm : f.owner.term < 2 ^ 64) : parseDataFileSuffix (dataFileSuffix f) =
      some (f.fid.fileId, normalizeBranchName f.owner.branchName, f.owner.term) := by
  have hnorm := isNormalized_normalizeBranchName hbranch
  rw [dataFileSuffix, parseDataFileSuffix, splitAtSeparator_append _ (separator_notMem_toDigits _)]
  simp only [bind_some]
  rw [splitAtSeparator_append _ hnorm.separator_notMem]
  simp [parseUint64_toDigits hid, parseUint64_toDigits hterm, hnorm.isValidBranchName]

theorem parseCurrentTermFilename_name {branch : BranchName} {pgId : ℕ}
    (hbranch : IsNormalized branch) (hpg : pgId < 2 ^ 32) :
    parseCurrentTermFilename (currentTermFileName ++ fileNameSeparator ::
      (branch.toList ++ fileNameSeparator :: Nat.toDigits 10 pgId)) = some (branch, pgId) := by
  have hdigits : ∀ c ∈ Nat.toDigits 10 pgId, c.isDigit = true := fun c hc ↦
    Nat.isDigit_of_mem_toDigits (by decide) (by decide) hc
  have hvalue : Nat.ofDigitChars 10 (Nat.toDigits 10 pgId) 0 = pgId :=
    Nat.ofDigitChars_toDigits (by decide) (by decide)
  have hread := foldlM_pgDigit hdigits (hvalue.symm ▸ hpg)
  have hdrop : (currentTermFileName ++ fileNameSeparator ::
      (branch.toList ++ fileNameSeparator :: Nat.toDigits 10 pgId)).drop 13 =
      branch.toList ++ fileNameSeparator :: Nat.toDigits 10 pgId := rfl
  rw [parseCurrentTermFilename, if_pos (by simp), hdrop, reverse_append, reverse_cons,
    append_assoc, singleton_append, splitAtSeparator_append _
      (fun hmem ↦ separator_notMem_toDigits pgId (mem_reverse.1 hmem)), bind_some]
  dsimp only
  rw [reverse_reverse, reverse_reverse, if_neg, hread, hvalue]
  · simp
  · simp [hbranch.isValidBranchName]

namespace StoreFile

/-- The numbers of a name fit their types, and an archive has a tag. -/
def InRange : StoreFile → Prop
  | .file f => f.fid.fileId < 2 ^ 64 ∧ f.owner.term < 2 ^ 64
  | .manifest n => n.term < 2 ^ 64 ∧ n.tag ≠ some ""
  | .currentTerm _ pgId => pgId < 2 ^ 32

/-- A manifest or an archive of a branch whose name reads as a number. -/
def IsNumeric : StoreFile → Prop
  | .manifest n => (parseUint64 (normalizeBranchName n.branch).toList).isSome
  | _ => False

instance : DecidablePred IsNumeric
  | .file _ => inferInstanceAs (Decidable False)
  | .manifest _ => inferInstanceAs (Decidable (_ = true))
  | .currentTerm _ _ => inferInstanceAs (Decidable False)

theorem readings_file {cls : FileClass} {suffix : List Char} {fileId term : ℕ}
    {branch : BranchName} (h : parseDataFileSuffix suffix = some (fileId, branch, term)) :
    readings (cls.typeName ++ fileNameSeparator :: suffix) =
      [.file ⟨⟨cls, fileId⟩, branch, term⟩] := by
  have hsep := separator_notMem_typeName cls
  have hterm : cls.typeName.head? ≠ some 'C' := by cases cls <;> decide
  rw [readings, readFile_append hsep, readFile_append hsep, readManifest_append hsep,
    parseCurrentTermFilename_append hterm, h]
  cases cls <;> rfl

theorem readings_manifest (suffix : List Char) :
    readings (fileNameManifest ++ fileNameSeparator :: suffix) =
      ((parseManifestFileSuffix suffix).map StoreFile.manifest).toList := by
  have hsep : fileNameSeparator ∉ fileNameManifest := by decide
  rw [readings, readFile_append hsep, readFile_append hsep, readManifest_append hsep,
    parseCurrentTermFilename_append (by decide), if_neg (by decide), if_neg (by decide),
    if_pos rfl]
  exact append_nil _

theorem readings_currentTerm (rest : List Char) :
    readings (currentTermFileName ++ rest) =
      ((parseCurrentTermFilename (currentTermFileName ++ rest)).map
        fun (branch, pgId) ↦ StoreFile.currentTerm branch pgId).toList := by
  have hsep : fileNameSeparator ∉ "CURRENT".toList := by decide
  have htype : currentTermFileName ++ rest =
      "CURRENT".toList ++ fileNameSeparator :: ("TERM".toList ++ rest) := rfl
  rw [readings, htype, readFile_append hsep, readFile_append hsep, readManifest_append hsep,
    if_neg (by decide), if_neg (by decide), if_neg (by decide)]
  rfl

theorem readings_name (f : StoreFile) (hbranch : normalizeBranchName f.branch ≠ "")
    (hrange : f.InRange) : readings f.name = if f.IsNumeric then [] else [f.normalized] := by
  have hnorm := isNormalized_normalizeBranchName hbranch
  rw [show f.name = _ from if_neg hbranch]
  cases f with
  | file f => exact readings_file (parseDataFileSuffix_dataFileSuffix hbranch hrange.1 hrange.2)
  | manifest n =>
    obtain ⟨branch, term, tag⟩ := n
    have hread := parseManifestFileSuffix_suffix
      (n := ⟨normalizeBranchName branch, term, tag⟩) ⟨hnorm, hrange.1, hrange.2⟩
    have hsuffix : suffix ⟨normalizeBranchName branch, term, tag⟩ =
        suffix ⟨branch, term, tag⟩ :=
      congrArg (fun b : BranchName ↦ b.toList ++ fileNameSeparator :: _) hnorm.2
    refine (readings_manifest _).trans ?_
    rw [← hsuffix, hread]
    by_cases hnum : ManifestName.IsNumeric ⟨normalizeBranchName branch, term, tag⟩
    · rw [if_pos hnum, if_pos (by exact hnum)]
      rfl
    · rw [if_neg hnum, if_neg (by exact hnum)]
      rfl
  | currentTerm branch pgId =>
    change IsNormalized (normalizeBranchName branch) at hnorm
    refine (readings_currentTerm _).trans ?_
    rw [parseCurrentTermFilename_name hnorm hrange]
    rfl

/-- **Every name is read as the file it was built from, and as nothing else**, but for those of
manifests and archives of branches whose names read as numbers. -/
theorem readings_name_iff (f : StoreFile) (hbranch : normalizeBranchName f.branch ≠ "")
    (hrange : f.InRange) : readings f.name = [f.normalized] ↔ ¬ f.IsNumeric := by
  rw [readings_name f hbranch hrange]
  by_cases hnum : f.IsNumeric
  · simp [hnum]
  · simp [hnum]

/-- A branch whose name needs lower case, and an archive. -/
theorem readings_name_archive : readings (name (.manifest ⟨"Main", 7, some "a_1"⟩)) =
    [.manifest ⟨"main", 7, some "a_1"⟩] :=
  (readings_name_iff (.manifest ⟨"Main", 7, some "a_1"⟩) (by decide) (by simp [InRange])).2
    (by decide)

/-- **The manifest of a branch called `123` is not read back at all.** -/
theorem numeric_manifest_unread : normalizeBranchName "123" = "123" ∧
    readings (name (.manifest ⟨"123", 5, none⟩)) = [] := by
  decide

end StoreFile

end EloqStore
