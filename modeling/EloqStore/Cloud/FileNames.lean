import EloqStore.Types

/-!
# Manifest file names

A manifest is named `manifest_<branch>_<term>`, an archive `manifest_<branch>_<term>_<tag>`. The
object store lists a partition's manifests with the common `manifest_` taken off, so all names here
are **suffixes**. Branch names are lower-case letters, digits and hyphens; the underscore separates
the parts.

`parseManifestFileSuffix` reads a suffix back. It is not a left inverse of the naming: a branch name
may consist of digits only, and such a name is rejected as one of an older format. Away from those
the round trip holds (`parseManifestFileSuffix_suffix`).
-/

namespace EloqStore

open List

/-! ### Branch names -/

/-- The separator between the parts of a file name. -/
def fileNameSeparator : Char := '_'

/-- A character a branch name may contain, before normalization. -/
def isBranchChar (c : Char) : Bool :=
  c.isLower || c.isUpper || c.isDigit || c == '-'

/-- Validate a branch name and convert it to lower case; the empty string stands for an invalid
name. -/
def normalizeBranchName (name : BranchName) : BranchName :=
  if name.toList.all isBranchChar then String.ofList (name.toList.map Char.toLower) else ""

/-- A valid branch name, up to case. -/
def isValidBranchName (name : List Char) : Bool := !name.isEmpty && name.all isBranchChar

def IsNormalized (name : BranchName) : Prop := name ≠ "" ∧ normalizeBranchName name = name

instance (name : BranchName) : Decidable (IsNormalized name) :=
  inferInstanceAs (Decidable (_ ∧ _))

/-! ### Numbers -/

/-- The white space `strtoull` skips. -/
def isCSpace (c : Char) : Bool := c == ' ' || ('\t' ≤ c && c ≤ '\r')

/-- Read digits up to the end, without overflow. -/
def parseDigits (ds : List Char) : Option ℕ :=
  if ds.isEmpty || !ds.all Char.isDigit then none
  else if Nat.ofDigitChars 10 ds 0 < 2 ^ 64 then some (Nat.ofDigitChars 10 ds 0) else none

/-- Read a number as `ParseUint64` does with `strtoull`: white space, a sign, and digits up to the
end. A minus sign is accepted and negates modulo `2 ^ 64`. -/
def parseUint64 (str : List Char) : Option ℕ :=
  match str.dropWhile isCSpace with
  | '-' :: ds => (parseDigits ds).map fun v ↦ (2 ^ 64 - v) % 2 ^ 64
  | '+' :: ds => parseDigits ds
  | ds => parseDigits ds

/-! ### Manifest names -/

/-- What a manifest file name carries. -/
structure ManifestName where
  branch : BranchName
  term : ℕ
  tag : Option String := none
deriving DecidableEq, Repr

/-- The part of a suffix an archive's tag makes. -/
def tagSuffix : Option String → List Char
  | none => []
  | some tag => fileNameSeparator :: tag.toList

/-- The suffix of a manifest file name: `BranchManifestFileName` and `BranchArchiveName` without the
leading `manifest_`. -/
def ManifestName.suffix (n : ManifestName) : List Char :=
  (normalizeBranchName n.branch).toList ++
    fileNameSeparator :: (Nat.toDigits 10 n.term ++ tagSuffix n.tag)

def splitAtSeparator : List Char → Option (List Char × List Char)
  | [] => none
  | c :: cs =>
    if c = fileNameSeparator then some ([], cs)
    else (splitAtSeparator cs).map fun p ↦ (c :: p.1, p.2)

/-- Read a manifest suffix. Names whose branch reads as a number are rejected. -/
def parseManifestFileSuffix (suffix : List Char) : Option ManifestName :=
  (splitAtSeparator suffix).bind fun (branchStr, remainder) ↦
    if !isValidBranchName branchStr || (parseUint64 branchStr).isSome then none
    else
      match splitAtSeparator remainder with
      | none => (parseUint64 remainder).map fun term ↦ ⟨String.ofList branchStr, term, none⟩
      | some (termStr, tagStr) =>
        if tagStr.isEmpty then none
        else (parseUint64 termStr).map fun term ↦
          ⟨String.ofList branchStr, term, some (String.ofList tagStr)⟩

/-- A name the store writes: a normalized branch, a 64-bit term, and a tag that is not empty. -/
structure ManifestName.WellNamed (n : ManifestName) : Prop where
  branch : IsNormalized n.branch
  term : n.term < 2 ^ 64
  tag : n.tag ≠ some ""

/-- The branch name reads as a number. -/
def ManifestName.IsNumeric (n : ManifestName) : Prop := (parseUint64 n.branch.toList).isSome

instance (n : ManifestName) : Decidable n.IsNumeric := inferInstanceAs (Decidable (_ = true))

/-! ### The round trip -/

theorem splitAtSeparator_append {a : List Char} (b : List Char) (h : fileNameSeparator ∉ a) :
    splitAtSeparator (a ++ fileNameSeparator :: b) = some (a, b) := by
  induction a with
  | nil => simp [splitAtSeparator]
  | cons c a ih =>
    rw [mem_cons, not_or] at h
    have hc : c ≠ fileNameSeparator := fun heq ↦ h.1 heq.symm
    rw [cons_append, splitAtSeparator, if_neg hc, ih h.2]
    rfl

theorem splitAtSeparator_eq_none {s : List Char} (h : fileNameSeparator ∉ s) :
    splitAtSeparator s = none := by
  induction s with
  | nil => rfl
  | cons c s ih =>
    rw [mem_cons, not_or] at h
    have hc : c ≠ fileNameSeparator := fun heq ↦ h.1 heq.symm
    rw [splitAtSeparator, if_neg hc, ih h.2]
    rfl

/-- A digit is neither white space, nor a sign, nor the separator. -/
private theorem ne_of_isDigit {c : Char} (h : c.isDigit = true) :
    isCSpace c = false ∧ c ≠ '-' ∧ c ≠ '+' ∧ c ≠ fileNameSeparator := by
  simp only [Char.isDigit, Bool.and_eq_true, decide_eq_true_eq] at h
  refine ⟨?_, ?_, ?_, ?_⟩
  · have hspace : c ≠ ' ' := by
      rintro rfl
      exact absurd h (by decide)
    have hcr : ¬ c ≤ '\r' := fun hle ↦ absurd (UInt32.le_trans h.1 hle) (by decide)
    simp [isCSpace, hspace, hcr]
  all_goals
    rintro rfl
    exact absurd h (by decide)

private theorem parseUint64_cons {c : Char} (cs : List Char) (h : c.isDigit = true) :
    parseUint64 (c :: cs) = parseDigits (c :: cs) := by
  obtain ⟨hspace, hminus, hplus, -⟩ := ne_of_isDigit h
  rw [parseUint64, dropWhile_cons_of_neg (by simp [hspace])]
  split
  · next heq => exact absurd (cons.inj heq).1 hminus
  · next heq => exact absurd (cons.inj heq).1 hplus
  · rfl

theorem parseUint64_toDigits {n : ℕ} (h : n < 2 ^ 64) :
    parseUint64 (Nat.toDigits 10 n) = some n := by
  have hdigit : ∀ c ∈ Nat.toDigits 10 n, c.isDigit = true := fun c hc ↦
    Nat.isDigit_of_mem_toDigits (by decide) (by decide) hc
  have hvalue : Nat.ofDigitChars 10 (Nat.toDigits 10 n) 0 = n :=
    Nat.ofDigitChars_toDigits (by decide) (by decide)
  cases hd : Nat.toDigits 10 n with
  | nil => simp at hd
  | cons c cs =>
    rw [hd] at hdigit hvalue
    rw [parseUint64_cons cs (hdigit c (by simp)), parseDigits, hvalue, if_pos h, if_neg]
    simpa using hdigit

theorem separator_notMem_toDigits (n : ℕ) : fileNameSeparator ∉ Nat.toDigits 10 n := fun h ↦
  (ne_of_isDigit (Nat.isDigit_of_mem_toDigits (by decide) (by decide) h)).2.2.2 rfl

namespace IsNormalized

variable {name : BranchName}

theorem all_isBranchChar (h : IsNormalized name) : name.toList.all isBranchChar = true := by
  by_contra hall
  have hempty : normalizeBranchName name = "" := if_neg hall
  exact h.1 (h.2.symm.trans hempty)

theorem isValidBranchName (h : IsNormalized name) :
    EloqStore.isValidBranchName name.toList = true := by
  have hne : name.toList ≠ [] := fun hnil ↦ h.1 (String.toList_eq_nil_iff.1 hnil)
  simp only [EloqStore.isValidBranchName, h.all_isBranchChar, Bool.and_true, Bool.not_eq_true',
    isEmpty_eq_false_iff]
  exact hne

theorem separator_notMem (h : IsNormalized name) : fileNameSeparator ∉ name.toList := fun hmem ↦
  absurd (all_eq_true.1 h.all_isBranchChar _ hmem) (by decide)

end IsNormalized

theorem splitAtSeparator_suffix {n : ManifestName} (h : IsNormalized n.branch) :
    splitAtSeparator n.suffix =
      some (n.branch.toList, Nat.toDigits 10 n.term ++ tagSuffix n.tag) := by
  rw [ManifestName.suffix, h.2]
  exact splitAtSeparator_append _ h.separator_notMem

/-- The second one, if there is one, ends the term. -/
private theorem splitAtSeparator_term (term : ℕ) (tag : Option String) :
    splitAtSeparator (Nat.toDigits 10 term ++ tagSuffix tag) =
      tag.map fun tag ↦ (Nat.toDigits 10 term, tag.toList) := by
  cases tag with
  | none =>
    rw [tagSuffix, append_nil]
    exact splitAtSeparator_eq_none (separator_notMem_toDigits term)
  | some tag => exact splitAtSeparator_append _ (separator_notMem_toDigits term)

/-- **The round trip of manifest names.** A name the store writes reads back as what it carries,
unless its branch reads as a number; then it is rejected. -/
theorem parseManifestFileSuffix_suffix {n : ManifestName} (h : n.WellNamed) :
    parseManifestFileSuffix n.suffix = if n.IsNumeric then none else some n := by
  rw [parseManifestFileSuffix, splitAtSeparator_suffix h.branch, Option.bind_some]
  dsimp only
  rw [h.branch.isValidBranchName, Bool.not_true, Bool.false_or]
  by_cases hnum : n.IsNumeric
  · rw [if_pos hnum, if_pos (show (parseUint64 n.branch.toList).isSome = true from hnum)]
  · rw [if_neg hnum, if_neg (show ¬ (parseUint64 n.branch.toList).isSome = true from hnum),
      splitAtSeparator_term]
    obtain ⟨branch, term, tag⟩ := n
    cases tag with
    | none => simp [tagSuffix, parseUint64_toDigits h.term]
    | some tag =>
      have hne : tag.toList ≠ [] := fun hnil ↦
        h.tag (congrArg some (String.toList_eq_nil_iff.1 hnil))
      simp [parseUint64_toDigits h.term, hne]

/-- Names the store writes are told apart by their suffixes. -/
theorem ManifestName.suffix_inj {n n' : ManifestName} (h : n.WellNamed) (h' : n'.WellNamed)
    (heq : n.suffix = n'.suffix) : n = n' := by
  have hsplit := splitAtSeparator_suffix h.branch
  rw [heq, splitAtSeparator_suffix h'.branch, Option.some.injEq, Prod.mk.injEq] at hsplit
  obtain ⟨hbranch, hrest⟩ := hsplit
  have htail := splitAtSeparator_term n.term n.tag
  rw [← hrest, splitAtSeparator_term] at htail
  obtain ⟨branch, term, tag⟩ := n
  obtain ⟨branch', term', tag'⟩ := n'
  obtain rfl : branch' = branch := String.toList_injective hbranch
  have htag : tag' = tag := by
    cases tag <;> cases tag' <;> simp_all [String.toList_inj]
  subst htag
  have hdigits : Nat.toDigits 10 term' = Nat.toDigits 10 term := append_cancel_right hrest
  have hterm : term' = term := by
    have := congrArg (fun ds ↦ Nat.ofDigitChars 10 ds 0) hdigits
    simpa using this
  rw [hterm]

end EloqStore
