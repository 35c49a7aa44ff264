import EloqStore.Partition.DeleteBranch

/-!
# What the deletion of a branch leaves behind

With an object store, `DeleteBranchFiles` lists the manifests of the branch page by page and deletes
what it has found. **A page that cannot be listed ends the listing without an error**, and of the
errors of the deletions the first one counts, where `NotFound` is as good as none. The files in the
local directory are unlinked up to the term in the term file, or for term 0 alone; with an object
store nobody learns whether that went well.

What is left is what the loops leave of the stored manifests. `cleared_of_answers` says for which
answers a deletion that returns `NoError` leaves none that a load could select.
-/

namespace EloqStore

open List

namespace BranchCleanup

/-- What the term file of a branch gives. -/
inductive TermFile
  /-- There is none, it is empty, or it cannot be read. -/
  | missing
  | term (t : ℕ)
  | garbled
deriving DecidableEq, Repr

/-- The manifests of a branch, and how the requests end that `DeleteBranchFiles` makes. -/
structure Outcomes where
  /-- The manifests in the object store, archives included, as they are listed, page by page, and
  whether the page is listed. -/
  pages : List (List ManifestName × Bool)
  delete : ManifestName → KvError
  /-- The answers for the term file and the data files. -/
  deleteOthers : List KvError
  /-- The terms of the manifests in the local directory. -/
  localTerms : List ℕ
  openDir : KvError
  /-- A directory that is not there has no manifests. -/
  openDir_notFound : openDir = .notFound → localTerms = []
  termFile : TermFile
  unlink : ℕ → KvError
  unlinkTermFile : KvError

/-- The manifests of a branch, in the object store and in the local directory. -/
structure Left where
  objects : List ManifestName
  localTerms : List ℕ
deriving DecidableEq, Repr

/-! ### The loops -/

/-- The loop of `list_and_collect`. -/
def listAndCollect : List (List ManifestName × Bool) → List ManifestName
  | [] => []
  | (names, true) :: pages => names ++ listAndCollect pages
  | (_, false) :: _ => []

/-- After this answer the file is not there. -/
def gone (e : KvError) : Bool := decide (e = .noError ∨ e = .notFound)

/-- The files are removed one after the other: what stays of those that are stored. -/
def removeFiles {α : Type} [DecidableEq α] (answer : α → KvError) : List α → List α → List α
  | [], stored => stored
  | x :: xs, stored =>
    removeFiles answer xs (if gone (answer x) then stored.filter (· ≠ x) else stored)

def firstError (errs : List KvError) : KvError := (errs.find? (· ≠ .noError)).getD .noError

/-- An unlink that finds no file is no error. -/
def ignoreNotFound (e : KvError) : KvError := if e = .notFound then .noError else e

namespace Outcomes

variable (o : Outcomes)

def objects : List ManifestName := (o.pages.map (·.1)).flatten

/-- The terms that are unlinked are those up to this one. -/
def maxTerm? : Option ℕ :=
  match o.termFile with
  | .missing => some 0
  | .term t => some t
  | .garbled => none

/-- `IouringMgr::DeleteBranchFiles`. -/
def deleteLocalFiles : List ℕ × KvError :=
  if o.openDir ≠ .noError then (o.localTerms, o.openDir)
  else
    match o.maxTerm? with
    | none => (o.localTerms, .ioFail)
    | some maxTerm =>
      let terms := List.range (maxTerm + 1)
      (removeFiles o.unlink terms o.localTerms,
        firstError ((terms.map o.unlink ++ [o.unlinkTermFile]).map ignoreNotFound))

/-- `CloudStoreMgr::DeleteBranchFiles`: the error of the local cleanup is dropped. -/
def deleteCloudFiles : Left × KvError :=
  let names := listAndCollect o.pages
  (⟨removeFiles o.delete names o.objects, o.deleteLocalFiles.1⟩,
    firstError (names.map o.delete ++ o.deleteOthers))

def deleteBranchFiles (mode : StoreMode) : Left × KvError :=
  if mode = .cloud then o.deleteCloudFiles
  else (⟨o.objects, o.deleteLocalFiles.1⟩, o.deleteLocalFiles.2)

/-- `DeleteBranch`, on an instance whose active branch is given. -/
def deleteBranch (mode : StoreMode) (active name : BranchName) : Left × KvError :=
  let branch := normalizeBranchName name
  if branch = "" ∨ branch = mainBranchName ∨ branch = active then
    (⟨o.objects, o.localTerms⟩, .invalidArgs)
  else
    let delErr := (o.deleteBranchFiles mode).2
    ((o.deleteBranchFiles mode).1,
      if delErr ≠ .noError ∧ delErr ≠ .notFound then delErr else .noError)

/-- **The answers tell what happened**: without an object store no manifest is above the term in the
term file, and with one every page is listed and no manifest fails to be deleted behind one that is
not found. The term of the local mode is always 0. -/
def Telling : StoreMode → Prop
  | .localMode => True
  | .standbyMaster | .standbyReplica => ∀ t ∈ o.localTerms, ∀ maxTerm ∈ o.maxTerm?, t ≤ maxTerm
  | .cloud => (∀ page ∈ o.pages, page.2) ∧
      ∀ e ∈ ((listAndCollect o.pages).map o.delete).dropWhile (· ≠ .notFound), gone e

end Outcomes

/-- **No manifest is left that a load could select**: none in the object store, and without one none
in the local directory, where the local mode looks for term 0 only. With an object store a load
opens the files it has downloaded itself, and a start removes the manifests that it finds. -/
def Left.Cleared (l : Left) : StoreMode → Prop
  | .localMode => 0 ∉ l.localTerms
  | .standbyMaster | .standbyReplica => l.localTerms = []
  | .cloud => l.objects = []

/-! ### What the loops leave -/

/-- Of the stored files those stay that are not asked for or not removed. -/
theorem mem_removeFiles {α : Type} [DecidableEq α] {answer : α → KvError} {x : α} (xs : List α) :
    ∀ stored, x ∈ removeFiles answer xs stored ↔
      x ∈ stored ∧ (x ∈ xs → gone (answer x) = false) := by
  induction xs with
  | nil => simp [removeFiles]
  | cons y xs ih =>
    intro stored
    rw [removeFiles, ih]
    by_cases hxy : x = y
    · subst hxy
      cases gone (answer x) <;> simp
    · cases gone (answer y) <;> simp [hxy]

/-- With all pages listed every manifest is collected. -/
theorem listAndCollect_of_listed {pages : List (List ManifestName × Bool)}
    (h : ∀ page ∈ pages, page.2) : listAndCollect pages = (pages.map (·.1)).flatten := by
  induction pages with
  | nil => rfl
  | cons page pages ih =>
    obtain ⟨names, listed⟩ := page
    cases h _ mem_cons_self
    rw [listAndCollect, ih fun q hq ↦ h q (mem_cons_of_mem _ hq)]
    rfl

theorem firstError_cons (e : KvError) (errs : List KvError) :
    firstError (e :: errs) = if e = .noError then firstError errs else e := by
  by_cases he : e = .noError <;> simp [firstError, he]

/-- Of unlinks without an error every one has its file gone. -/
theorem gone_of_ignoreNotFound {errs : List KvError}
    (h : gone (firstError (errs.map ignoreNotFound))) : ∀ e ∈ errs, gone e := by
  induction errs with
  | nil => simp
  | cons e errs ih =>
    rw [map_cons, firstError_cons] at h
    split at h
    · next hno =>
      refine forall_mem_cons.2 ⟨?_, ih h⟩
      unfold ignoreNotFound at hno
      split at hno <;> simp_all [gone]
    · next hne =>
      have hnot := (of_decide_eq_true h).resolve_left hne
      unfold ignoreNotFound at hnot
      split at hnot
      · cases hnot
      · next hx => exact absurd hnot hx

/-- **The first error speaks for all** if none stands behind a file that is not found. -/
theorem gone_of_firstError {errs rest : List KvError}
    (h : gone (firstError (errs ++ rest)))
    (hbehind : ∀ e ∈ errs.dropWhile (· ≠ .notFound), gone e) : ∀ e ∈ errs, gone e := by
  induction errs with
  | nil => simp
  | cons e errs ih =>
    rw [cons_append, firstError_cons] at h
    by_cases hnot : e = .notFound
    · rwa [dropWhile_cons_of_neg (by simp [hnot])] at hbehind
    · rw [dropWhile_cons_of_pos (by simp [hnot])] at hbehind
      by_cases he : e = .noError
      · rw [if_pos he] at h
        exact forall_mem_cons.2 ⟨by rw [he]; rfl, ih h hbehind⟩
      · rw [if_neg he] at h
        simp [gone, he, hnot] at h

variable {o : Outcomes}

/-- **A local cleanup that reports no error** leaves the manifests above the term it found. -/
theorem mem_deleteLocalFiles (h : gone o.deleteLocalFiles.2) {t : ℕ}
    (ht : t ∈ o.deleteLocalFiles.1) : t ∈ o.localTerms ∧ ∃ maxTerm ∈ o.maxTerm?, maxTerm < t := by
  rw [Outcomes.deleteLocalFiles] at h ht
  split at h
  · next hdir =>
    have hnot : o.openDir = .notFound := by simpa [gone, hdir] using h
    rw [if_pos hdir, o.openDir_notFound hnot] at ht
    exact absurd ht not_mem_nil
  · next hdir =>
    rw [if_neg hdir] at ht
    cases hmax : o.maxTerm? with
    | none => simp [hmax, gone] at h
    | some maxTerm =>
      simp only [hmax] at h ht
      obtain ⟨hmem, hkept⟩ := (mem_removeFiles _ _).1 ht
      refine ⟨hmem, maxTerm, rfl, ?_⟩
      by_contra hle
      have hterm : t ∈ List.range (maxTerm + 1) := mem_range.2 (by omega)
      have hgone := gone_of_ignoreNotFound h _ (mem_append_left _ (mem_map_of_mem hterm))
      rw [hkept hterm] at hgone
      cases hgone

/-- **A deletion whose answers tell what happened** and that returns `NoError` leaves no manifest
that a load could select. -/
theorem cleared_of_answers {mode : StoreMode} {active name : BranchName}
    (h : (o.deleteBranch mode active name).2 = .noError) (htelling : o.Telling mode) :
    (o.deleteBranch mode active name).1.Cleared mode := by
  rw [Outcomes.deleteBranch] at h ⊢
  split at h
  · cases h
  · next hname =>
    rw [if_neg hname]
    have hgone : gone (o.deleteBranchFiles mode).2 := by
      by_contra hnot
      have hor : (o.deleteBranchFiles mode).2 ≠ .noError ∧
          (o.deleteBranchFiles mode).2 ≠ .notFound := by simpa [gone] using hnot
      simp only [if_pos hor] at h
      exact hor.1 h
    show (o.deleteBranchFiles mode).1.Cleared mode
    cases mode with
    | localMode =>
      intro hzero
      obtain ⟨-, m, -, hlt⟩ := mem_deleteLocalFiles hgone hzero
      exact Nat.not_lt_zero m hlt
    | standbyMaster | standbyReplica =>
      refine eq_nil_iff_forall_not_mem.2 fun t ht ↦ ?_
      obtain ⟨hmem, m, hm, hlt⟩ := mem_deleteLocalFiles hgone ht
      exact absurd (htelling t hmem m hm) (Nat.not_le_of_lt hlt)
    | cloud =>
      refine eq_nil_iff_forall_not_mem.2 fun n hn ↦ ?_
      obtain ⟨hmem, hkept⟩ := (mem_removeFiles _ _).1 hn
      have hcollected : n ∈ listAndCollect o.pages := by
        rw [listAndCollect_of_listed htelling.1]
        exact hmem
      have hall := gone_of_firstError hgone htelling.2
      have hn := hall _ (mem_map_of_mem hcollected)
      rw [hkept hcollected] at hn
      cases hn

/-- A listing in two pages and deletions without errors, of a branch with cached manifests. -/
def smoothOutcomes : Outcomes where
  pages := [([⟨"dev", 1, none⟩], true), ([⟨"dev", 3, none⟩], true)]
  delete n := if n.term = 1 then .notFound else .noError
  deleteOthers := [.notFound, .noError]
  localTerms := [1, 3]
  openDir := .noError
  openDir_notFound h := by cases h
  termFile := .term 3
  unlink t := if t = 1 ∨ t = 3 then .noError else .notFound
  unlinkTermFile := .noError

theorem cleared_of_answers_smooth :
    (smoothOutcomes.deleteBranch .cloud "main" "dev").1.Cleared .cloud ∧
      (smoothOutcomes.deleteBranch .standbyMaster "main" "dev").1.Cleared .standbyMaster :=
  ⟨cleared_of_answers (by decide +kernel) ⟨by decide +kernel, by decide +kernel⟩,
    cleared_of_answers (by decide +kernel) (by unfold Outcomes.Telling; decide +kernel)⟩

/-- **A page that is not listed** keeps its manifests, and one whose deletion fails behind one that
is not found stays; `NoError` is returned for both. -/
theorem manifest_left_behind :
    let unlisted := { smoothOutcomes with pages := [([⟨"dev", 1, none⟩], false)] }
    let masked := { smoothOutcomes with
      delete := fun n ↦ if n.term = 1 then .notFound else .timeout }
    (unlisted.deleteBranch .cloud "main" "dev").2 = .noError ∧
      ¬(unlisted.deleteBranch .cloud "main" "dev").1.Cleared .cloud ∧
      (masked.deleteBranch .cloud "main" "dev").2 = .noError ∧
      ¬(masked.deleteBranch .cloud "main" "dev").1.Cleared .cloud := by
  unfold Left.Cleared
  decide +kernel

end BranchCleanup

end EloqStore
