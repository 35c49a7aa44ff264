import EloqStore.Partition.WriteTask

/-!
# Installing a manifest over a root entry

A reopen replaces the root entry of a partition by what a manifest says, without evicting the entry:
`InstallExternalSnapshot` takes a manifest that was fetched from the object store or the master,
`InstallEmptySnapshot` one that says the partition is empty. Both end in the `UpdateRoot` of a
commit. A cached page is kept, by a pointer in the new mapping, if the new mapping gives its page id
the file page it has.

Afterwards the entry should be what a **fresh load** of the manifest gives, and every page kept
should hold what is in its file page. Two things stand in the way:

* `UpdateRoot` leaves the segment mapper of the entry in place when the new root has none, which is
  right for a commit and wrong here;
* a file page id does not say which file it is in. The file of a cached page was the one the *old*
  ranges gave, and the manifest's ranges may give another one, of another branch or term; or the
  page may have been written anew.

`CachedRoot.freshLoad_iff` says exactly when the entry is that of a fresh load and the cached pages
that are kept hold what they should.
-/

namespace EloqStore

open List Option EloqStore.Partition RootMeta

/-! ### The state -/

/-- A cached page. -/
structure MemCachedPage (C : Type*) where
  pageId : ℕ
  filePageId : ℕ
  content : C
deriving DecidableEq, Repr

/-- What the data files of every branch and term hold, by file page. -/
abbrev DataFiles (C : Type*) := Owner → ℕ → Option C

variable (opts : KvOptions)

/-- What a read of a file page gives: the file is the one the ranges name. -/
def readFilePage {C : Type*} (ranges : BranchFileMapping) (files : DataFiles C) (fp : ℕ) :
    Option C :=
  (getBranchNameAndTerm ranges (dataFileKey (fileOf opts.pagesPerFileShift fp))).bind (files · fp)

/-- The in-memory state of a partition with its cached pages, and the data files. -/
structure CachedRoot (C : Type*) where
  /-- The root entry, the ranges and the local manifest. -/
  part : Partition
  cachedPages : List (MemCachedPage C) := []
  /-- The pointers to cached pages in the published mapping. -/
  swizzled : List (ℕ × MemCachedPage C) := []
  files : DataFiles C

/-- What comes of fetching the remote manifest. -/
inductive RefreshOutcome
  | manifest (m : Manifest)
  | missing
  /-- It cannot be fetched or replayed. -/
  | failed
deriving DecidableEq, Repr

/-! ### The operations -/

/-- The copy of the root that is made from a manifest. -/
def CowRootMeta.ofReplayer (term : ℕ) (r : Replayer) : CowRootMeta where
  rootId := r.root
  ttlRootId := r.ttlRoot
  mapper := r.getMapper opts term
  segmentMapper := r.getSegmentMapper opts term
  manifestSize := r.fileSize
  nextExpireTs := if r.ttlRoot.isSome then 1 else 0
  ownCompression := some (if r.dictBytes = [] then {} else ⟨true, r.dictBytes, false⟩)
  firstUnflushedFpId := (r.getMapper opts term).allocator.maxFpId
  firstUnflushedSegFpId := ((r.getSegmentMapper opts term).map (·.allocator.maxFpId)).getD 0

/-- Put pointers to cached pages into a new mapping: the page's slot must still hold the file page
the cached page has. -/
def swizzleCached {C : Type*} (tbl : MappingTbl) (pages : List (MemCachedPage C)) :
    List (ℕ × MemCachedPage C) :=
  pages.foldl (fun slots c ↦
    if tbl.toFilePage c.pageId = some c.filePageId ∧ (slots.lookup c.pageId).isNone then
      (c.pageId, c) :: slots
    else slots) []

def emptySnapshot (s : Partition) : SnapshotRecord where
  root := none
  ttlRoot := none
  maxFpId := 0
  dictBytes := []
  mappingTbl := []
  branchMetadata := ⟨s.activeBranch, s.processTerm, []⟩
  segment := none

namespace Partition

/-- The entry of the partition, made if need be. -/
def getOrCreate (s : Partition) : Partition := { s with entry := some (s.entry.getD {}) }

/-- `FindRoot`: an entry that is not there is loaded from the manifest `GetManifest` gives, if any.
-/
def findRootIn (s : Partition) (found : Option Manifest) : Partition :=
  match s.entry, found with
  | none, some m => s.loadMeta opts m
  | _, _ => s

/-- Make a copy of the root the published one, with its ranges. -/
def install (s : Partition) (m : Manifest) (cow : CowRootMeta) (ranges : BranchFileMapping) :
    Partition :=
  { { s.getOrCreate with manifest := some m }.updateRoot opts { cow := cow } with
    branchFileMapping := ranges }

/-- The entry is emptied, in what `InstallExternalSnapshot` thinks of. -/
def clearRoot (s : Partition) : Partition :=
  { s with
    entry := some { s.entry.getD {} with
      rootId := none, ttlRootId := none, manifestSize := 0, nextExpireTs := 0, mapper := none,
      compression := none }
    manifest := none }

end Partition

namespace CachedRoot

variable {C : Type*} (s : CachedRoot C)

/-- **`InstallExternalSnapshot`.** `found` is the manifest a load finds first, `files` are the data
files after the last one has been downloaded anew. -/
def installExternalSnapshot (found : Option Manifest) (files : DataFiles C) :
    RefreshOutcome → Option (CachedRoot C)
  | .manifest m =>
    if deriveStoreMode opts = .cloud ∨ deriveStoreMode opts = .standbyReplica then
      let part := s.part.findRootIn opts found
      let r := replay m
      some
        { s with
          part := part.install opts m (.ofReplayer opts part.processTerm r)
            r.branchMetadata.fileRanges
          swizzled := swizzleCached r.mappingTbl s.cachedPages
          files := files }
    else none
  | .missing =>
    if deriveStoreMode opts = .cloud ∨ deriveStoreMode opts = .standbyReplica then
      some { s with
        part := (s.part.findRootIn opts found).clearRoot, swizzled := [], files := files }
    else none
  | .failed => none

/-- **`InstallEmptySnapshot`.** No cached page is kept. -/
def installEmptySnapshot : CachedRoot C :=
  { s with
    part := s.part.install opts ⟨emptySnapshot s.part, []⟩
      { mapper := .empty (newAllocator opts)
        manifestSize := (emptySnapshot s.part).size
        ownCompression := some {} } []
    swizzled := [] }

/-! ### What is asked -/

/-- The entry and the ranges are those of a load of the manifest into an empty entry. -/
def FreshLoad (m : Manifest) : Prop :=
  s.part.entry = (({ s.part with entry := none }).loadMeta opts m).entry ∧
    s.part.branchFileMapping = (({ s.part with entry := none }).loadMeta opts m).branchFileMapping

/-- Every cached page that is kept holds what is in the file page the mapping gives it. -/
def KeptPagesHold : Prop :=
  ∀ p c, s.swizzled.lookup p = some c →
    ∃ fp, (s.part.entry.bind (·.mapper)).bind (·.toFilePage p) = some fp ∧
      readFilePage opts s.part.branchFileMapping s.files fp = some c.content

/-- The segment mapper an installed manifest has, or none that has to be taken away. -/
def SegmentsReplaced (part : Partition) (m : Manifest) : Prop :=
  (replay m).getSegmentMapper opts part.processTerm ≠ none ∨
    part.entry.bind (·.segmentMapper) = none

/-- The cached page that is found first for a logical page and a file page. -/
def cachedPage (p fp : ℕ) : Option (MemCachedPage C) :=
  s.cachedPages.find? fun c ↦ c.pageId = p ∧ c.filePageId = fp

/-- The cached page of a page of the manifest, if there is one with its file page, holds the bytes
of that file page, in the file the **manifest's** ranges name. -/
def MatchingPagesHold (files : DataFiles C) (m : Manifest) : Prop :=
  ∀ p fp c, (replay m).mappingTbl.toFilePage p = some fp → s.cachedPage p fp = some c →
    readFilePage opts (replay m).branchMetadata.fileRanges files fp = some c.content

/-- **The files are the same ones**: the manifest's ranges name the file of a matching page that the
ranges named before, and the page has not been written anew. -/
def SameFiles (files : DataFiles C) (m : Manifest) : Prop :=
  ∀ c ∈ s.cachedPages, (replay m).mappingTbl.toFilePage c.pageId = some c.filePageId →
    ∃ w, getBranchNameAndTerm s.part.branchFileMapping
          (dataFileKey (fileOf opts.pagesPerFileShift c.filePageId)) = some w ∧
      getBranchNameAndTerm (replay m).branchMetadata.fileRanges
          (dataFileKey (fileOf opts.pagesPerFileShift c.filePageId)) = some w ∧
      files w c.filePageId = s.files w c.filePageId

/-- The cached pages hold what is in their file pages. -/
def CachedPagesHold : Prop :=
  ∀ c ∈ s.cachedPages,
    readFilePage opts s.part.branchFileMapping s.files c.filePageId = some c.content

/-! ### The pointers of the new mapping -/

theorem lookup_foldl_swizzle (tbl : MappingTbl) (pages : List (MemCachedPage C))
    (slots : List (ℕ × MemCachedPage C)) (p : ℕ) :
    (pages.foldl (fun slots c ↦
      if tbl.toFilePage c.pageId = some c.filePageId ∧ (slots.lookup c.pageId).isNone then
        (c.pageId, c) :: slots
      else slots) slots).lookup p =
    (slots.lookup p).or ((tbl.toFilePage p).bind fun fp ↦
      pages.find? fun c ↦ c.pageId = p ∧ c.filePageId = fp) := by
  induction pages generalizing slots with
  | nil => cases tbl.toFilePage p <;> simp
  | cons c pages ih =>
    rw [foldl_cons, ih]
    -- the head is skipped unless it is for `p` and has the file page of the slot
    have hskip : ∀ fp, tbl.toFilePage p = some fp → ¬(c.pageId = p ∧ c.filePageId = fp) →
        (c :: pages).find? (fun c ↦ c.pageId = p ∧ c.filePageId = fp) =
          pages.find? fun c ↦ c.pageId = p ∧ c.filePageId = fp :=
      fun fp _ hne ↦ find?_cons_of_neg (by simpa using hne)
    cases hfp : tbl.toFilePage p with
    | none =>
      split
      · next hcond =>
        have hne : p ≠ c.pageId := by
          rintro rfl
          cases hfp.symm.trans hcond.1
        rw [lookup_cons, beq_false_of_ne hne]
        rfl
      · rfl
    | some fp =>
      simp only [bind_some]
      by_cases hc : c.pageId = p ∧ c.filePageId = fp
      · obtain ⟨rfl, rfl⟩ := hc
        rw [find?_cons_of_pos (by simp)]
        cases hslot : slots.lookup c.pageId with
        | none => simp [hfp]
        | some d => simp [hslot]
      · rw [hskip fp hfp hc]
        split
        · next hcond =>
          have hne : p ≠ c.pageId := by
            rintro rfl
            exact hc ⟨rfl, some.inj (hcond.1.symm.trans hfp)⟩
          rw [lookup_cons, beq_false_of_ne hne]
        · rfl

/-- **What the new mapping points to.** -/
theorem lookup_swizzleCached (tbl : MappingTbl) (pages : List (MemCachedPage C)) (p : ℕ) :
    (swizzleCached tbl pages).lookup p = (tbl.toFilePage p).bind fun fp ↦
      pages.find? fun c ↦ c.pageId = p ∧ c.filePageId = fp :=
  lookup_foldl_swizzle tbl pages [] p

end CachedRoot

/-! ### The entry after an installation -/

/-- A copy with a compression object of its own, as an entry. -/
def CowRootMeta.toRoot (cow : CowRootMeta) : RootMeta where
  rootId := cow.rootId
  ttlRootId := cow.ttlRootId
  mapper := some cow.mapper
  segmentMapper := cow.segmentMapper
  manifestSize := cow.manifestSize
  nextExpireTs := cow.nextExpireTs
  compression := cow.ownCompression
  firstUnflushedFpId := cow.firstUnflushedFpId
  firstUnflushedSegFpId := cow.firstUnflushedSegFpId

theorem getMapper_emptySnapshot (s : Partition) :
    (replay ⟨emptySnapshot s, []⟩).getMapper opts s.processTerm = .empty (newAllocator opts) := by
  have hmax : (replay ⟨emptySnapshot s, []⟩).dataMaxFpId opts s.processTerm = 0 :=
    if_neg fun h ↦ h.2.2.2 rfl
  rw [Replayer.getMapper, hmax]
  cases happend : opts.dataAppendMode with
  | true =>
    simp [replay, deserializeSnapshot, emptySnapshot, mapperOfTable, appendAllocatorOf,
      MappingTbl.mapped, PageMapper.empty, newAllocator, happend, fileOf]
  | false =>
    simp [replay, deserializeSnapshot, emptySnapshot, mapperOfTable, pooledFreeIds,
      PageMapper.empty, newAllocator, happend]

/-- **An installed copy is the entry** unless a segment mapper is left over. -/
theorem Partition.entry_install_iff (s : Partition) (m : Manifest) (cow : CowRootMeta)
    (ranges : BranchFileMapping) (hcompression : cow.ownCompression.isSome) :
    (s.install opts m cow ranges).entry = some cow.toRoot ↔
      cow.segmentMapper ≠ none ∨ s.entry.bind (·.segmentMapper) = none := by
  obtain ⟨c, hc⟩ := isSome_iff_exists.1 hcompression
  have hold : (s.entry.getD {}).segmentMapper = s.entry.bind (·.segmentMapper) := by
    cases s.entry <;> rfl
  rw [← hold]
  simp only [install, updateRoot, getOrCreate, CowRootMeta.toRoot,
    map_some, some.injEq, RootMeta.mk.injEq, hc, some_or, true_and, and_true]
  cases cow.segmentMapper with
  | none => simp
  | some mapper => simp

namespace CachedRoot

variable {C : Type*} {opts} {s : CachedRoot C}

theorem keptPagesHold_iff {part : Partition} {m : Manifest} {term : ℕ} {files : DataFiles C} :
    CachedRoot.KeptPagesHold opts
        { s with
          part := part.install opts m (.ofReplayer opts term (replay m))
            (replay m).branchMetadata.fileRanges
          swizzled := swizzleCached (replay m).mappingTbl s.cachedPages
          files := files } ↔
      s.MatchingPagesHold opts files m := by
  have hmapper : ∀ p, (((part.install opts m (.ofReplayer opts term (replay m))
      (replay m).branchMetadata.fileRanges).entry.bind (·.mapper)).bind (·.toFilePage p)) =
        (replay m).mappingTbl.toFilePage p := fun p ↦ by
    show ((replay m).getMapper opts term).toFilePage p = _
    simp [Replayer.getMapper]
  simp only [KeptPagesHold, hmapper, lookup_swizzleCached, bind_eq_some_iff]
  constructor
  · intro h p fp c hfp hc
    obtain ⟨fp', hfp', hread⟩ := h p c ⟨fp, hfp, hc⟩
    cases hfp.symm.trans hfp'
    exact hread
  · rintro h p c ⟨fp, hfp, hc⟩
    exact ⟨fp, hfp, h p fp c hfp hc⟩

/-- Pages of the same files that have not been written anew hold what they held. -/
theorem matchingPagesHold_of_sameFiles {files : DataFiles C} {m : Manifest}
    (hcached : s.CachedPagesHold opts) (hsame : s.SameFiles opts files m) :
    s.MatchingPagesHold opts files m := by
  intro p fp c hfp hc
  have hmem := mem_of_find?_eq_some hc
  obtain ⟨rfl, rfl⟩ : c.pageId = p ∧ c.filePageId = fp := by simpa using find?_some hc
  obtain ⟨w, hold, hnew, hfile⟩ := hsame c hmem hfp
  have hread := hcached c hmem
  rw [readFilePage, hold] at hread
  rw [readFilePage, hnew]
  exact hfile.trans hread

/-- **When an installation is a fresh load.** If the cached pages agree with the files the ranges
named so far, and the manifest names the same files with the same pages, then the entry and the
ranges after `InstallExternalSnapshot` are those of a fresh load of the manifest, and the cached
pages that are kept hold the content of their file pages, just when no segment mapper is left over.
Whatever the files, it is so just when the cached pages of the manifest's pages also hold the bytes
of their file pages. After `InstallEmptySnapshot` it is so just when there was no segment mapper. -/
theorem freshLoad_iff (opts : KvOptions) (s : CachedRoot C) :
    (∀ found files m r, s.installExternalSnapshot opts found files (.manifest m) = some r →
      (s.CachedPagesHold opts → s.SameFiles opts files m →
        (r.FreshLoad opts m ∧ r.KeptPagesHold opts ↔
          SegmentsReplaced opts (s.part.findRootIn opts found) m)) ∧
      (r.FreshLoad opts m ∧ r.KeptPagesHold opts ↔
        SegmentsReplaced opts (s.part.findRootIn opts found) m ∧
          s.MatchingPagesHold opts files m)) ∧
    (∀ files m, s.CachedPagesHold opts → s.SameFiles opts files m →
      s.MatchingPagesHold opts files m) ∧
    ((s.installEmptySnapshot opts).FreshLoad opts ⟨emptySnapshot s.part, []⟩ ∧
        (s.installEmptySnapshot opts).KeptPagesHold opts ↔
      s.part.entry.bind (·.segmentMapper) = none) := by
  refine ⟨fun found files m r h ↦ ?_, fun _ _ ↦ matchingPagesHold_of_sameFiles, ?_⟩
  · have hiff : r.FreshLoad opts m ∧ r.KeptPagesHold opts ↔
        SegmentsReplaced opts (s.part.findRootIn opts found) m ∧
          s.MatchingPagesHold opts files m := by
      obtain ⟨-, rfl⟩ := ite_some_none_eq_some.1 h
      refine and_congr ?_ keptPagesHold_iff
      refine (and_iff_left rfl).trans ?_
      exact entry_install_iff opts _ m (.ofReplayer opts _ (replay m)) _ rfl
    exact ⟨fun hcached hsame ↦
      hiff.trans (and_iff_left (matchingPagesHold_of_sameFiles hcached hsame)), hiff⟩
  · refine (and_iff_left fun p c hc ↦ absurd hc (by simp [installEmptySnapshot])).trans ?_
    refine (and_iff_left rfl).trans ?_
    have hroot : ofReplayer opts s.part.processTerm (replay ⟨emptySnapshot s.part, []⟩) =
        CowRootMeta.toRoot
          { mapper := .empty (newAllocator opts)
            manifestSize := (emptySnapshot s.part).size
            ownCompression := some {} } := by
      simp only [ofReplayer, CowRootMeta.toRoot, getMapper_emptySnapshot]
      rfl
    have hiff := entry_install_iff opts s.part ⟨emptySnapshot s.part, []⟩
      { mapper := .empty (newAllocator opts)
        manifestSize := (emptySnapshot s.part).size
        ownCompression := some {} } [] rfl
    show _ = some (ofReplayer opts s.part.processTerm _) ↔ _
    rw [hroot]
    exact hiff.trans (by simp)

/-! ### Examples -/

def reopenOptions : KvOptions where
  dataAppendMode := true
  pagesPerFileShift := 4
  segmentsPerFileShift := 4
  manifestLimit := 100000
  fileAmplifyFactor := 2
  segmentFileAmplifyFactor := 2
  enableLocalStandby := false
  standbyMasterAddr := ""
  cloudStorePath := "bucket"

/-- A manifest with one page in the first file of a term, and segments or none. -/
def reopenManifest (term : ℕ) (segment : Option (ℕ × MappingTbl)) : Manifest where
  snapshot :=
    { root := some 0
      ttlRoot := none
      maxFpId := 1
      dictBytes := []
      mappingTbl := [.filePageId 0]
      branchMetadata := ⟨"main", term, [⟨"main", term, 0, 0⟩]⟩
      segment := segment }
  logs := []

/-- A partition that has been loaded, with its page in the cache; the page has another content in
the file of the next term. -/
def reopenedRoot (segment : Option (ℕ × MappingTbl)) : CachedRoot ℕ where
  part := (Partition.fresh "main" 1).loadMeta reopenOptions (reopenManifest 1 segment)
  cachedPages := [⟨0, 0, 10⟩]
  swizzled := [(0, ⟨0, 0, 10⟩)]
  files w fp := if fp = 0 then some (if w.term = 1 then 10 else 20) else none

/-- The same manifest with segments is installed: the cached page is kept. -/
theorem freshLoad_iff_kept :
    ∃ r : CachedRoot ℕ,
      (reopenedRoot none).installExternalSnapshot reopenOptions none (reopenedRoot none).files
        (.manifest (reopenManifest 1 (some (1, [.filePageId 0])))) = some r ∧
      r.swizzled = [(0, ⟨0, 0, 10⟩)] ∧
      r.FreshLoad reopenOptions (reopenManifest 1 (some (1, [.filePageId 0]))) ∧
      r.KeptPagesHold reopenOptions := by
  refine ⟨_, rfl, rfl, ?_⟩
  have hinstall : (reopenedRoot none).installExternalSnapshot reopenOptions none
      (reopenedRoot none).files (.manifest (reopenManifest 1 (some (1, [.filePageId 0])))) =
        some _ := rfl
  refine (((freshLoad_iff reopenOptions (reopenedRoot none)).1 _ _ _ _ hinstall).1 ?_ ?_).2
    (.inl (by decide))
  · intro c hc
    obtain rfl : c = ⟨0, 0, 10⟩ := by simpa [reopenedRoot] using hc
    decide
  · intro c hc _
    obtain rfl : c = ⟨0, 0, 10⟩ := by simpa [reopenedRoot] using hc
    exact ⟨⟨"main", 1⟩, by decide, by decide, rfl⟩

/-- **A manifest without segments leaves the old segment mapper, and a cached page is kept although
its page is in another file now.** -/
theorem installs_stale_parts :
    (∃ r : CachedRoot ℕ,
      (reopenedRoot (some (1, [.filePageId 0]))).installExternalSnapshot reopenOptions none
        (reopenedRoot none).files (.manifest (reopenManifest 1 none)) = some r ∧
      ((r.part.entry.bind (·.segmentMapper)).bind (·.toFilePage 0)) = some 0 ∧
      (replay (reopenManifest 1 none)).getSegmentMapper reopenOptions 1 = none ∧
      ¬r.FreshLoad reopenOptions (reopenManifest 1 none)) ∧
    ∃ r : CachedRoot ℕ, (reopenedRoot none).CachedPagesHold reopenOptions ∧
      (reopenedRoot none).installExternalSnapshot reopenOptions none (reopenedRoot none).files
        (.manifest (reopenManifest 2 none)) = some r ∧
      r.FreshLoad reopenOptions (reopenManifest 2 none) ∧ ¬r.KeptPagesHold reopenOptions := by
  refine ⟨⟨_, rfl, by decide, by decide, fun h ↦ ?_⟩, ⟨_, fun c hc ↦ ?_, rfl, ?_, fun h ↦ ?_⟩⟩
  · exact absurd h.1 (by decide)
  · obtain rfl : c = ⟨0, 0, 10⟩ := by simpa [reopenedRoot] using hc
    decide
  · exact ⟨by decide, rfl⟩
  · obtain ⟨fp, hfp, hread⟩ := h 0 ⟨0, 0, 10⟩ rfl
    obtain rfl : 0 = fp := some.inj hfp
    exact absurd hread (by decide)

end CachedRoot

end EloqStore
