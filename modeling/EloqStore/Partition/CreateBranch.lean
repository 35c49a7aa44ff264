import EloqStore.Cloud.FileNames
import EloqStore.Partition.WellFormed

/-!
# Forking a branch

`createBranch` compacts the partition (in append mode), serialises its root and writes it as the
first manifest of the child branch, under term 0 and with the data allocator moved to the next file.
An instance started on the child loads that manifest like any other.

The child **inherits** from its parent (`Inherits`) when loading it gives the parent's roots,
mappings and dictionary, when every inherited file still resolves to the file it was in, and when
nothing the child allocates is an inherited page. It does exactly when three things hold of the
partition before the fork (`Forkable`).

* It maps no segment: the snapshot is built without the segment mapping.
* Its file ranges are in memory. They are read *before* the root is looked up, and it is the loading
  of a root that brings them in; only append mode, which compacts first, is sure to have them.
* The child's pool has none of its pages. A pool has 32 bits for an id, so that an unused file page
  from `2 ^ 32` on can come back as a mapped one.
-/

namespace EloqStore

open List EloqStore.Partition Replayer RootMeta Transition WriteTask AllocatorKind

/-! ### The fork -/

/-- The snapshot of a child branch. The child starts in the file after the parent's current one. The
source passes **no segment mapping**, so the segment section is omitted. -/
def branchSnapshot (opts : KvOptions) (child : BranchName) (ranges : BranchFileMapping)
    (root : RootMeta) (mapper : PageMapper) : SnapshotRecord where
  root := root.rootId
  ttlRoot := root.ttlRootId
  maxFpId := (mapper.allocator.currentFileId + 1) <<< opts.pagesPerFileShift
  dictBytes := root.dictBytes
  mappingTbl := mapper.tbl
  branchMetadata := ⟨child, 0, ranges⟩
  segment := none

/-- Why a fork fails. -/
inductive ForkError
  | invalidArgs
  | compact (f : Failure)
deriving DecidableEq, Repr

namespace Partition

variable (opts : KvOptions) (s : Partition) (child : BranchName)

/-- The root `FindRoot` finds in the cache: a stub counts as not found. -/
def liveRoot : Option RootMeta := s.entry.filter (·.mapper.isSome)

def liveMapper : FileClass → Option PageMapper
  | .data => s.liveRoot.bind (·.mapper)
  | .segment => s.liveRoot.bind (·.segmentMapper)

/-- The child's first manifest; a parent that does not exist gives none. -/
def branchManifest (ranges : BranchFileMapping) (parent : Partition) : Option Manifest :=
  parent.liveRoot.bind fun root ↦ root.mapper.map fun mapper ↦
    ⟨branchSnapshot opts child ranges root mapper, []⟩

/-- Fork a branch; `cached` are the data pages in memory. Returns the child's manifest, if one is
written. -/
def createBranch (cached : List ℕ) (branchName : BranchName) :
    Except ForkError (Partition × Option Manifest) :=
  let child := normalizeBranchName branchName
  if child = "" then .error .invalidArgs
  else
    match if opts.dataAppendMode then s.runOp opts (.compact cached) else .ok s with
    | .error f => .error (.compact f)
    | .ok s₁ =>
      -- the ranges are read before the root is found, hence before a load
      let ranges := s₁.branchFileMapping
      let s₂ := s₁.findRoot opts
      .ok (s₂, branchManifest opts child ranges s₂)

/-- The pool that a load of the child's manifest gives, outside append mode. -/
def childPool (ranges : BranchFileMapping) (parent : Partition) : List ℕ :=
  (branchManifest opts child ranges parent).elim [] fun m ↦
    pooledFreeIds opts (replay m).branchMetadata (replay m).maxFpId (replay m).mappingTbl

/-- The partition as an instance on the child branch finds it. -/
def ofBranch (term : ℕ) (manifest : Option Manifest) : Partition :=
  { activeBranch := child, processTerm := term, manifest := manifest }

/-- The allocator the next task takes file pages of a class from. -/
def nextAllocator : FileClass → FilePageAllocator
  | .data => ((s.liveMapper .data).getD (.empty (newAllocator opts))).allocator
  | .segment => ((s.liveMapper .segment).getD (.empty (newSegmentAllocator opts))).allocator

end Partition

/-- The file page the `n`-th allocation hands out. -/
def FilePageAllocator.handedOut (a : FilePageAllocator) : ℕ → ℕ
  | 0 => a.allocate.1
  | n + 1 => a.allocate.2.handedOut n

/-! ### Inheritance -/

/-- **The child inherits from the parent.** -/
structure Inherits (opts : KvOptions) (parent child : Partition) : Prop where
  rootId : child.liveRoot.bind (·.rootId) = parent.liveRoot.bind (·.rootId)
  ttlRootId : child.liveRoot.bind (·.ttlRootId) = parent.liveRoot.bind (·.ttlRootId)
  mapping : ∀ c q, denote (child.liveMapper c) q = denote (parent.liveMapper c) q
  dict : (child.liveRoot.map (·.dictBytes)).getD [] = (parent.liveRoot.map (·.dictBytes)).getD []
  /-- Every mapped file page is found in the file it was found in. -/
  resolves : ∀ c q fp, denote (parent.liveMapper c) q = some fp →
    getBranchNameAndTerm child.branchFileMapping ⟨c, fileOf (opts.shift c) fp⟩ =
      getBranchNameAndTerm parent.branchFileMapping ⟨c, fileOf (opts.shift c) fp⟩
  /-- No mapped file page is handed out again. -/
  disjoint : ∀ c q fp, denote (parent.liveMapper c) q = some fp →
    ∀ n, (child.nextAllocator opts c).handedOut n ≠ fp

/-- **The partitions whose forks inherit.** -/
structure Partition.Forkable (opts : KvOptions) (child : BranchName) (s : Partition) : Prop where
  segments : ∀ q, denote ((s.findRoot opts).liveMapper .segment) q = none
  /-- The root is loaded by the compaction or cached already, or the ranges in memory name the
  mapped data files as the manifest does. -/
  ranges : opts.dataAppendMode = true ∨ s.entry ≠ none ∨ ∀ m, s.manifest = some m →
    ∀ q fp, (replay m).mappingTbl.toFilePage q = some fp →
      getBranchNameAndTerm s.branchFileMapping ⟨.data, fileOf opts.pagesPerFileShift fp⟩ =
        getBranchNameAndTerm (replay m).branchMetadata.fileRanges
          ⟨.data, fileOf opts.pagesPerFileShift fp⟩
  /-- No file page that is free for the child has the low 32 bits of a mapped one. -/
  pool : opts.dataAppendMode = true ∨
    ∀ q fp, denote ((s.findRoot opts).liveMapper .data) q = some fp →
      fp ∉ (s.findRoot opts).childPool opts child s.branchFileMapping

/-! ### What an allocator hands out -/

/-- An allocator hands out what its pool holds, or something at or above its maximum. -/
theorem FilePageAllocator.handedOut_cases (a : FilePageAllocator) (n : ℕ) :
    (∃ ids, a.kind = .pooled ids ∧ a.handedOut n ∈ ids) ∨ a.maxFpId ≤ a.handedOut n := by
  induction n generalizing a with
  | zero =>
    unfold handedOut allocate
    split
    · exact .inr le_rfl
    · exact .inr le_rfl
    · next fp rest hk => exact .inl ⟨_, hk, by simp⟩
  | succ n ih =>
    rw [handedOut]
    rcases ih a.allocate.2 with ⟨ids, hk, hmem⟩ | hle
    · unfold allocate at hk hmem ⊢
      split at hk
      · next m e hk' => simp [hk'] at hk
      · next hk' =>
        simp only [hk', pooled.injEq] at hk
        simp [← hk] at hmem
      · next fp rest hk' =>
        simp only [pooled.injEq] at hk
        refine .inl ⟨_, hk', ?_⟩
        simp only [hk'] at hmem ⊢
        exact mem_cons_of_mem _ (hk ▸ hmem)
    · exact .inr (a.maxFpId_le_allocate.trans hle)

/-- A pool hands out all it has. -/
theorem FilePageAllocator.exists_handedOut {a : FilePageAllocator} {ids : List ℕ}
    (hk : a.kind = .pooled ids) {fp : ℕ} (hfp : fp ∈ ids) : ∃ n, a.handedOut n = fp := by
  induction ids generalizing a with
  | nil => cases hfp
  | cons id ids ih =>
    have halloc : a.allocate = (id, { a with kind := .pooled ids }) := by simp only [allocate, hk]
    rcases mem_cons.1 hfp with rfl | hfp
    · exact ⟨0, by rw [handedOut, halloc]⟩
    · obtain ⟨n, hn⟩ := ih (a := a.allocate.2) (by rw [halloc]) hfp
      exact ⟨n + 1, hn⟩

/-! ### What a compaction does to the segments -/

def WriteTask.MapsSegment (t : WriteTask) : Prop := ∃ q fp, denote t.cow.segmentMapper q = some fp

variable {opts : KvOptions} {s s' : Partition} {t : WriteTask}

/-- A step of a compaction leaves a segment mapped if there was one, or if it moves one. -/
private theorem mapsSegment_taskStep {a : TaskStep} (ht : s.task = some t)
    (hstep : s.taskStep opts a = .ok s')
    (ha : (∃ c minFileId holeCnt, a = .updateStat c minFileId holeCnt) ∨
      (∃ page, a = .allocatePage (some page)) ∨ ∃ page, a = .allocateSegment (some page)) :
    ∃ t', s'.task = some t' ∧
      (t'.MapsSegment ↔ t.MapsSegment ∨ ∃ page, a = .allocateSegment (some page)) := by
  obtain ⟨t₀, ht₀, heff⟩ := taskStep_ok hstep
  cases ht.symm.trans ht₀
  -- the first two kinds of step change nothing the segment mapper denotes
  have hsame : ∀ t' : WriteTask, (∀ page, a ≠ .allocateSegment (some page)) →
      (∀ q, denote t'.cow.segmentMapper q = denote t.cow.segmentMapper q) →
      (t'.MapsSegment ↔ t.MapsSegment ∨ ∃ page, a = .allocateSegment (some page)) := by
    intro t' hne hden
    simp only [MapsSegment, hden, hne, exists_false, or_false]
  rcases ha with ⟨c, minFileId, holeCnt, rfl⟩ | ⟨page, rfl⟩ | ⟨page, rfl⟩
  · obtain ⟨-, rfl⟩ := heff
    refine ⟨_, rfl, hsame _ (by simp) fun q ↦ ?_⟩
    cases c with
    | data => rfl
    | segment => cases hm : t.cow.segmentMapper <;> simp [updateStat, hm]; rfl
  · obtain ⟨fp, t', ranges', halloc, rfl⟩ := heff
    obtain ⟨-, -, hcow, -⟩ := allocatePage_ok halloc
    exact ⟨t', rfl, hsame t' (by simp) fun q ↦ by rw [hcow]⟩
  · obtain ⟨fp, t', ranges', halloc, rfl⟩ := heff
    obtain ⟨m, -, -, -, hcow, -⟩ := allocateSegment_ok halloc
    refine ⟨t', rfl, fun _ ↦ .inr ⟨page, rfl⟩, fun _ ↦ ⟨page, m.allocator.allocate.1, ?_⟩⟩
    rw [hcow, denote_some, toFilePage_allocated]
    exact if_pos rfl

private theorem mapsSegment_taskSteps {as : List TaskStep} (ht : s.task = some t)
    (hsteps : s.taskSteps opts as = .ok s')
    (has : ∀ a ∈ as, (∃ c minFileId holeCnt, a = .updateStat c minFileId holeCnt) ∨
      (∃ page, a = .allocatePage (some page)) ∨ ∃ page, a = .allocateSegment (some page)) :
    ∃ t', s'.task = some t' ∧
      (t'.MapsSegment ↔ t.MapsSegment ∨ ∃ page, .allocateSegment (some page) ∈ as) := by
  induction as generalizing s t with
  | nil =>
    obtain rfl : s = s' := by simpa [taskSteps] using hsteps
    exact ⟨t, ht, by simp⟩
  | cons a as ih =>
    obtain ⟨s₁, hs₁, hrest⟩ := taskSteps_cons hsteps
    obtain ⟨t₁, ht₁, h₁⟩ := mapsSegment_taskStep ht hs₁ (has a (by simp))
    obtain ⟨t', ht', h'⟩ := ih ht₁ hrest fun b hb ↦ has b (mem_cons_of_mem _ hb)
    refine ⟨t', ht', h'.trans ?_⟩
    rw [h₁, or_assoc, ← exists_or]
    simp only [mem_cons, eq_comm]

namespace Partition

theorem liveMapper_of_mappers {m? sm? : Option PageMapper} (h : s.mappers = some (m?, sm?)) :
    s.liveMapper .data = m? ∧ s.liveMapper .segment = m?.bind fun _ ↦ sm? := by
  obtain ⟨root, hroot, hpair⟩ := Option.map_eq_some_iff.1 h
  obtain ⟨rfl, rfl⟩ := Prod.mk.inj hpair
  cases hm : root.mapper <;> simp [liveMapper, liveRoot, hroot, hm, Option.filter]

theorem liveMapper_of_none (h : s.mappers = none) (c : FileClass) : s.liveMapper c = none := by
  have hentry : s.entry = none := Option.map_eq_none_iff.1 h
  cases c <;> simp [liveMapper, liveRoot, hentry]

theorem liveMapper_makeCowRoot (opts : KvOptions) (s : Partition) (c : FileClass) :
    (s.makeCowRoot opts).liveMapper c = (s.findRoot opts).liveMapper c := by
  obtain ⟨hmap, -⟩ := makeCowRoot_frame opts s
  cases hf : (s.findRoot opts).mappers with
  | none =>
    rw [hf] at hmap
    rw [liveMapper_of_none hf]
    cases c with
    | data => exact (liveMapper_of_mappers hmap).1
    | segment => exact (liveMapper_of_mappers hmap).2
  | some p =>
    obtain ⟨m?, sm?⟩ := p
    rw [hf] at hmap
    cases c with
    | data => rw [(liveMapper_of_mappers hmap).1, (liveMapper_of_mappers hf).1]
    | segment => rw [(liveMapper_of_mappers hmap).2, (liveMapper_of_mappers hf).2]

/-- **A compaction** keeps the partition well formed, leaves its root cached, and neither maps a
first segment nor unmaps the last. -/
theorem runOp_compact (h : s.WellFormed opts) (hidle : s.task = none) {cached : List ℕ}
    (hrun : s.runOp opts (.compact cached) = .ok s') :
    s'.WellFormed opts ∧ s'.task = none ∧ s'.entry.isSome ∧
      ((∃ q fp, denote (s'.liveMapper .segment) q = some fp) ↔
        ∃ q fp, denote ((s.findRoot opts).liveMapper .segment) q = some fp) := by
  have h₀ := h.makeCowRoot hidle
  obtain ⟨t, m?, sm?, ht, hm, -, hseg, -⟩ := makeCowRoot_spec opts s
  have hlive : (s.findRoot opts).liveMapper .segment = t.cow.segmentMapper := by
    rw [← liveMapper_makeCowRoot, (liveMapper_of_mappers hm).2, hseg]
  rw [hlive]
  simp only [runOp, ht] at hrun
  split at hrun
  · -- nothing to compact: the task is dropped
    rw [← Except.ok.inj hrun]
    refine ⟨h₀.abort, rfl, ?_, ?_⟩
    · exact (h₀.task t ht).entry
    · rw [liveMapper_of_mappers (s := (s.makeCowRoot opts).abort) hm |>.2, hseg]
  · cases hs : (s.makeCowRoot opts).taskSteps opts (compactSteps opts cached t.cow) with
    | error f => simp [hs, Except.bind] at hrun
    | ok s₁ =>
      have h₁ := h₀.taskSteps hs
      obtain ⟨t₁, ht₁, hmaps⟩ := mapsSegment_taskSteps ht hs fun a ha ↦ by
        rcases mem_compactSteps ha with h | ⟨-, h⟩ | ⟨-, h⟩
        · exact .inl h
        · exact .inr (.inl h)
        · exact .inr (.inr h)
      -- a segment that is moved is a segment that is mapped
      have hmoves : (∃ page, .allocateSegment (some page) ∈ compactSteps opts cached t.cow) →
          t.MapsSegment := by
        rintro ⟨page, hpage⟩
        by_contra hnone
        have hstay : ¬ t.cow.MovesSegments opts := CowRootMeta.not_movesSegments fun q ↦
          Option.eq_none_iff_forall_not_mem.2 fun fp hfp ↦ hnone ⟨q, fp, hfp⟩
        rcases mem_compactSteps hpage with ⟨c, x, y, h⟩ | ⟨-, p, h⟩ | ⟨h, -⟩
        · cases h
        · cases h
        · exact hstay h
      simp only [hs, Except.bind, commit, ht₁] at hrun
      split at hrun
      · rw [← Except.ok.inj hrun]
        have hsound := h₁.task t₁ ht₁
        obtain ⟨⟨m₁?, sm₁?⟩, hm₁⟩ := Option.isSome_iff_exists.1
          ((isSome_mappers s₁).trans hsound.entry)
        have hc := updateMeta_spec opts ht₁ hm₁
        have hmap := hc.mappers
        rw [hsound.or_segmentMapper hm₁] at hmap
        refine ⟨h₁.updateMeta ht₁, hc.idle, ?_, ?_⟩
        · exact isSome_entry hmap
        · rw [(liveMapper_of_mappers hmap).2]
          exact hmaps.trans (or_iff_left_of_imp hmoves)
      · cases hrun

end Partition

/-! ### What a child loads -/

namespace Partition

variable {parent : Partition} {m? : Option Manifest} {cached : List ℕ} {name : BranchName}

theorem createBranch_ok (h : s.createBranch opts cached name = .ok (parent, m?)) :
    ∃ s₁, (if opts.dataAppendMode then s.runOp opts (.compact cached) else .ok s) = .ok s₁ ∧
      parent = s₁.findRoot opts ∧
      m? = branchManifest opts (normalizeBranchName name) s₁.branchFileMapping parent := by
  unfold createBranch at h
  dsimp only at h
  split at h
  · cases h
  · split at h
    · cases h
    · next s₁ hs₁ =>
      obtain ⟨rfl, rfl⟩ := Prod.mk.inj (Except.ok.inj h)
      exact ⟨s₁, hs₁, rfl, rfl⟩

/-- The child of a partition that does not exist does not exist either. -/
private theorem liveRoot_ofBranch_of_none (opts : KvOptions) (child : BranchName) (term : ℕ)
    (ranges : BranchFileMapping) (hroot : parent.liveRoot = none) :
    ((ofBranch child term (branchManifest opts child ranges parent)).findRoot opts).liveRoot =
      none := by
  simp only [branchManifest, hroot, Option.bind_none, findRoot, ofBranch]
  rfl

private theorem findRoot_ofBranch_of_some (opts : KvOptions) (child : BranchName) (term : ℕ)
    (ranges : BranchFileMapping) {root : RootMeta} {mapper : PageMapper}
    (hroot : parent.liveRoot = some root) (hmapper : root.mapper = some mapper) :
    ((ofBranch child term (branchManifest opts child ranges parent)).findRoot opts).liveRoot =
        some (RootMeta.ofReplayer opts term
          (deserializeSnapshot (branchSnapshot opts child ranges root mapper))) ∧
      ((ofBranch child term
        (branchManifest opts child ranges parent)).findRoot opts).branchFileMapping = ranges := by
  simp only [branchManifest, hroot, hmapper, Option.bind_some, Option.map_some, findRoot, ofBranch,
    loadMeta]
  exact ⟨rfl, rfl⟩

/-- The data pages a child hands out are none of its parent's. -/
private theorem handedOut_getMapper_ne {mapper : PageMapper} (hsound : mapper.Sound)
    (hshift : mapper.allocator.shift = opts.pagesPerFileShift) (child : BranchName) (term : ℕ)
    (ranges : BranchFileMapping) (root : RootMeta) {q fp : ℕ} (hq : mapper.toFilePage q = some fp)
    (hpool : opts.dataAppendMode = true ∨
      fp ∉ pooledFreeIds opts ⟨child, 0, ranges⟩
      ((mapper.allocator.currentFileId + 1) <<< opts.pagesPerFileShift) mapper.tbl) (n : ℕ) :
    (((deserializeSnapshot (branchSnapshot opts child ranges root mapper)).getMapper opts
      term).allocator).handedOut n ≠ fp := by
  set r := deserializeSnapshot (branchSnapshot opts child ranges root mapper) with hr
  -- the child's maximum is the start of the file after the parent's
  have hmax : fp < r.maxFpId := by
    refine Nat.lt_of_lt_of_le (hsound.below q fp hq) ?_
    have hbump := bumpToNextFile_ge opts.pagesPerFileShift mapper.allocator.maxFpId
    simpa [hr, deserializeSnapshot, branchSnapshot, FilePageAllocator.currentFileId, bumpToNextFile,
      hshift] using hbump
  have hge : r.maxFpId ≤ (r.getMapper opts term).allocator.maxFpId := by
    rw [getMapper, allocator_mapperOfTable]
    split
    · rw [appendAllocatorOf_maxFpId, dataMaxFpId]
      split
      · exact bumpToNextFile_ge _ _
      · exact le_rfl
    · exact le_rfl
  rcases (r.getMapper opts term).allocator.handedOut_cases n with ⟨ids, hids, hmem⟩ | hle
  · -- a pooled page is not mapped
    rintro rfl
    rw [getMapper, allocator_mapperOfTable] at hids
    split at hids
    · obtain ⟨a, b, hk⟩ := isAppend_appendAllocatorOf opts.pagesPerFileShift
        (r.dataMaxFpId opts term) r.mappingTbl
      simp [hk] at hids
    · next happ =>
      exact hpool.resolve_left happ (pooled.inj hids ▸ hmem)
  · exact (hmax.trans_le (hge.trans hle)).ne'

/-- **What a child inherits**: everything but the segment mapping, under the ranges it was given. -/
theorem inherits_iff (h : parent.WellFormed opts) (child : BranchName) (term : ℕ)
    (ranges : BranchFileMapping) :
    Inherits opts parent
        ((ofBranch child term (branchManifest opts child ranges parent)).findRoot opts) ↔
      (∀ q, denote (parent.liveMapper .segment) q = none) ∧
        (∀ q fp, denote (parent.liveMapper .data) q = some fp →
          getBranchNameAndTerm ranges ⟨.data, fileOf opts.pagesPerFileShift fp⟩ =
            getBranchNameAndTerm parent.branchFileMapping
              ⟨.data, fileOf opts.pagesPerFileShift fp⟩) ∧
        (opts.dataAppendMode = true ∨ ∀ q fp, denote (parent.liveMapper .data) q = some fp →
          fp ∉ parent.childPool opts child ranges) := by
  cases hroot : parent.liveRoot with
  | none =>
    have hchild := liveRoot_ofBranch_of_none opts child term ranges hroot
    have hparent : ∀ c, parent.liveMapper c = none := fun c ↦ by
      cases c <;> simp [liveMapper, hroot]
    refine ⟨fun _ ↦ ⟨by simp [hparent], by simp [hparent], .inr (by simp [hparent])⟩, fun _ ↦
      ⟨by simp [hroot, hchild], by simp [hroot, hchild], fun c q ↦ ?_, by simp [hroot, hchild],
        by simp [hparent], by simp [hparent]⟩⟩
    rw [hparent]
    cases c <;> simp [liveMapper, hchild]
  | some root =>
    obtain ⟨hentry, hsome⟩ := Option.filter_eq_some_iff.1 hroot
    obtain ⟨mapper, hmapper⟩ := Option.isSome_iff_exists.1 hsome
    obtain ⟨hchild, hranges⟩ :=
      findRoot_ofBranch_of_some opts child term ranges hroot hmapper
    generalize (ofBranch child term (branchManifest opts child ranges parent)).findRoot opts = ch
      at hchild hranges
    have hm : parent.mappers = some (some mapper, root.segmentMapper) := by
      simp [mappers, hentry, hmapper]
    have hdata : parent.liveMapper .data = some mapper := (liveMapper_of_mappers hm).1
    have hnoSegment : ch.liveMapper .segment = none := by
      simp [liveMapper, hchild, ofReplayer, getSegmentMapper, deserializeSnapshot,
        branchSnapshot]
    have hchildData : ch.liveMapper .data = some
        ((deserializeSnapshot
          (branchSnapshot opts child ranges root mapper)).getMapper opts term) := by
      simp [liveMapper, hchild, ofReplayer]
    have hpool : parent.childPool opts child ranges = pooledFreeIds opts ⟨child, 0, ranges⟩
        ((mapper.allocator.currentFileId + 1) <<< opts.pagesPerFileShift) mapper.tbl := by
      simp only [childPool, branchManifest, hroot, hmapper, Option.bind_some, Option.map_some,
        Option.elim_some]
      rfl
    constructor
    · intro hin
      refine ⟨fun q ↦ ?_, fun q fp hq ↦ ?_, ?_⟩
      · rw [← hin.mapping, hnoSegment]
        rfl
      · rw [← hranges]
        exact hin.resolves .data q fp hq
      · by_cases happ : opts.dataAppendMode = true
        · exact .inl happ
        · refine .inr fun q fp hq hmem ↦ ?_
          have hkind : (ch.nextAllocator opts .data).kind =
              .pooled (parent.childPool opts child ranges) := by
            rw [nextAllocator, hchildData, Option.getD_some, getMapper, allocator_mapperOfTable,
              if_neg happ, hpool]
            rfl
          obtain ⟨n, hn⟩ := FilePageAllocator.exists_handedOut hkind hmem
          exact hin.disjoint .data q fp hq n hn
    · rintro ⟨hseg, hres, hfree⟩
      refine ⟨by rw [hchild, hroot]; rfl, by rw [hchild, hroot]; rfl, fun c q ↦ ?_, ?_,
        fun c q fp hq ↦ ?_, fun c q fp hq n ↦ ?_⟩
      · cases c with
        | data =>
          rw [hchildData, hdata]
          exact toFilePage_mapperOfTable _ _ q
        | segment => rw [hseg, hnoSegment, denote_none]
      · rw [hchild, hroot, Option.map_some, dictBytes_ofReplayer]
        rfl
      · cases c with
        | data =>
          rw [hranges]
          exact hres q fp hq
        | segment => simp [hseg] at hq
      · cases c with
        | data =>
          rw [hdata, denote_some] at hq
          rw [nextAllocator, hchildData]
          refine handedOut_getMapper_ne (h.published mapper _ hm).1 (h.shift mapper _ hm) child term
            ranges root hq (hfree.imp_right fun hfree ↦ ?_) n
          exact hpool ▸ hfree q fp (by rw [hdata, denote_some, hq])
        | segment => simp [hseg] at hq

/-- Outside append mode the ranges read are those in memory before the root is loaded. -/
private theorem ranges_iff (opts : KvOptions) (s : Partition) :
    (∀ q fp, denote ((s.findRoot opts).liveMapper .data) q = some fp →
        getBranchNameAndTerm s.branchFileMapping ⟨.data, fileOf opts.pagesPerFileShift fp⟩ =
          getBranchNameAndTerm (s.findRoot opts).branchFileMapping
            ⟨.data, fileOf opts.pagesPerFileShift fp⟩) ↔
      (s.entry ≠ none ∨ ∀ m, s.manifest = some m →
        ∀ q fp, (replay m).mappingTbl.toFilePage q = some fp →
          getBranchNameAndTerm s.branchFileMapping ⟨.data, fileOf opts.pagesPerFileShift fp⟩ =
            getBranchNameAndTerm (replay m).branchMetadata.fileRanges
              ⟨.data, fileOf opts.pagesPerFileShift fp⟩) := by
  cases hentry : s.entry with
  | some root => simp [findRoot, hentry]
  | none =>
    cases hm : s.manifest with
    | none => simp [findRoot, hentry, hm]
    | some m =>
      have hfind : s.findRoot opts = s.loadMeta opts m := by simp [findRoot, hentry, hm]
      have hdata : (s.loadMeta opts m).liveMapper .data =
          some ((replay m).getMapper opts s.processTerm) := rfl
      have hmap : ∀ q, denote ((s.loadMeta opts m).liveMapper .data) q =
          (replay m).mappingTbl.toFilePage q := fun q ↦ by
        exact toFilePage_mapperOfTable _ _ q
      have hranges : (s.loadMeta opts m).branchFileMapping =
        (replay m).branchMetadata.fileRanges := rfl
      simp [hfind, hmap, hranges]

end Partition

/-- **A fork inherits exactly when the partition is forkable.** For every partition, whatever has
happened to it, and every term the child is started under. -/
theorem child_inherits_iff_forkable (opts : KvOptions) {s₀ s parent : Partition}
    {m? : Option Manifest} {cached : List ℕ} {name : BranchName} (h₀ : s₀.Unloaded)
    (hrun : Histories opts s₀ s) (hidle : s.task = none)
    (hfork : s.createBranch opts cached name = .ok (parent, m?)) (term : ℕ) :
    Inherits opts parent ((Partition.ofBranch (normalizeBranchName name) term m?).findRoot opts) ↔
      s.Forkable opts (normalizeBranchName name) := by
  have hs : s.WellFormed opts := wellFormed_of_run h₀ hrun
  obtain ⟨s₁, hs₁, rfl, rfl⟩ := createBranch_ok hfork
  by_cases happ : opts.dataAppendMode = true
  · rw [if_pos happ] at hs₁
    obtain ⟨h₁, hidle₁, hentry, hseg⟩ := runOp_compact hs hidle hs₁
    -- the compaction left the root cached, so the ranges read are the parent's
    have hfind : s₁.findRoot opts = s₁ := by
      obtain ⟨root, hroot⟩ := Option.isSome_iff_exists.1 hentry
      simp [findRoot, hroot]
    have hnone : (∀ q, denote (s₁.liveMapper .segment) q = none) ↔
        ∀ q, denote ((s.findRoot opts).liveMapper .segment) q = none := by
      simpa only [not_exists, Option.eq_none_iff_forall_ne_some] using not_congr hseg
    rw [hfind, inherits_iff h₁, hnone]
    exact ⟨fun h ↦ ⟨h.1, .inl happ, .inl happ⟩,
      fun h ↦ ⟨h.segments, fun _ _ _ ↦ rfl, .inl happ⟩⟩
  · rw [if_neg happ] at hs₁
    obtain rfl : s = s₁ := Except.ok.inj hs₁
    rw [inherits_iff (hs.findRoot hidle), ranges_iff]
    exact ⟨fun h ↦ ⟨h.1, .inr h.2.1, h.2.2⟩,
      fun h ↦ ⟨h.segments, h.ranges.resolve_left happ, h.pool⟩⟩

/-- A write of two pages, committed. -/
def pageWrites : List PartitionEvent :=
  [.begin, .step (.allocatePage none), .step (.allocatePage none),
    .step (.setRoots (some 1) none 0), .commit]

/-- A write of a page and a segment, committed. -/
def segmentWrite : List PartitionEvent :=
  [.begin, .step .ensureSegmentMapper, .step (.allocateSegment none), .step (.allocatePage none),
    .step (.setRoots (some 0) none 0), .commit]

/-- The child of a partition with two pages and no segment inherits both. -/
theorem child_inherits_pageWrites : ∃ s parent m,
    Histories sampleOptions (.fresh "main" 1) s ∧
      s.createBranch sampleOptions [] "dev" = .ok (parent, some m) ∧
      Inherits sampleOptions parent
        ((Partition.ofBranch (normalizeBranchName "dev") 1 (some m)).findRoot sampleOptions) := by
  obtain ⟨s, hrun, hidle, hseg, ⟨parent, m?⟩, hp, hm⟩ : ∃ s,
      Histories sampleOptions (.fresh "main" 1) s ∧ s.task = none ∧
      (s.findRoot sampleOptions).liveMapper .segment = none ∧
      ∃ p ∈ (s.createBranch sampleOptions [] "dev").toOption, p.2.isSome :=
    exists_reach_of_exec pageWrites (by decide)
  obtain ⟨m, rfl⟩ := Option.isSome_iff_exists.1 hm
  have hfork := ok_of_toOption hp
  refine ⟨s, parent, m, hrun, hfork, ?_⟩
  refine (child_inherits_iff_forkable sampleOptions (unloaded_fresh "main" 1) hrun hidle
    hfork 1).2 ⟨fun q ↦ ?_, .inl rfl, .inl rfl⟩
  rw [hseg, denote_none]

/-- **A fork loses the segments.** The parent maps segment 0. The child's manifest says nothing of
it, and the first segment the child allocates is the parent's. -/
theorem fork_loses_segments : ∃ s parent m child,
    Histories sampleOptions (.fresh "main" 1) s ∧ s.task = none ∧
      s.createBranch sampleOptions [] "dev" = .ok (parent, some m) ∧
      child = (Partition.ofBranch (normalizeBranchName "dev") 1 (some m)).findRoot sampleOptions ∧
      denote (parent.liveMapper .segment) 0 = some 0 ∧ denote (child.liveMapper .segment) 0 = none ∧
      (child.nextAllocator sampleOptions .segment).handedOut 0 = 0 ∧
      ¬ Inherits sampleOptions parent child := by
  obtain ⟨s, hrun, hidle, ⟨parent, m?⟩, hp, m, hm, hmapped, hlost, hfirst⟩ : ∃ s,
      Histories sampleOptions (.fresh "main" 1) s ∧ s.task = none ∧
      ∃ p ∈ (s.createBranch sampleOptions [] "dev").toOption, ∃ m ∈ p.2,
      denote (p.1.liveMapper .segment) 0 = some 0 ∧
      denote (((ofBranch (normalizeBranchName "dev") 1 (some m)).findRoot
      sampleOptions).liveMapper .segment) 0 = none ∧
      (((ofBranch (normalizeBranchName "dev") 1 (some m)).findRoot
      sampleOptions).nextAllocator sampleOptions .segment).handedOut 0 = 0 :=
    exists_reach_of_exec segmentWrite (by decide)
  obtain rfl : m? = some m := hm
  refine ⟨s, parent, m, _, hrun, hidle, ok_of_toOption hp, rfl, hmapped, hlost, hfirst,
    fun hin ↦ ?_⟩
  have h := hin.mapping .segment 0
  rw [hlost, hmapped] at h
  cases h

end EloqStore
