import EloqStore.Foundation.AssocMap
import EloqStore.Partition.LocalBranches

/-!
# Branches of a local store do not touch each other's files

A page write changes another branch's content only by going into a file of that branch, or into a
page of the active branch's own file that another branch has inherited. A fresh file page does
neither: it lies above everything any branch has inherited. A page of the **pool** can do both,
because a page enters a pool without regard to whose file it lies in when a replaced mapping is
released, and without regard to who has inherited it also when the pool is rebuilt.

`LocalStore.Private` says of a file page that it lies in a file of the active branch and that no
other branch's manifest uses it there. In every run in which only private pages enter a pool, and in
which a fork finds no range ahead of the allocator and no pooled page in use, and takes a name that
is free, each write goes into a file of the active branch, is found again there, and leaves every
other branch as it was. This file has the invariant, with the load of a root and the steps of a
task; the rest of a run is in `IsolationRuns`.
-/

namespace EloqStore

open FilePageAllocator List Option PageMapper EloqStore.Partition Replayer WriteTask Partition

/-! ### The condition -/

/-- The owner the ranges give for the file of a file page. -/
def ownerOf (opts : KvOptions) (ranges : BranchFileMapping) (fp : ℕ) : Option Owner :=
  getBranchNameAndTerm ranges (dataFileKey (fileOf opts.pagesPerFileShift fp))

namespace LocalStore

variable (opts : KvOptions) (s : LocalStore)

/-- **A file page no other branch can read**: its file is the active branch's, and no other branch's
manifest maps it in that file. -/
def Private (fp : ℕ) : Prop :=
  ownerOf opts s.part.branchFileMapping fp = some s.part.owner ∧
    ∀ x ∈ s.others, fp ∈ (replay x.2).mappingTbl.mapped.map (·.1) →
      ownerOf opts (replay x.2).branchMetadata.fileRanges fp ≠ some s.part.owner

instance (fp : ℕ) : Decidable (s.Private opts fp) := inferInstanceAs (Decidable (_ ∧ _))

/-- The store with the root in memory. -/
def loaded : LocalStore := { s with part := s.part.findRoot opts }

/-- The published data mapper, of a partition that may have to be loaded. -/
def rootMapper : Option PageMapper := (s.loaded opts).part.publishedMapper

/-- **Loading the root is harmless**: the pool rebuilt from the manifest has private pages only. -/
def SafeLoad : Prop :=
  s.part.entry = none →
    ∀ m ∈ s.rootMapper opts, ∀ fp ∈ m.allocator.freeIds, (s.loaded opts).Private opts fp

instance : Decidable (s.SafeLoad opts) := inferInstanceAs (Decidable (_ → _))

end LocalStore

/-- **The condition on an event**, given the state it finds. A pool keeps 32 bits of an id. -/
def LocalEvent.Isolated (opts : KvOptions) (s : LocalStore) : LocalEvent → Prop
  | .begin => s.SafeLoad opts
  | .release => ∀ fp ∈ s.part.pendingFree.headD [], s.Private opts (fp % 2 ^ 32)
  | .fork child => s.SafeLoad opts ∧ normalizeBranchName child ≠ s.part.activeBranch ∧
      (∀ x ∈ s.others, x.1 ≠ normalizeBranchName child) ∧ ∀ m ∈ s.rootMapper opts,
        (∀ r ∈ s.part.branchFileMapping, r.maxFileId ≤ m.allocator.currentFileId) ∧
          ∀ fp ∈ m.allocator.freeIds, fp ∉ m.tbl.mapped.map (·.1)
  | .step _ | .write _ _ | .commit | .abort | .openFile _ | .closeFile _ | .restart _ => True

instance LocalEvent.decidableIsolated (opts : KvOptions) (s : LocalStore) (e : LocalEvent) :
    Decidable (e.Isolated opts s) := by
  cases e <;> dsimp only [LocalEvent.Isolated] <;> infer_instance

/-! ### The invariant -/

abbrev Manifests := BranchName → Option Manifest

/-- **What is inherited, its branch has.** When the ranges put a file page that a mapping of branch
`branch` uses in another branch's file, that branch has a manifest whose allocator is past the
page. -/
def Placed (opts : KvOptions) (M : Manifests) (branch : BranchName) (ranges : BranchFileMapping)
    (f : ℕ → Option ℕ) : Prop :=
  ∀ q fp o, f q = some fp → ownerOf opts ranges fp = some o → o.branchName ≠ branch →
    ∃ m, M o.branchName = some m ∧ fp < (replay m).maxFpId

/-- The manifests `M'` have grown from `M`: none has gone, and no allocator has moved back. -/
def Manifests.Grown (M M' : Manifests) : Prop :=
  ∀ b m, M b = some m → ∃ m', M' b = some m' ∧ (replay m).maxFpId ≤ (replay m').maxFpId

/-- **What holds of a manifest on disk.** -/
structure ManifestPlaced (opts : KvOptions) (M : Manifests) (branch : BranchName) (m : Manifest) :
    Prop where
  sound : (replay m).Sound
  sorted : RangesSorted (replay m).branchMetadata.fileRanges
  ahead : OthersBelow (replay m).branchMetadata.fileRanges .data ⟨branch, 0⟩
    (fileOf opts.pagesPerFileShift (replay m).maxFpId)
  placed : Placed opts M branch (replay m).branchMetadata.fileRanges
    (replay m).mappingTbl.toFilePage

namespace LocalStore

variable (opts : KvOptions) (s : LocalStore)

def startFile : ℕ := (s.part.publishedMapper.map (·.allocator.currentFileId)).getD 0

/-- The pages that a mapping of the active branch uses are placed, under the ranges in memory. -/
def PlacedIn (f : ℕ → Option ℕ) : Prop :=
  Placed opts s.manifestOf s.part.activeBranch s.part.branchFileMapping f

/-- **What holds of a data mapper in memory.** -/
structure MapperPlaced (m : PageMapper) : Prop where
  pooled : m.allocator.IsPooled
  placed : s.PlacedIn opts m.toFilePage
  pool : ∀ fp ∈ m.allocator.freeIds, s.Private opts fp

/-- **What holds of a running task.** -/
structure TaskPlaced (t : WriteTask) : Prop extends MapperPlaced opts s t.cow.mapper where
  /-- A manifest written now would have its allocator's maximum, whether it is rewritten or the
  task's changes are appended. -/
  maxFp : (t.applied (durable s.part.manifest) .data).2 = t.cow.mapper.allocator.maxFpId
  start : s.startFile ≤ t.cow.mapper.allocator.currentFileId
  logged : s.PlacedIn opts (t.applied (durable s.part.manifest) .data).1.toFilePage

/-- **What holds of a partition in memory.** -/
structure InMemory : Prop where
  wf : s.part.WellFormed opts
  sized : s.part.Sized
  /-- Without a published mapper, cached or to be loaded, the partition does not exist. -/
  loaded : s.part.publishedMapper = none → s.part.manifest = none
  published : ∀ m, s.part.publishedMapper = some m → s.MapperPlaced opts m ∧
    m.allocator.maxFpId = (durable s.part.manifest).maxFpId
  disk : s.PlacedIn opts (durable s.part.manifest).mappingTbl.toFilePage
  sorted : RangesSorted s.part.branchFileMapping
  ahead : OthersBelow s.part.branchFileMapping .data s.part.owner s.startFile
  /-- Every open descriptor is of the file the ranges name. -/
  fds : ∀ x ∈ s.fds,
    getBranchNameAndTerm s.part.branchFileMapping (dataFileKey x.1) = some x.2
  task : ∀ t, s.part.task = some t → s.TaskPlaced opts t

/-- **The invariant of a local store.** -/
structure Separate : Prop where
  term : s.part.processTerm = 0
  names : (s.others.map (·.1)).Nodup
  active : s.part.activeBranch ∉ s.others.map (·.1)
  disk : ∀ b m, s.manifestOf b = some m → ManifestPlaced opts s.manifestOf b m
  /-- What has to be loaded is as the restart left it. -/
  unloaded : s.part.entry = none → s.part.manifest ≠ none → s.fds = [] ∧
    s.part = .ofBranch s.part.activeBranch 0 s.part.manifest
  memory : (s.part.entry = none → s.part.manifest = none) → s.InMemory opts

end LocalStore

/-! ### What growth keeps -/

section Growth

variable {opts : KvOptions} {M M' : Manifests} {branch : BranchName} {w : Owner}
  {ranges ranges' : BranchFileMapping} {f : ℕ → Option ℕ} {m : Manifest}

theorem Placed.mono (h : Placed opts M branch ranges f) (hM : M.Grown M') :
    Placed opts M' branch ranges f := by
  intro q fp o hq ho hne
  obtain ⟨m, hm, hlt⟩ := h q fp o hq ho hne
  obtain ⟨m', hm', hle⟩ := hM _ m hm
  exact ⟨m', hm', hlt.trans_le hle⟩

/-- What the branch records itself puts nothing in another branch's file. -/
theorem Placed.grownBy (h : Placed opts M branch ranges f) (hs : RangesSorted ranges)
    (hw : w.branchName = branch) (hg : GrownBy w .data ranges ranges') :
    Placed opts M branch ranges' f := by
  intro q fp o hq ho hne
  rcases hg.resolve_cases hs ho with ho | rfl
  · exact h q fp o hq ho hne
  · exact absurd hw hne

theorem ManifestPlaced.mono (h : ManifestPlaced opts M branch m) (hM : M.Grown M') :
    ManifestPlaced opts M' branch m :=
  { h with placed := h.placed.mono hM }

end Growth

namespace LocalStore

variable {opts : KvOptions} {s s' : LocalStore} {b : BranchName} {m : Manifest} {fp : ℕ}
  {t t' : WriteTask}

theorem manifestOf_active (s : LocalStore) : s.manifestOf s.part.activeBranch = s.part.manifest :=
  if_pos rfl

theorem manifestOf_of_ne (hb : b ≠ s.part.activeBranch) : s.manifestOf b = s.others.lookup b :=
  if_neg hb

theorem manifestOf_congr (hothers : s'.others = s.others)
    (hactive : s'.part.activeBranch = s.part.activeBranch)
    (hman : s'.part.manifest = s.part.manifest) : s'.manifestOf = s.manifestOf := by
  funext b
  rw [manifestOf, manifestOf, hothers, hactive, hman]

/-- **Nothing is published**, and the active branch records files of its own at most. -/
structure Grew (s s' : LocalStore) : Prop where
  others : s'.others = s.others
  owner : s'.part.owner = s.part.owner
  manifest : s'.part.manifest = s.part.manifest
  ranges : GrownBy s.part.owner .data s.part.branchFileMapping s'.part.branchFileMapping

namespace Grew

variable (g : Grew s s')

include g

theorem active : s'.part.activeBranch = s.part.activeBranch := congrArg Owner.branchName g.owner

theorem manifestOf : s'.manifestOf = s.manifestOf := manifestOf_congr g.others g.active g.manifest

theorem isPrivate (h : s.Private opts fp) : s'.Private opts fp := by
  refine ⟨?_, ?_⟩
  · rw [g.owner]
    exact g.ranges.stable h.1
  · rw [g.others, g.owner]
    exact h.2

theorem placedIn {f : ℕ → Option ℕ} (hs : RangesSorted s.part.branchFileMapping)
    (h : s.PlacedIn opts f) : s'.PlacedIn opts f := by
  rw [PlacedIn, g.manifestOf, g.active]
  exact Placed.grownBy h hs rfl g.ranges

theorem mapperPlaced {m : PageMapper} (hs : RangesSorted s.part.branchFileMapping)
    (h : s.MapperPlaced opts m) : s'.MapperPlaced opts m :=
  ⟨h.pooled, g.placedIn hs h.placed, fun fp hfp ↦ g.isPrivate (h.pool fp hfp)⟩

theorem taskPlaced (hs : RangesSorted s.part.branchFileMapping)
    (hstart : s'.startFile = s.startFile)
    (h : s.TaskPlaced opts t) : s'.TaskPlaced opts t where
  toMapperPlaced := g.mapperPlaced hs h.toMapperPlaced
  maxFp := by
    rw [g.manifest]
    exact h.maxFp
  start := hstart ▸ h.start
  logged := by
    rw [g.manifest]
    exact g.placedIn hs h.logged

end Grew

theorem InMemory.loaded_of_none (h : s.InMemory opts) (hn : s.part.entry = none) :
    s.part.manifest = none :=
  h.loaded (by simp [publishedMapper, mappers, hn])

/-- An event that leaves the manifests as they are needs to keep what is in memory only. -/
theorem Separate.of_memory (h : s.Separate opts) (hothers : s'.others = s.others)
    (howner : s'.part.owner = s.part.owner) (hman : s'.part.manifest = s.part.manifest)
    (hmem : s'.InMemory opts) : s'.Separate opts := by
  have hactive : s'.part.activeBranch = s.part.activeBranch := congrArg Owner.branchName howner
  refine ⟨?_, ?_, ?_, ?_, fun hn hne ↦ absurd (hmem.loaded_of_none hn) hne, fun _ ↦ hmem⟩
  · exact (congrArg Owner.term howner).trans h.term
  · rw [hothers]
    exact h.names
  · rw [hothers, hactive]
    exact h.active
  · rw [manifestOf_congr hothers hactive hman]
    exact h.disk

/-- **Nothing is published but pages of the pool**, and the active branch records files of its own
at most. -/
theorem InMemory.of_grew (h : s.InMemory opts) (g : Grew s s') (hwf : s'.part.WellFormed opts)
    (hsized : s'.part.Sized)
    (hnone : s'.part.publishedMapper = none → s.part.publishedMapper = none)
    (hstart : s'.startFile = s.startFile)
    (hpub : ∀ m, s'.part.publishedMapper = some m → s'.MapperPlaced opts m ∧
      m.allocator.maxFpId = (durable s'.part.manifest).maxFpId)
    (hfds : ∀ x ∈ s'.fds,
      getBranchNameAndTerm s'.part.branchFileMapping (dataFileKey x.1) = some x.2)
    (htask : ∀ t, s'.part.task = some t → s'.TaskPlaced opts t) : s'.InMemory opts where
  wf := hwf
  sized := hsized
  loaded hn := g.manifest.trans (h.loaded (hnone hn))
  published := hpub
  disk := by
    rw [g.manifest]
    exact g.placedIn h.sorted h.disk
  sorted := g.ranges.sorted
  ahead := by
    rw [hstart, g.owner]
    exact g.ranges.othersBelow h.ahead
  fds := hfds
  task := htask

/-- **Nothing is published.** -/
theorem InMemory.of_same (h : s.InMemory opts) (g : Grew s s') (hwf : s'.part.WellFormed opts)
    (hsized : s'.part.Sized)
    (hpub : s'.part.publishedMapper = s.part.publishedMapper)
    (hfds : ∀ x ∈ s'.fds,
      getBranchNameAndTerm s'.part.branchFileMapping (dataFileKey x.1) = some x.2)
    (htask : ∀ t, s'.part.task = some t → s'.TaskPlaced opts t) : s'.InMemory opts := by
  refine h.of_grew g hwf hsized (hpub ▸ id) (by rw [startFile, hpub, startFile]) (fun m hm ↦ ?_)
    hfds htask
  obtain ⟨hplaced, hmax⟩ := h.published m (hpub ▸ hm)
  exact ⟨g.mapperPlaced h.sorted hplaced, by rw [hmax, g.manifest]⟩

/-! ### Loading -/

theorem loaded_frame (opts : KvOptions) (s : LocalStore) :
    (s.loaded opts).part.owner = s.part.owner ∧ (s.loaded opts).part.manifest = s.part.manifest ∧
      (s.loaded opts).part.task = s.part.task := by
  unfold loaded findRoot
  split
  · exact ⟨rfl, rfl, rfl⟩
  · split <;> exact ⟨rfl, rfl, rfl⟩

/-- A root that is cached, or cannot be loaded, is left as it is. -/
theorem loaded_eq (h : s.part.entry = none → s.part.manifest = none) : s.loaded opts = s := by
  rw [loaded, findRoot_eq opts h]

/-- **Loading a placed manifest.** -/
theorem Separate.inMemory_loaded (h : s.Separate opts) (hpool : opts.dataAppendMode = false)
    (hsafe : s.SafeLoad opts) (hentry : s.part.entry = none) (hman : s.part.manifest = some m) :
    (s.loaded opts).InMemory opts := by
  obtain ⟨hfds, hpart⟩ := h.unloaded hentry (by simp [hman])
  have hplaced := h.disk _ m ((manifestOf_active s).trans hman)
  have hsound : (durable s.part.manifest).Sound := by
    rw [hman]
    exact hplaced.sound
  have htask : s.part.task = none := by rw [hpart]; rfl
  have hunloaded : s.part.Unloaded := ⟨htask, hentry, by rw [hpart]; rfl, hsound⟩
  have hsized : s.part.Sized := ⟨by simp [hentry], by simp [htask]⟩
  have hload : s.loaded opts = { s with part := s.part.loadMeta opts m } := by
    rw [loaded]
    simp only [findRoot, hentry, hman]
  have hsafe' := hsafe hentry
  have hwf : (s.part.findRoot opts).WellFormed opts := hunloaded.wellFormed.findRoot htask
  have hsized' := hsized.findRoot opts htask
  rw [rootMapper, hload] at hsafe'
  rw [show s.part.findRoot opts = (s.loaded opts).part from rfl, hload] at hwf hsized'
  rw [hload]
  have halloc : ((replay m).getMapper opts s.part.processTerm).allocator =
      ⟨opts.pagesPerFileShift, (replay m).maxFpId, .pooled (pooledFreeIds opts
        (replay m).branchMetadata (replay m).maxFpId (replay m).mappingTbl)⟩ := by
    rw [Replayer.getMapper, allocator_mapperOfTable, hpool]
    rfl
  have hdurable : durable s.part.manifest = replay m := by rw [hman]; rfl
  refine ⟨hwf, hsized', fun hn ↦ ?_, fun m' hm' ↦ ?_, ?_,
    hplaced.sorted, ?_, fun x hx ↦ ?_, fun t ht ↦ ?_⟩
  · simp [publishedMapper, mappers, loadMeta, RootMeta.ofReplayer] at hn
  · cases hm'
    refine ⟨⟨⟨_, by rw [halloc]⟩, fun q fp o hq ↦ ?_, hsafe' _ rfl⟩, ?_⟩
    · rw [Replayer.getMapper, toFilePage_mapperOfTable] at hq
      exact hplaced.placed q fp o hq
    · exact (congrArg FilePageAllocator.maxFpId halloc).trans
        (congrArg Replayer.maxFpId hdurable.symm)
  · show Placed _ _ _ _ (durable s.part.manifest).mappingTbl.toFilePage
    rw [hdurable]
    exact hplaced.placed
  · show OthersBelow (replay m).branchMetadata.fileRanges .data ⟨_, s.part.processTerm⟩
      ((replay m).getMapper opts s.part.processTerm).allocator.currentFileId
    rw [h.term] at halloc ⊢
    rw [halloc]
    exact hplaced.ahead
  · simp [hfds] at hx
  · simp [loadMeta, htask] at ht

/-! ### The steps of a task -/

/-- **A task starts** with the published pool. -/
theorem InMemory.begin (h : s.InMemory opts) (hpool : opts.dataAppendMode = false)
    (hidle : s.part.task = none) :
    ({ s with part := s.part.makeCowRoot opts } : LocalStore).InMemory opts := by
  obtain ⟨-, hranges, hman, -, howner, -⟩ := makeCowRoot_frame opts s.part
  rw [findRoot_eq opts h.loaded_of_none] at hranges
  have hpub := publishedMapper_makeCowRoot opts h.loaded_of_none
  obtain ⟨t, m?, sm?, ht, hmap, hcow, -, hwal, -⟩ := makeCowRoot_spec opts s.part
  have hm? : s.part.publishedMapper = m? := by
    rw [← hpub, publishedMapper, hmap]
    rfl
  have g : Grew s { s with part := s.part.makeCowRoot opts } :=
    ⟨rfl, howner, hman, by rw [hranges]; exact .refl h.sorted⟩
  refine h.of_same g (h.wf.makeCowRoot hidle) (h.sized.makeCowRoot opts hidle)
    hpub (hranges ▸ h.fds) fun t₁ ht₁ ↦ ?_
  cases ht.symm.trans ht₁
  have happlied : ∀ r, t.applied r .data = (r.mappingTbl, r.maxFpId) := applied_of_nil hwal
  have hlogged := g.placedIn h.sorted h.disk
  cases m? with
  | some m =>
    obtain rfl : t.cow.mapper = m := hcow
    obtain ⟨hplaced, hmax⟩ := h.published _ hm?
    refine ⟨g.mapperPlaced h.sorted hplaced, ?_, ?_, ?_⟩
    · rw [happlied, hmax, hman]
    · rw [startFile, hpub, hm?]
      exact le_rfl
    · rw [happlied, hman]
      exact hlogged
  | none =>
    -- a stub stands for a partition that has no manifest
    have hmapper : t.cow.mapper = .empty (newAllocator opts) := hcow
    have hkind : (newAllocator opts).kind = .pooled [] := by simp [newAllocator, hpool]
    refine ⟨⟨?_, ?_, ?_⟩, ?_, ?_, ?_⟩
    · rw [hmapper]
      exact ⟨[], hkind⟩
    · rw [hmapper]
      exact fun q fp o hq ↦ by simp at hq
    · rw [hmapper]
      simp [empty, freeIds, hkind]
    · rw [happlied, hman, h.loaded hm?, hmapper]
      rfl
    · rw [startFile, hpub, hm?]
      exact Nat.zero_le _
    · rw [happlied, hman]
      exact hlogged

/-- What a step that allocates nothing leaves: no data page that was not there before. -/
structure KeepsPages (t t' : WriteTask) : Prop where
  allocator : t'.cow.mapper.allocator = t.cow.mapper.allocator
  mapped : ∀ q fp, t'.cow.mapper.toFilePage q = some fp → t.cow.mapper.toFilePage q = some fp
  bound : ∀ r, (t'.applied r .data).2 = (t.applied r .data).2
  logged : ∀ r q fp, (t'.applied r .data).1.toFilePage q = some fp →
    (t.applied r .data).1.toFilePage q = some fp

theorem KeepsPages.of_change {p p' : Partition} {a : TaskStep} (hpool : opts.dataAppendMode = false)
    (hc : TaskChange opts p p' t t' a) (hnone : a.allocation t = none) : KeepsPages t t' := by
  have hsame : t'.walBuilder = t.walBuilder → ∀ r, t'.applied r .data = t.applied r .data :=
    fun hw r ↦ by rw [applied, deltasOf, hw]; rfl
  cases hc.data with
  | same hm hw =>
    have happ := hsame hw
    exact ⟨by rw [hm], fun q fp hq ↦ hm ▸ hq, fun r ↦ by rw [happ], fun r q fp hq ↦ happ r ▸ hq⟩
  | getPage heq =>
    subst heq
    refine ⟨getPage_allocator _, fun q fp hq ↦ ?_, fun r ↦ rfl, fun r q fp hq ↦ hq⟩
    have hget := t.cow.mapper.toFilePage_getPage q
    split at hget
    · cases hq.symm.trans hget
    · exact hget.symm.trans hq
  | allocatePage => cases hnone
  | freePage page heq =>
    subst heq
    refine ⟨rfl, fun q fp hq ↦ ?_, fun r ↦ ?_,
      fun r q fp hq ↦ TaskNames.toFilePage_applyDeltas_free hq⟩
    · have hfree := t.cow.mapper.toFilePage_freePage page q
      split at hfree
      · cases hq.symm.trans hfree
      · exact hfree.symm.trans hq
    · rw [applied, deltasOf, WriteTask.freePage, applyDeltas_concat]
      rfl
  | updateStat _ _ happ => simp [hpool] at happ

/-- **A task takes a step that allocates nothing.** -/
theorem InMemory.step {a : TaskStep} {p' : Partition} (h : s.InMemory opts)
    (hpool : opts.dataAppendMode = false) (ht : s.part.task = some t)
    (hnone : a.allocation t = none)
    (hstep : s.part.taskStep opts a = .ok p') :
    ({ s with part := p' } : LocalStore).InMemory opts := by
  obtain ⟨t', ht', hc⟩ := taskStep_change ht hstep
  obtain ⟨hmap, hman, -, howner⟩ := taskStep_frame hstep
  have hpub : p'.publishedMapper = s.part.publishedMapper := congrArg (·.bind (·.1)) hmap
  have hranges : p'.branchFileMapping = s.part.branchFileMapping :=
    hc.ranges.resolve_right fun ⟨_, _, _, halloc, _⟩ ↦ by cases hnone.symm.trans halloc
  have g : Grew s { s with part := p' } :=
    ⟨rfl, howner, hman, by rw [hranges]; exact .refl h.sorted⟩
  refine h.of_same g (h.wf.taskStep hstep) (h.sized.taskStep hstep) hpub (hranges ▸ h.fds)
    fun t₁ ht₁ ↦ ?_
  cases ht'.symm.trans ht₁
  have hk := KeepsPages.of_change hpool hc hnone
  have htask := g.taskPlaced h.sorted (by rw [startFile, hpub, startFile]) (h.task t ht)
  refine ⟨⟨?_, fun q fp o hq ↦ htask.placed q fp o (hk.mapped q fp hq), ?_⟩, ?_, ?_,
    fun q fp o hq ↦ htask.logged q fp o (hk.logged _ q fp hq)⟩
  all_goals rw [hk.allocator]
  · exact htask.pooled
  · exact htask.pool
  · exact (hk.bound _).trans htask.maxFp
  · exact htask.start

/-! ### Page writes -/

/-- **The file of a page handed out is the active branch's**, if it has been recorded at all. -/
theorem InMemory.owner_of_handedOut {o : Owner} (h : s.InMemory opts) (ht : s.part.task = some t)
    (ho : ownerOf opts s.part.branchFileMapping t.cow.mapper.allocator.allocate.1 = some o) :
    o = s.part.owner := by
  have htask := h.task t ht
  rcases htask.pooled.allocate_cases with ⟨hids, -⟩ | ⟨-, hfp, -⟩
  · have hprivate := htask.pool _ (by rw [hids]; exact mem_cons_self)
    exact some.inj (ho.symm.trans hprivate.1)
  · rw [hfp, ownerOf, ← h.wf.taskShift t ht] at ho
    exact h.ahead.resolve h.sorted htask.start ho

/-- **A page write goes into a file of the active branch**: an open descriptor is of the file the
ranges name. -/
theorem InMemory.writtenFile_eq (h : s.InMemory opts) (ht : s.part.task = some t) :
    s.writtenFile opts t.cow.mapper.allocator.allocate.1 = s.part.owner := by
  unfold writtenFile
  cases hfd : s.fds.lookup (fileOf opts.pagesPerFileShift t.cow.mapper.allocator.allocate.1) with
  | none => rfl
  | some o => exact h.owner_of_handedOut ht (h.fds _ (mem_of_lookup hfd))

/-- A task's allocator is not behind the manifest. -/
theorem InMemory.le_maxFpId (h : s.InMemory opts) (ht : s.part.task = some t) :
    (durable s.part.manifest).maxFpId ≤ t.cow.mapper.allocator.maxFpId := by
  rw [← (h.task t ht).maxFp]
  exact le_applyDeltas_snd _ _ _

/-- **No other branch uses a page handed out** where it is written. -/
theorem InMemory.handedOut_ne (h : s.InMemory opts) (hs : s.Separate opts)
    (ht : s.part.task = some t) (hb : b ≠ s.part.activeBranch) (hm : s.manifestOf b = some m)
    {q : ℕ} (hq : (replay m).mappingTbl.toFilePage q = some fp)
    (ho : ownerOf opts (replay m).branchMetadata.fileRanges fp = some s.part.owner) :
    fp ≠ t.cow.mapper.allocator.allocate.1 := by
  rintro rfl
  have htask := h.task t ht
  rcases htask.pooled.allocate_cases with ⟨hids, -⟩ | ⟨-, hfp, -⟩
  · have hprivate := htask.pool _ (by rw [hids]; exact mem_cons_self)
    rw [manifestOf_of_ne hb] at hm
    refine hprivate.2 _ (mem_of_lookup hm) (mem_map.2 ⟨(_, q), ?_, rfl⟩) ho
    exact MappingTbl.mem_mapped.2 hq
  · -- a page inherited from the active branch lies below what the active branch has on disk
    obtain ⟨m₀, hm₀, hlt⟩ := (hs.disk b m hm).placed q _ _ hq ho (Ne.symm hb)
    have hman : s.part.manifest = some m₀ := (manifestOf_active s).symm.trans hm₀
    have hle := h.le_maxFpId ht
    rw [hman, ← hfp] at hle
    exact absurd hlt (not_lt.2 hle)

private theorem max_allocate {m : PageMapper} (hm : m.Sound) (hpooled : m.allocator.IsPooled) :
    max m.allocator.maxFpId (m.allocator.allocate.1 + 1) = m.allocator.allocate.2.maxFpId := by
  have hlt := hm.pool.allocate.1
  rcases hpooled.allocate_cases with ⟨-, hmax⟩ | ⟨-, hfp, -, hmax⟩
  · omega
  · omega

/-- **A page write keeps what is in memory**, and the page is found where it was written. -/
theorem InMemory.write {page? : Option ℕ} {content : ℕ} {s' : LocalStore} (h : s.InMemory opts)
    (ht : s.part.task = some t) (hrun : (LocalEvent.write page? content).run opts s = some s') :
    ownerOf opts s'.part.branchFileMapping t.cow.mapper.allocator.allocate.1 = some s.part.owner ∧
      s'.InMemory opts := by
  obtain ⟨t₁, ht₁, hrun⟩ := bind_eq_some_iff.1 hrun
  cases ht.symm.trans ht₁
  obtain ⟨p', hp, rfl⟩ := map_eq_some_iff.1 hrun
  have hstep := Transition.ok_of_toOption hp
  have hwrite := h.writtenFile_eq ht
  have hold := h.task t ht
  obtain ⟨hmap, hman, -, howner⟩ := taskStep_frame hstep
  have hpub : p'.publishedMapper = s.part.publishedMapper := congrArg (·.bind (·.1)) hmap
  obtain ⟨t₀, ht₀, fp, t', ranges', halloc, rfl⟩ := taskStep_ok hstep
  cases ht.symm.trans ht₀
  obtain ⟨hstamp, rfl, hcow, hwal, -⟩ := allocatePage_ok halloc
  obtain ⟨hgrown, hown⟩ := grownBy_stampFiles h.sorted (h.ahead.mono hold.start)
    (currentFileId_le_allocate _) hstamp
  have hfound : ownerOf opts ranges' t.cow.mapper.allocator.allocate.1 = some s.part.owner := by
    rcases hold.pooled.allocate_cases with ⟨hids, -⟩ | ⟨-, hfp, -⟩
    · exact hgrown.stable (hold.pool _ (by rw [hids]; exact mem_cons_self)).1
    · rw [hfp, ownerOf, ← h.wf.taskShift t ht]
      exact hown
  have hmapper : t'.cow.mapper = allocated t.cow.mapper page? := by rw [hcow]
  have happlied : ∀ r : Replayer, t'.applied r .data = applyDeltas r.mappingTbl r.maxFpId
      (t.walBuilder ++ [((choosePage t.cow.mapper page?).1,
        .filePageId t.cow.mapper.allocator.allocate.1)]) := fun r ↦ by
    rw [← hwal]
    rfl
  -- the file page is the active branch's, whichever table it enters
  have hnew : ∀ (s' : LocalStore) (f f' : ℕ → Option ℕ), s'.part.branchFileMapping = ranges' →
      s'.part.activeBranch = s.part.activeBranch → s'.PlacedIn opts f →
      (∀ q, f' q = if q = (choosePage t.cow.mapper page?).1 then
        some t.cow.mapper.allocator.allocate.1 else f q) → s'.PlacedIn opts f' := by
    intro s' f f' hranges hactive hf hf' q fp o hq ho hne
    rw [hf'] at hq
    split at hq
    · rw [hranges, ← some.inj hq, hfound] at ho
      exact absurd (by rw [← some.inj ho, hactive]; rfl) hne
    · exact hf q fp o hq ho hne
  have g : Grew s { s with
      part := { s.part with task := some t', branchFileMapping := ranges' }
      fds := (fileOf opts.pagesPerFileShift t.cow.mapper.allocator.allocate.1,
        s.writtenFile opts t.cow.mapper.allocator.allocate.1) :: s.fds
      disk := ((s.writtenFile opts t.cow.mapper.allocator.allocate.1,
        t.cow.mapper.allocator.allocate.1), content) :: s.disk } := ⟨rfl, howner, hman, hgrown⟩
  refine ⟨hfound, h.of_same g (h.wf.taskStep hstep) (h.sized.taskStep hstep) hpub (fun x hx ↦ ?_)
    fun t₂ ht₂ ↦ ?_⟩
  · rcases mem_cons.1 hx with rfl | hx
    · exact hfound.trans (congrArg some hwrite.symm)
    · exact hgrown.stable (h.fds x hx)
  · obtain rfl : t' = t₂ := some.inj ht₂
    have htask := g.taskPlaced h.sorted (by rw [startFile, hpub, startFile]) hold
    refine ⟨⟨?_, ?_, fun fp hfp ↦ ?_⟩, ?_, ?_, ?_⟩
    · rw [hmapper, allocated_allocator]
      exact htask.pooled.allocate
    · exact hnew _ _ _ rfl rfl htask.placed fun q ↦ by rw [hmapper, toFilePage_allocated]
    · refine htask.pool fp ?_
      rw [hmapper, allocated_allocator] at hfp
      rcases hold.pooled.allocate_cases with ⟨hids, -⟩ | ⟨-, -, hids, -⟩
      · rw [hids]
        exact mem_cons_of_mem _ hfp
      · rw [hids] at hfp
        cases hfp
    · rw [happlied, applyDeltas_concat, hmapper, allocated_allocator,
        ← max_allocate (h.wf.task t ht).sound hold.pooled, ← hold.maxFp]
      rfl
    · rw [hmapper, allocated_allocator]
      exact htask.start.trans (currentFileId_le_allocate _)
    · refine hnew _ _ _ rfl rfl htask.logged fun q ↦ ?_
      rw [happlied, applyDeltas_concat, MappingTbl.toFilePage_put]
      rfl

end LocalStore

end EloqStore
