import EloqStore.Partition.BranchIsolation

/-!
# Isolation along runs

What is in memory and what is on disk stay in order through releases, aborts, commits, forks and
restarts, and with them the isolation of the branches. A commit replaces the active branch's
manifest by one whose allocator has not moved back, so what other branches have inherited stays
where it is; a fork adds a manifest of pages that are in no pool; a restart changes which branch is
active, and nothing on disk.

The counterexample is a child that replaces a page it has inherited. The file page it gives up is
the parent's, and once the replaced mapping is released it is in the child's pool.
-/

namespace EloqStore

open FilePageAllocator List Option EloqStore.Partition WriteTask LocalStore LocalEvent Transition
open Owner

/-- A task that starts loads the root first. -/
theorem Partition.makeCowRoot_findRoot (opts : KvOptions) (p : Partition) :
    (p.findRoot opts).makeCowRoot opts = p.makeCowRoot opts := by
  have hidem : (p.findRoot opts).findRoot opts = p.findRoot opts := by
    refine findRoot_eq opts fun hn ↦ ?_
    unfold Partition.findRoot at hn ⊢
    split at hn
    · next hentry => simp [hentry] at hn
    · split at hn
      · assumption
      · cases hn
  rw [makeCowRoot, makeCowRoot, hidem]

namespace LocalStore

variable {opts : KvOptions} {s : LocalStore}

/-! ### The end of a task, and releases -/

theorem InMemory.of_fds {fds : List (ℕ × Owner)} (h : s.InMemory opts)
    (hfds : ∀ x ∈ fds,
      getBranchNameAndTerm s.part.branchFileMapping (dataFileKey x.1) = some x.2) :
    ({ s with fds := fds } : LocalStore).InMemory opts := by
  have g : Grew s { s with fds := fds } := ⟨rfl, rfl, rfl, .refl h.sorted⟩
  exact h.of_same g h.wf h.sized rfl hfds fun t ht ↦ g.taskPlaced h.sorted rfl (h.task t ht)

/-- **An abort** leaves the ranges the task has recorded, which are the active branch's own. -/
theorem InMemory.abort (h : s.InMemory opts) :
    ({ s with part := s.part.abort } : LocalStore).InMemory opts :=
  h.of_same ⟨rfl, rfl, rfl, .refl h.sorted⟩ h.wf.abort h.sized.abort rfl h.fds
    fun t ht ↦ absurd ht (by simp [Partition.abort])

/-- What is freed to a pool enters it, with the bits that the pool keeps. -/
theorem mem_freeIds_freeToPool {a : FilePageAllocator} {fps : List ℕ} {fp : ℕ}
    (h : fp ∈ (freeToPool a fps).freeIds) :
    (∃ fp' ∈ fps, fp = fp' % 2 ^ 32) ∨ fp ∈ a.freeIds := by
  unfold freeToPool at h
  split at h
  · exact .inr h
  · next ids hk =>
    rcases mem_append.1 h with h | h
    · obtain ⟨fp', hfp', rfl⟩ := mem_map.1 (mem_reverse.1 h)
      exact .inl ⟨fp', hfp', rfl⟩
    · exact .inr (by rwa [freeIds, hk])

/-- **A release of private pages.** -/
theorem InMemory.release (h : s.InMemory opts)
    (hfps : ∀ fp ∈ s.part.pendingFree.headD [], s.Private opts (fp % 2 ^ 32)) :
    ({ s with part := s.part.freeMappingSnapshot } : LocalStore).InMemory opts := by
  have hwf := h.wf.freeMappingSnapshot
  cases hpend : s.part.pendingFree with
  | nil =>
    have heq : s.part.freeMappingSnapshot = s.part := by rw [freeMappingSnapshot, hpend]
    rw [heq]
    exact h
  | cons fps rest =>
    have heq : s.part.freeMappingSnapshot = { s.part with
        entry := s.part.entry.map fun root ↦ { root with
          mapper := root.mapper.map fun m ↦ { m with allocator := freeToPool m.allocator fps } }
        pendingFree := rest } := by rw [freeMappingSnapshot, hpend]
    have hpub := publishedMapper_freeMappingSnapshot hpend
    rw [hpend] at hfps
    have g : Grew s { s with part := s.part.freeMappingSnapshot } := by
      rw [heq]
      exact ⟨rfl, rfl, rfl, .refl h.sorted⟩
    have hstart : startFile { s with part := s.part.freeMappingSnapshot } = s.startFile := by
      rw [startFile, startFile, hpub]
      cases s.part.publishedMapper with
      | none => rfl
      | some m => simp [currentFileId]
    rw [heq] at hwf hpub g hstart ⊢
    refine h.of_grew g hwf ⟨fun root hroot ↦ ?_, h.sized.task⟩ (fun hn ↦ ?_) hstart (fun m hm ↦ ?_)
      h.fds fun t ht ↦ g.taskPlaced h.sorted hstart (h.task t ht)
    · obtain ⟨root₀, hroot₀, rfl⟩ := map_eq_some_iff.1 hroot
      exact h.sized.entry root₀ hroot₀
    · exact map_eq_none_iff.1 (hpub.symm.trans hn)
    · obtain ⟨m₀, hm₀, rfl⟩ := map_eq_some_iff.1 (hpub.symm.trans hm)
      obtain ⟨hplaced, hmax⟩ := h.published m₀ hm₀
      refine ⟨⟨?_, g.placedIn h.sorted hplaced.placed, fun fp hfp ↦ ?_⟩, ?_⟩
      · obtain ⟨ids, hk⟩ := hplaced.pooled
        simp [IsPooled, freeToPool, hk]
      · rcases mem_freeIds_freeToPool hfp with ⟨fp', hfp', rfl⟩ | hfp
        · exact g.isPrivate (hfps fp' hfp')
        · exact g.isPrivate (hplaced.pool fp hfp)
      · rw [PageMapper.Sound.freeToPool_maxFpId]
        exact hmax

/-! ### Commits -/

/-- **What a commit leaves on disk**: what was there, when nothing has changed, or a manifest of the
task's pages under the ranges in memory. -/
theorem InMemory.flushed {t : WriteTask} (h : s.InMemory opts) (ht : s.part.task = some t) :
    (durable (s.part.flushManifest opts t).manifest).maxFpId = t.cow.mapper.allocator.maxFpId ∧
      ((s.part.flushManifest opts t).manifest = s.part.manifest ∨
        ∃ m, (s.part.flushManifest opts t).manifest = some m ∧
          (replay m).branchMetadata.fileRanges = s.part.branchFileMapping ∧
          s.PlacedIn opts (replay m).mappingTbl.toFilePage) := by
  have htask := h.task t ht
  rcases flushManifest_cases opts (h.sized.task t ht) with ⟨heq, hwal, -⟩ | ⟨m, hm, hreplay⟩
  · rw [heq, ← htask.maxFp, applied_of_nil (c := .data) hwal]
    exact ⟨rfl, .inl rfl⟩
  · rw [hm]
    rcases hreplay with hr | hr
    · exact ⟨(congrArg Replayer.maxFpId hr).trans htask.maxFp, .inr ⟨m, rfl, by rw [hr]; rfl,
        by rw [hr]; exact htask.logged⟩⟩
    · exact ⟨congrArg Replayer.maxFpId hr, .inr ⟨m, rfl, by rw [hr]; rfl,
        by rw [hr]; exact htask.placed⟩⟩

/-- **A commit keeps the branches apart.** -/
theorem Separate.commit {t : WriteTask} (hs : s.Separate opts) (h : s.InMemory opts)
    (ht : s.part.task = some t) :
    ({ s with part := s.part.updateMeta opts t } : LocalStore).Separate opts := by
  have htask := h.task t ht
  obtain ⟨m?, sm?, hmap⟩ := exists_mappers (h.wf.task t ht).entry
  have hframe := updateMeta_spec opts ht hmap
  obtain ⟨hmax, hcases⟩ := h.flushed ht
  rw [← hframe.manifest] at hmax hcases
  have hwf := h.wf.updateMeta ht
  have hsized := h.sized.updateMeta opts (h.wf.task t ht).entry ht
  have hpub : (s.part.updateMeta opts t).publishedMapper = some t.cow.mapper := by
    rw [publishedMapper, hframe.mappers]
    rfl
  have hactive : (s.part.updateMeta opts t).activeBranch = s.part.activeBranch :=
    congrArg branchName hframe.owner
  generalize s.part.updateMeta opts t = p at *
  have hself : manifestOf { s with part := p } s.part.activeBranch = p.manifest :=
    if_pos hactive.symm
  have hother : ∀ b, b ≠ s.part.activeBranch → manifestOf { s with part := p } b = s.manifestOf b :=
    fun b hb ↦ by
      rw [manifestOf_of_ne hb]
      exact if_neg (by rwa [hactive])
  have hgrown : Manifests.Grown s.manifestOf (manifestOf { s with part := p }) := by
    intro b m hm
    by_cases hb : b = s.part.activeBranch
    · subst hb
      have hman : s.part.manifest = some m := (manifestOf_active s).symm.trans hm
      obtain ⟨m', hm'⟩ : ∃ m', p.manifest = some m' := by
        rcases hcases with heq | ⟨m', hm', -⟩
        · exact ⟨m, heq.trans hman⟩
        · exact ⟨m', hm'⟩
      have hle := h.le_maxFpId ht
      rw [← hmax, hman, hm'] at hle
      exact ⟨m', hself.trans hm', hle⟩
    · exact ⟨m, (hother b hb).trans hm, le_rfl⟩
  have hplaced : ∀ f, s.PlacedIn opts f → PlacedIn opts { s with part := p } f := fun f hf ↦ by
    rw [PlacedIn, hactive, hframe.ranges]
    exact Placed.mono hf hgrown
  have hahead : OthersBelow s.part.branchFileMapping .data s.part.owner
      t.cow.mapper.allocator.currentFileId := h.ahead.mono htask.start
  have hmem : ({ s with part := p } : LocalStore).InMemory opts := by
    refine ⟨hwf, hsized, fun hn ↦ ?_, fun m hm ↦ ?_, ?_, ?_, ?_, ?_, fun t' ht' ↦ ?_⟩
    · cases hpub.symm.trans hn
    · cases hpub.symm.trans hm
      refine ⟨⟨htask.pooled, hplaced _ htask.placed, fun fp hfp ↦ ?_⟩, hmax.symm⟩
      obtain ⟨hown, hothers⟩ := htask.pool fp hfp
      rw [Private, hframe.ranges, hframe.owner]
      exact ⟨hown, hothers⟩
    · rcases hcases with heq | ⟨m, hman, -, hm⟩
      · rw [heq]
        exact hplaced _ h.disk
      · rw [hman]
        exact hplaced _ hm
    · exact hframe.ranges ▸ h.sorted
    · rw [startFile, hpub, hframe.ranges, hframe.owner]
      exact hahead
    · exact hframe.ranges ▸ h.fds
    · cases hframe.idle.symm.trans ht'
  refine ⟨(congrArg Owner.term hframe.owner).trans hs.term, hs.names,
    by rw [hactive]; exact hs.active, fun b m hm ↦ ?_,
    fun hn hne ↦ absurd (hmem.loaded_of_none hn) hne, fun _ ↦ hmem⟩
  by_cases hb : b = s.part.activeBranch
  · subst hb
    have hm' : p.manifest = some m := hself.symm.trans hm
    rcases hcases with heq | ⟨m', hman, hranges, hlogged⟩
    · exact (hs.disk _ m ((manifestOf_active s).trans (heq.symm.trans hm'))).mono hgrown
    · obtain rfl : m' = m := some.inj (hman.symm.trans hm')
      have hsound := hwf.durable
      rw [hman] at hmax hsound
      refine ⟨hsound, by rw [hranges]; exact h.sorted, ?_, ?_⟩
      · have howner : s.part.owner = ⟨s.part.activeBranch, 0⟩ := by rw [owner, hs.term]
        rw [hranges, ← howner, show (replay m').maxFpId = _ from hmax, ← h.wf.taskShift t ht]
        exact hahead
      · rw [hranges]
        exact Placed.mono hlogged hgrown
  · exact (hs.disk b m ((hother b hb).symm.trans hm)).mono hgrown

/-! ### Forks and restarts -/

/-- **Loading keeps the branches apart.** -/
theorem Separate.load (h : s.Separate opts) (hpool : opts.dataAppendMode = false)
    (hsafe : s.SafeLoad opts) : (s.loaded opts).Separate opts ∧ (s.loaded opts).InMemory opts := by
  by_cases hloaded : s.part.entry = none → s.part.manifest = none
  · rw [loaded_eq hloaded]
    exact ⟨h, h.memory hloaded⟩
  · obtain ⟨hentry, hne⟩ := Classical.not_imp.1 hloaded
    obtain ⟨m, hman⟩ := ne_none_iff_exists'.1 hne
    have hmem := h.inMemory_loaded hpool hsafe hentry hman
    obtain ⟨howner, hmanifest, -⟩ := loaded_frame opts s
    exact ⟨h.of_memory rfl howner hmanifest hmem, hmem⟩

/-- A manifest under a new name, of pages that are in no pool. -/
theorem Separate.addManifest {name : BranchName} {m : Manifest} (hs : s.Separate opts)
    (h : s.InMemory opts) (hidle : s.part.task = none) (hname : name ≠ s.part.activeBranch)
    (hfresh : ∀ x ∈ s.others, x.1 ≠ name)
    (hm : ManifestPlaced opts s.manifestOf name m)
    (hpool : ∀ mapper, s.part.publishedMapper = some mapper → ∀ fp ∈ mapper.allocator.freeIds,
      fp ∉ (replay m).mappingTbl.mapped.map (·.1)) :
    ({ s with others := (name, m) :: s.others } : LocalStore).Separate opts := by
  have hold : ∀ b, b ≠ name →
      manifestOf { s with others := (name, m) :: s.others } b = s.manifestOf b := by
    intro b hb
    show (if b = s.part.activeBranch then _ else ((name, m) :: s.others).lookup b) = _
    rw [lookup_cons, beq_false_of_ne hb]
    rfl
  have hnew : manifestOf { s with others := (name, m) :: s.others } name = some m := by
    show (if name = s.part.activeBranch then _ else ((name, m) :: s.others).lookup name) = _
    rw [if_neg hname]
    simp
  have hnone : s.manifestOf name = none := by
    rw [manifestOf_of_ne hname]
    exact lookup_eq_none_iff.2 fun x hx ↦ by simpa using Ne.symm (hfresh x hx)
  have hgrown : Manifests.Grown s.manifestOf
      (manifestOf { s with others := (name, m) :: s.others }) := by
    intro b m' hm'
    have hb : b ≠ name := by
      rintro rfl
      rw [hnone] at hm'
      cases hm'
    exact ⟨m', (hold b hb).trans hm', le_rfl⟩
  have hmem : ({ s with others := (name, m) :: s.others } : LocalStore).InMemory opts := by
    refine { h with
      published := fun mapper hmapper ↦ ?_
      disk := Placed.mono h.disk hgrown
      task := fun t ht ↦ absurd (hidle.symm.trans ht) (by simp) }
    obtain ⟨hplaced, hmax⟩ := h.published mapper hmapper
    refine ⟨⟨hplaced.pooled, hplaced.placed.mono hgrown, fun fp hfp ↦ ?_⟩, hmax⟩
    obtain ⟨hown, hothers⟩ := hplaced.pool fp hfp
    refine ⟨hown, fun x hx hmapped ↦ ?_⟩
    rcases mem_cons.1 hx with rfl | hx
    · exact absurd hmapped (hpool mapper hmapper fp hfp)
    · exact hothers x hx hmapped
  have hnames : name ∉ s.others.map (·.1) := by
    intro hmem
    obtain ⟨x, hx, heq⟩ := mem_map.1 hmem
    exact hfresh x hx heq
  refine ⟨hs.term, nodup_cons.2 ⟨hnames, hs.names⟩, ?_, fun b m' hm' ↦ ?_,
    fun hn hne ↦ absurd (h.loaded_of_none hn) hne, fun _ ↦ hmem⟩
  · rw [map_cons, mem_cons, not_or]
    exact ⟨Ne.symm hname, hs.active⟩
  · by_cases hb : b = name
    · subst hb
      cases hnew.symm.trans hm'
      exact hm.mono hgrown
    · exact (hs.disk b m' ((hold b hb).symm.trans hm')).mono hgrown

/-- **The child's first manifest**, given the ranges it is written with. -/
theorem InMemory.placed_branchSnapshot {name : BranchName} {ranges : BranchFileMapping}
    {root : RootMeta} {mapper : PageMapper} (h : s.InMemory opts)
    (hroot : s.part.entry = some root) (hmapper : root.mapper = some mapper)
    (hsorted : RangesSorted ranges)
    (hahead : ∀ r ∈ ranges, r.maxFileId ≤ mapper.allocator.currentFileId)
    (hranges : ranges = [] ∨ ranges = s.part.branchFileMapping) :
    ManifestPlaced opts s.manifestOf name ⟨branchSnapshot opts name ranges root mapper, []⟩ := by
  have hpub : s.part.publishedMapper = some mapper := by
    rw [publishedMapper, mappers, hroot]
    exact hmapper
  have hentry : s.part.mappers = some (some mapper, root.segmentMapper) := by
    rw [mappers, hroot, ← hmapper]
    rfl
  have hshift := h.wf.shift mapper _ hentry
  obtain ⟨hplaced, hmax⟩ := h.published mapper hpub
  obtain ⟨hsound, -⟩ := h.wf.published mapper _ hentry
  have hbump : (mapper.allocator.currentFileId + 1) <<< opts.pagesPerFileShift =
      bumpToNextFile opts.pagesPerFileShift mapper.allocator.maxFpId := by
    rw [currentFileId, hshift]
    rfl
  refine ⟨⟨fun q fp hfp ↦ ?_, MappingTbl.below_nil _⟩, hsorted, fun r hr _ ↦ ?_,
    fun q fp o hfp ho hne ↦ ?_⟩
  · show fp < (mapper.allocator.currentFileId + 1) <<< opts.pagesPerFileShift
    rw [hbump]
    exact (hsound.below q fp hfp).trans_le (bumpToNextFile_ge _ _)
  · show r.maxFileId < fileOf opts.pagesPerFileShift
      ((mapper.allocator.currentFileId + 1) <<< opts.pagesPerFileShift)
    rw [hbump, fileOf_bumpToNextFile, ← hshift]
    exact Nat.lt_succ_of_le (hahead r hr)
  · rcases hranges with rfl | rfl
    · simp [ownerOf, getBranchNameAndTerm, deserializeSnapshot, replay,
        branchSnapshot] at ho
    · -- what the child inherits is the parent's own, or was inherited by the parent
      by_cases hactive : o.branchName = s.part.activeBranch
      · have hlt := hsound.below q fp hfp
        rw [hmax] at hlt
        rw [hactive, manifestOf_active]
        cases hman : s.part.manifest with
        | none =>
          rw [hman] at hlt
          exact absurd hlt (Nat.not_lt_zero fp)
        | some m =>
          rw [hman] at hlt
          exact ⟨m, rfl, hlt⟩
      · exact hplaced.placed q fp o hfp ho hactive

variable {s' : LocalStore}

/-- **Inversion of a fork**: the root is loaded, and a parent that exists gives a manifest with the
ranges that were in memory before. -/
theorem fork_ok {child : BranchName} (hpool : opts.dataAppendMode = false)
    (hrun : (fork child).run opts s = some s') :
    s.part.task = none ∧ (s' = s.loaded opts ∨
      ∃ root mapper, (s.loaded opts).part.entry = some root ∧ root.mapper = some mapper ∧
        s' = { s.loaded opts with others := (normalizeBranchName child,
          ⟨branchSnapshot opts (normalizeBranchName child) s.part.branchFileMapping root mapper,
            []⟩) :: s.others }) := by
  obtain ⟨hidle, hrun⟩ := ite_none_right_eq_some.1 hrun
  refine ⟨hidle, ?_⟩
  split at hrun
  · cases hrun
  · next parent m? hcreate =>
    obtain ⟨s₁, hs₁, hparent, hm?⟩ := createBranch_ok hcreate
    obtain rfl : s.part = s₁ := by simpa [hpool] using hs₁
    rw [show s.part.findRoot opts = (s.loaded opts).part from rfl] at hparent
    cases hrun
    subst hparent
    cases hm : m? with
    | none => exact .inl rfl
    | some m =>
      rw [hm, branchManifest] at hm?
      obtain ⟨root, hroot, hsnap⟩ := bind_eq_some_iff.1 hm?.symm
      obtain ⟨mapper, hmapper, rfl⟩ := map_eq_some_iff.1 hsnap
      rw [liveRoot, filter_eq_some_iff] at hroot
      exact .inr ⟨root, mapper, hroot.1, hmapper, rfl⟩

/-- **A fork keeps the branches apart.** -/
theorem Separate.fork {child : BranchName} (hs : s.Separate opts)
    (hpool : opts.dataAppendMode = false) (hguard : (fork child).Isolated opts s)
    (hrun : (fork child).run opts s = some s') : s'.Separate opts := by
  obtain ⟨hsafe, hname, hfresh, hahead⟩ := hguard
  obtain ⟨hL, hmem⟩ := hs.load hpool hsafe
  obtain ⟨hidle, rfl | ⟨root, mapper, hroot, hmapper, rfl⟩⟩ := fork_ok hpool hrun
  · exact hL
  · have hpub : (s.loaded opts).part.publishedMapper = some mapper := by
      rw [publishedMapper, mappers, hroot]
      exact hmapper
    -- the ranges are the loaded ones, or none if the root had to be loaded
    have hranges : s.part.branchFileMapping = [] ∨
        s.part.branchFileMapping = (s.loaded opts).part.branchFileMapping := by
      by_cases hloaded : s.part.entry = none → s.part.manifest = none
      · exact .inr (by rw [loaded_eq hloaded])
      · obtain ⟨hentry, hne⟩ := Classical.not_imp.1 hloaded
        refine .inl ?_
        rw [(hs.unloaded hentry hne).2]
        rfl
    have hsorted : RangesSorted s.part.branchFileMapping := by
      rcases hranges with hnil | heq
      · rw [hnil]
        exact rangesSorted_nil
      · rw [heq]
        exact hmem.sorted
    have hplaced : ManifestPlaced opts (s.loaded opts).manifestOf (normalizeBranchName child) _ :=
      hmem.placed_branchSnapshot hroot hmapper hsorted (hahead mapper hpub).1 hranges
    obtain ⟨howner, -, htask⟩ := loaded_frame opts s
    have hactive : (s.loaded opts).part.activeBranch = s.part.activeBranch :=
      congrArg branchName howner
    refine hL.addManifest hmem (htask.trans hidle) (by rwa [hactive]) hfresh hplaced
      fun mapper' hmapper' ↦ ?_
    cases hpub.symm.trans hmapper'
    exact (hahead mapper hpub).2

theorem Separate.lookup_manifests (hs : s.Separate opts) (b : BranchName) :
    s.manifests.lookup b = s.manifestOf b := by
  have hnone : s.others.lookup s.part.activeBranch = none :=
    lookup_eq_none_iff.2 fun x hx ↦ by
      have hne : s.part.activeBranch ≠ x.1 := fun heq ↦ hs.active (heq ▸ mem_map_of_mem hx)
      simpa using hne
  unfold manifests manifestOf
  split
  · next hb =>
    subst hb
    cases s.part.manifest with
    | none => exact hnone
    | some m => simp
  · next hb =>
    cases s.part.manifest with
    | none => rfl
    | some m =>
      simp [lookup_cons, beq_false_of_ne hb]

theorem inMemory_of_fresh {b : BranchName} (hpart : s.part = .ofBranch b 0 none)
    (hfds : s.fds = []) : s.InMemory opts := by
  obtain ⟨part, others, fds, disk⟩ := s
  subst hpart hfds
  exact ⟨(unloaded_fresh b 0).wellFormed, ⟨by simp [ofBranch],
    by simp [ofBranch]⟩, fun _ ↦ rfl,
    by simp [publishedMapper, mappers, ofBranch],
    fun q fp o hq ↦ absurd hq (by simp [durable, ofBranch]), rangesSorted_nil,
    fun r hr ↦ absurd hr (by simp [ofBranch]), by simp, fun t ht ↦ absurd ht (by simp [ofBranch])⟩

/-- **A restart keeps the branches apart**, and every branch's manifest. -/
theorem Separate.restart {b : BranchName} (hs : s.Separate opts)
    (hrun : (restart b).run opts s = some s') :
    s'.manifestOf = s.manifestOf ∧ s'.disk = s.disk ∧ s'.Separate opts := by
  cases hrun
  have hmanifests : manifestOf
      { part := .ofBranch b 0 (s.manifests.lookup b)
        others := s.manifests.filter (·.1 ≠ b)
        disk := s.disk } = s.manifestOf := by
    funext b'
    by_cases hb : b' = b
    · subst hb
      exact (if_pos rfl).trans (hs.lookup_manifests b')
    · refine (if_neg hb).trans ?_
      rw [lookup_filter_fst_ne, if_neg hb, hs.lookup_manifests]
  have hnames : (s.manifests.map (·.1)).Nodup := by
    unfold manifests
    cases s.part.manifest with
    | none => exact hs.names
    | some m => exact nodup_cons.2 ⟨hs.active, hs.names⟩
  refine ⟨hmanifests, rfl, rfl, (filter_sublist.map _).nodup hnames, fun hmem ↦ ?_, ?_,
    fun _ _ ↦ ⟨rfl, rfl⟩, fun hloaded ↦ ?_⟩
  · obtain ⟨x, hx, heq⟩ := mem_map.1 hmem
    have hne : x.1 ≠ b := by simpa using (mem_filter.1 hx).2
    exact hne heq
  · rw [hmanifests]
    exact hs.disk
  · have hnone : s.manifests.lookup b = none := hloaded rfl
    exact inMemory_of_fresh (by rw [hnone]) rfl

/-! ### Events -/

/-- A partition in which anything goes on is in memory. -/
theorem Separate.inMemory_of (hs : s.Separate opts)
    (h : s.part.task ≠ none ∨ s.part.pendingFree ≠ [] ∨ s.part.branchFileMapping ≠ []) :
    s.InMemory opts := by
  refine hs.memory fun hentry ↦ by_contra fun hman ↦ ?_
  rw [(hs.unloaded hentry hman).2] at h
  simp [ofBranch] at h

/-- A branch's content depends on its manifest, and on the file pages the manifest leads to. -/
theorem contentOf_congr {b : BranchName} (hman : s'.manifestOf b = s.manifestOf b)
    (hdisk : ∀ m q fp o, s.manifestOf b = some m → (replay m).mappingTbl.toFilePage q = some fp →
      ownerOf opts (replay m).branchMetadata.fileRanges fp = some o →
      s'.disk.lookup (o, fp) = s.disk.lookup (o, fp)) (page : ℕ) :
    s'.contentOf opts b page = s.contentOf opts b page := by
  unfold contentOf
  rw [hman]
  cases hm : s.manifestOf b with
  | none => rfl
  | some m =>
    rw [bind_some, bind_some]
    cases hfp : (replay m).mappingTbl.toFilePage page with
    | none => rfl
    | some fp =>
      rw [bind_some, bind_some]
      cases ho : ownerOf opts (replay m).branchMetadata.fileRanges fp with
      | none => rw [show getBranchNameAndTerm _ _ = none from ho]; rfl
      | some o =>
        rw [show getBranchNameAndTerm _ _ = some o from ho]
        exact hdisk m page fp o hm hfp ho

/-- What an event must do: keep the branches apart, and the content of every branch but the active
one. -/
structure Keeps (opts : KvOptions) (s s' : LocalStore) : Prop where
  separate : s'.Separate opts
  content : ∀ b, b ≠ s.part.activeBranch → s.manifestOf b ≠ none →
    ∀ page, s'.contentOf opts b page = s.contentOf opts b page

/-- An event that changes neither the other manifests nor the files. -/
private theorem Keeps.of_same (hsep : s'.Separate opts) (hothers : s'.others = s.others)
    (howner : s'.part.owner = s.part.owner) (hdisk : s'.disk = s.disk) : Keeps opts s s' := by
  refine ⟨hsep, fun b hb _ page ↦ contentOf_congr ?_ (fun _ _ _ _ _ _ _ ↦ by rw [hdisk]) page⟩
  have hactive : s'.part.activeBranch = s.part.activeBranch := congrArg branchName howner
  rw [manifestOf_of_ne hb, manifestOf_of_ne (by rwa [hactive]), hothers]

private theorem Keeps.of_memory (hs : s.Separate opts) (hmem : s'.InMemory opts)
    (hothers : s'.others = s.others) (howner : s'.part.owner = s.part.owner)
    (hman : s'.part.manifest = s.part.manifest) (hdisk : s'.disk = s.disk) : Keeps opts s s' :=
  .of_same (hs.of_memory hothers howner hman hmem) hothers howner hdisk

/-- **An isolated event keeps the branches apart.** -/
theorem Separate.event {e : LocalEvent} (hs : s.Separate opts) (hpool : opts.dataAppendMode = false)
    (hguard : e.Isolated opts s) (hrun : e.run opts s = some s') : Keeps opts s s' := by
  cases e with
  | begin =>
    obtain ⟨p, hp, rfl⟩ := map_eq_some_iff.1 hrun
    obtain ⟨hidle, rfl⟩ := ite_some_none_eq_some.1 hp
    obtain ⟨hL, hmem⟩ := hs.load hpool hguard
    obtain ⟨-, -, hman, -, howner, -⟩ := makeCowRoot_frame opts s.part
    obtain ⟨-, -, htask⟩ := loaded_frame opts s
    have hbegin := hmem.begin hpool (htask.trans hidle)
    rw [show (s.loaded opts).part.makeCowRoot opts = s.part.makeCowRoot opts from
      makeCowRoot_findRoot opts s.part] at hbegin
    exact .of_memory hs hbegin rfl howner hman rfl
  | step a =>
    obtain ⟨hnone, hrun⟩ := ite_none_right_eq_some.1 hrun
    obtain ⟨p, hp, rfl⟩ := map_eq_some_iff.1 hrun
    have hstep := ok_of_toOption hp
    obtain ⟨t, ht, -⟩ := taskStep_ok hstep
    have hmem := hs.inMemory_of (.inl (by simp [ht]))
    obtain ⟨-, hman, -, howner⟩ := taskStep_frame hstep
    have ha : a.allocation t = none := by simpa [ht] using hnone
    exact .of_memory hs (hmem.step hpool ht ha hstep) rfl howner hman rfl
  | write page? content =>
    obtain ⟨t, ht, hwrite⟩ := bind_eq_some_iff.1 hrun
    have hmem := hs.inMemory_of (.inl (by simp [ht]))
    obtain ⟨-, hmem'⟩ := hmem.write ht hrun
    obtain ⟨p', hp, rfl⟩ := map_eq_some_iff.1 hwrite
    obtain ⟨-, hman, -, howner⟩ := taskStep_frame (ok_of_toOption hp)
    refine ⟨hs.of_memory rfl howner hman hmem', fun b hb _ page ↦ ?_⟩
    have hactive : p'.activeBranch = s.part.activeBranch := congrArg branchName howner
    refine contentOf_congr ?_ (fun m q fp o hm hq ho ↦ ?_) page
    · rw [manifestOf_of_ne hb]
      exact if_neg (show b ≠ p'.activeBranch by rwa [hactive])
    · -- the page written is not the one the branch reads
      have hne : (o, fp) ≠ (s.writtenFile opts t.cow.mapper.allocator.allocate.1,
          t.cow.mapper.allocator.allocate.1) := by
        rw [hmem.writtenFile_eq ht]
        rintro heq
        obtain ⟨rfl, hfp⟩ := Prod.mk.inj heq
        exact hmem.handedOut_ne hs ht hb hm hq ho hfp
      rw [lookup_cons, beq_false_of_ne hne]
  | commit =>
    obtain ⟨p', hp', rfl⟩ := map_eq_some_iff.1 hrun
    obtain ⟨t, ht, -, rfl⟩ := commit_ok (ok_of_toOption hp')
    have hmem := hs.inMemory_of (.inl (by simp [ht]))
    exact .of_same (hs.commit hmem ht) rfl (owner_updateMeta opts s.part t) rfl
  | abort =>
    obtain ⟨p, hp, rfl⟩ := map_eq_some_iff.1 hrun
    obtain ⟨htask, ⟨⟩⟩ := ite_none_left_eq_some.1 hp
    exact .of_memory hs (hs.inMemory_of (.inl htask)).abort rfl rfl rfl rfl
  | release =>
    cases hrun
    by_cases hpend : s.part.pendingFree = []
    · have heq : s.part.freeMappingSnapshot = s.part := by rw [freeMappingSnapshot, hpend]
      rw [heq]
      exact .of_same hs rfl rfl rfl
    · have hmem := (hs.inMemory_of (.inr (.inl hpend))).release hguard
      obtain ⟨howner, hman⟩ : s.part.freeMappingSnapshot.owner = s.part.owner ∧
          s.part.freeMappingSnapshot.manifest = s.part.manifest := by
        unfold freeMappingSnapshot
        split <;> exact ⟨rfl, rfl⟩
      exact .of_memory hs hmem rfl howner hman rfl
  | openFile fileId =>
    obtain ⟨o, ho, rfl⟩ := map_eq_some_iff.1 hrun
    have hmem := hs.inMemory_of (.inr (.inr fun hnil ↦ by
      rw [hnil] at ho
      exact absurd ho (by simp [getBranchNameAndTerm])))
    refine .of_memory hs (hmem.of_fds fun x hx ↦ ?_) rfl rfl rfl rfl
    rcases mem_cons.1 hx with rfl | hx
    · -- a descriptor that is open is used again
      cases hfd : s.fds.lookup fileId with
      | none => exact ho
      | some o' => exact hmem.fds (fileId, o') (mem_of_lookup hfd)
    · exact hmem.fds x hx
  | closeFile fileId =>
    cases hrun
    by_cases hloaded : s.part.entry = none → s.part.manifest = none
    · have hmem := hs.memory hloaded
      exact .of_memory hs (hmem.of_fds fun x hx ↦ hmem.fds x (mem_of_mem_filter hx)) rfl rfl rfl rfl
    · obtain ⟨hentry, hne⟩ := Classical.not_imp.1 hloaded
      have hfds := (hs.unloaded hentry hne).1
      have heq : ({ s with fds := s.fds.filter (·.1 ≠ fileId) } : LocalStore) = s := by
        obtain ⟨part, others, fds, disk⟩ := s
        obtain rfl : fds = [] := hfds
        rfl
      rw [heq]
      exact .of_same hs rfl rfl rfl
  | fork child =>
    have hsep := hs.fork hpool hguard hrun
    obtain ⟨howner, -⟩ := loaded_frame opts s
    obtain ⟨-, rfl | ⟨root, mapper, -, -, rfl⟩⟩ := fork_ok hpool hrun
    · exact .of_same hsep rfl howner rfl
    · refine ⟨hsep, fun b hb hm page ↦ ?_⟩
      refine contentOf_congr ?_ (fun _ _ _ _ _ _ _ ↦ by rfl) page
      have hactive : (s.loaded opts).part.activeBranch = s.part.activeBranch :=
        congrArg branchName howner
      -- the new name had no manifest
      have hne : b ≠ normalizeBranchName child := by
        rintro rfl
        obtain ⟨m, hm⟩ := ne_none_iff_exists'.1 hm
        rw [manifestOf_of_ne hb] at hm
        exact hguard.2.2.1 (normalizeBranchName child, m) (mem_of_lookup hm) rfl
      rw [manifestOf_of_ne hb]
      refine (if_neg (show b ≠ (s.loaded opts).part.activeBranch by rwa [hactive])).trans ?_
      rw [lookup_cons, beq_false_of_ne hne]
  | restart b =>
    obtain ⟨hmanifests, hdisk, hsep⟩ := hs.restart hrun
    refine ⟨hsep, fun b' _ _ page ↦ contentOf_congr (by rw [hmanifests]) ?_ page⟩
    exact fun _ _ _ _ _ _ _ ↦ by rw [hdisk]

end LocalStore

/-! ### Runs -/

theorem LocalStore.separate_fresh (opts : KvOptions) (branch : BranchName) :
    (fresh branch).Separate opts := by
  have hnone : ∀ b, (fresh branch).manifestOf b = none := by
    intro b
    unfold manifestOf
    split <;> rfl
  exact ⟨rfl, nodup_nil, by simp [fresh],
    fun b m hm ↦ absurd ((hnone b).symm.trans hm) (by simp), fun _ hne ↦ absurd rfl hne,
    fun _ ↦ inMemory_of_fresh rfl rfl⟩

/-- **Branches of a local, pooled store are isolated**, in every run in which the pools are refilled
with private pages only and forks are made where nothing is ahead of the allocator. A page write
goes into a file of the active branch and is found there, and no event changes what another branch
reads. -/
theorem branchWrites_isolated {opts : KvOptions} (hopts : opts.LocalPooled) {branch : BranchName}
    {s s' : LocalStore} {e : LocalEvent}
    (hrun : LocalRuns opts (LocalEvent.Isolated opts) (fresh branch) s)
    (hguard : e.Isolated opts s) (hstep : e.run opts s = some s') :
    (∀ page? content, e = .write page? content → ∀ t, s.part.task = some t →
      (s.writtenFile opts t.cow.mapper.allocator.allocate.1).branchName = s.part.activeBranch ∧
        ownerOf opts s'.part.branchFileMapping t.cow.mapper.allocator.allocate.1 =
          some (s.writtenFile opts t.cow.mapper.allocator.allocate.1)) ∧
      ∀ b, b ≠ s.part.activeBranch → s.manifestOf b ≠ none →
        ∀ page, s'.contentOf opts b page = s.contentOf opts b page := by
  have hs : s.Separate opts :=
    hrun.invariant (LocalStore.Separate opts) (separate_fresh opts branch)
      fun h hg hr ↦ (h.event hopts.pooled hg hr).separate
  refine ⟨?_, (hs.event hopts.pooled hguard hstep).content⟩
  rintro page? content rfl t ht
  have hmem := hs.inMemory_of (.inl (by simp [ht]))
  rw [hmem.writtenFile_eq ht]
  exact ⟨rfl, (hmem.write ht hstep).1⟩

/-- A branch with one page, and a child forked from it that has replaced the page. -/
private def childReplacesPage : List LocalEvent :=
  [.begin, .write none 7, .step (.setRoots (some 0) none 0), .commit, .release, .fork "dev",
    .restart "dev", .begin, .openFile 0, .write (some 0) 8, .commit]

private theorem pooledOptions_localPooled : pooledOptions.LocalPooled := ⟨rfl, rfl⟩

/-- After a restart on the parent, the page it replaces is its own. -/
theorem branchWrites_isolated_parent : ∃ s s' : LocalStore, s.part.activeBranch = "main" ∧
    (write (some 0) 9).run pooledOptions s = some s' ∧
    s.contentOf pooledOptions "dev" 0 = some 8 ∧ s'.contentOf pooledOptions "dev" 0 = some 8 := by
  obtain ⟨s, hrun, hactive, hcontent, hsome, hguard, hman⟩ : ∃ s,
      LocalRuns pooledOptions (LocalEvent.Isolated pooledOptions) (fresh "main") s ∧
      s.part.activeBranch = "main" ∧ s.contentOf pooledOptions "dev" 0 = some 8 ∧
      ((write (some 0) 9).run pooledOptions s).isSome ∧
      (write (some 0) 9).Isolated pooledOptions s ∧ s.manifestOf "dev" ≠ none :=
    exists_reach_of_exec (childReplacesPage ++ [.restart "main", .begin]) (by decide +kernel)
  obtain ⟨s', hs'⟩ := isSome_iff_exists.1 hsome
  obtain ⟨-, hkeeps⟩ := branchWrites_isolated pooledOptions_localPooled hrun hguard hs'
  refine ⟨s, s', hactive, hs', hcontent, ?_⟩
  rw [hkeeps "dev" (by rw [hactive]; decide) hman 0, hcontent]

/-- **A write on the child changes the parent's page.** The child has replaced the page it
inherited; when the replaced mapping is released the parent's file page enters the child's pool, and
the next write puts it to use, through the descriptor a read has opened for the parent's file. -/
theorem child_overwrites_parent : ∃ s s' : LocalStore,
    LocalRuns pooledOptions (fun _ _ ↦ True) (fresh "main") s ∧
      s.part.activeBranch = "dev" ∧ (write (some 0) 9).run pooledOptions s = some s' ∧
      s.contentOf pooledOptions "main" 0 = some 7 ∧
      s'.contentOf pooledOptions "main" 0 = some 9 := by
  obtain ⟨s, hrun, hactive, hbefore, hwrite⟩ : ∃ s,
      LocalRuns pooledOptions (fun _ _ ↦ True) (fresh "main") s ∧ s.part.activeBranch = "dev" ∧
      s.contentOf pooledOptions "main" 0 = some 7 ∧
      ((write (some 0) 9).run pooledOptions s).map (·.contentOf pooledOptions "main" 0) =
        some (some 9) :=
    exists_reach_of_exec (childReplacesPage ++ [.release, .begin]) (by decide +kernel)
  obtain ⟨s', hs', hafter⟩ := map_eq_some_iff.1 hwrite
  exact ⟨s, s', hrun, hactive, hs', hbefore, hafter⟩

end EloqStore
