import EloqStore.Foundation.Transition
import EloqStore.Partition.TaskInvariant

/-!
# The manifest on disk against the published root

After every commit, replaying the manifest should give back what the commit published. A commit that
writes the manifest makes it so, whether it appends or rewrites (`Synced.of_append`,
`Synced.of_switch`), because a task's copy is what is on disk changed by what the task recorded.

A commit that writes nothing makes it so only if there was nothing to write. `flushManifest` looks
at the builder of data-mapping changes alone, so a commit whose only changes are to the segment
mapping is published and never reaches the disk: `compaction_loses_segment_moves`. `Op.Covered`
says which operations stay clear of that, and `published_agrees_with_manifest` is the agreement
along every run of such operations.
-/

namespace EloqStore

open List MappingTbl Option EloqStore.Partition RootMeta Transition WriteTask Partition

/-! ### The published root -/

/-- The dictionary of a published root, as a manifest stores it. -/
def RootMeta.dictBytes (root : RootMeta) : List UInt8 := (root.compression.getD {}).dictBytes

@[simp] theorem RootMeta.dictBytes_ofReplayer (opts : KvOptions) (term : ℕ) (r : Replayer) :
    (ofReplayer opts term r).dictBytes = r.dictBytes := by
  simp only [ofReplayer, dictBytes, getD_some]
  split
  · next hd => simp [hd, DictCompression.dictBytes]
  · rfl

/-- **Agreement of a published root with a replay**: everything a manifest stores is what the root
cache holds, and the maxima the replay found lie above everything mapped. -/
structure RootMeta.Agrees (root : RootMeta) (mapper : PageMapper) (ranges : BranchFileMapping)
    (r : Replayer) : Prop where
  rootId : r.root = root.rootId
  ttlRootId : r.ttlRoot = root.ttlRootId
  mapping : ∀ q, r.mappingTbl.toFilePage q = mapper.toFilePage q
  segMapping : ∀ q, r.segmentMappingTbl.toFilePage q = denote root.segmentMapper q
  dict : r.dictBytes = root.dictBytes
  ranges : r.branchMetadata.fileRanges = ranges
  replaySound : r.Sound
  below : ∀ q fp, mapper.toFilePage q = some fp → fp < mapper.allocator.maxFpId
  segBelow : ∀ m, root.segmentMapper = some m →
    ∀ q fp, m.toFilePage q = some fp → fp < m.allocator.maxFpId

/-- The published root of a partition agrees with its manifest. Before the first manifest write
there is nothing to replay, and the root is that of an empty partition. -/
def Partition.AgreesWithManifest (s : Partition) : Prop :=
  ∀ root mapper, s.entry = some root → root.mapper = some mapper →
    match s.manifest with
    | some m => root.Agrees mapper s.branchFileMapping (replay m)
    | none => root.rootId = none ∧ root.ttlRootId = none ∧
        (∀ q, mapper.toFilePage q = none) ∧ ∀ q, denote root.segmentMapper q = none

/-- A published root with all a task started from it needs. -/
structure Loaded (s : Partition) (root : RootMeta) (mapper : PageMapper) : Prop where
  rootId : root.rootId = (durable s.manifest).root
  ttlRootId : root.ttlRootId = (durable s.manifest).ttlRoot
  mapping : ∀ q, mapper.toFilePage q = (durable s.manifest).mappingTbl.toFilePage q
  segMapping : ∀ q, denote root.segmentMapper q =
    (durable s.manifest).segmentMappingTbl.toFilePage q
  sound : mapper.Sound
  segSound : ∀ m, root.segmentMapper = some m → m.Sound
  size : root.manifestSize = (s.manifest.map Manifest.size).getD 0
  dict : s.manifest ≠ none → (durable s.manifest).dictBytes = root.dictBytes
  ranges : s.manifest ≠ none →
    (durable s.manifest).branchMetadata.fileRanges = s.branchFileMapping
  /-- File pages waiting to return to the pool lie below the maximum. -/
  pending : ∀ fps ∈ s.pendingFree, ∀ q ∈ fps, q < mapper.allocator.maxFpId

/-- What holds of a partition between operations. -/
structure Published (s : Partition) : Prop where
  idle : s.task = none
  durableSound : (durable s.manifest).Sound
  /-- An entry that is not cached pins nothing. -/
  unloaded : s.entry = none → s.pendingFree = []
  /-- A stub stands for a partition that does not exist. -/
  stub : ∀ root, s.entry = some root → root.mapper = none →
    s.manifest = none ∧ root.segmentMapper = none ∧ s.pendingFree = []
  loaded : ∀ root mapper, s.entry = some root → root.mapper = some mapper → Loaded s root mapper

theorem Published.agreesWithManifest {s : Partition} (h : Published s) : s.AgreesWithManifest := by
  intro root mapper hroot hmapper
  have hl := h.loaded root mapper hroot hmapper
  have hd := h.durableSound
  cases hm : s.manifest with
  | none =>
    have hdur : durable s.manifest = durable none := by rw [hm]
    refine ⟨?_, ?_, fun q ↦ ?_, fun q ↦ ?_⟩
    · rw [hl.rootId, hdur]
      rfl
    · rw [hl.ttlRootId, hdur]
      rfl
    · rw [hl.mapping q, hdur]
      rfl
    · rw [hl.segMapping q, hdur]
      rfl
  | some m =>
    have hne : s.manifest ≠ none := by simp [hm]
    have hdur : durable s.manifest = replay m := by rw [hm]; rfl
    rw [hdur] at hd
    exact
      { rootId := by rw [hl.rootId, hdur]
        ttlRootId := by rw [hl.ttlRootId, hdur]
        mapping := fun q ↦ by rw [hl.mapping q, hdur]
        segMapping := fun q ↦ by rw [hl.segMapping q, hdur]
        dict := by rw [← hl.dict hne, hdur]
        ranges := by rw [← hl.ranges hne, hdur]
        replaySound := hd
        below := hl.sound.below
        segBelow := fun m hm ↦ (hl.segSound m hm).below }

variable {opts : KvOptions} {s s' : Partition} {t : WriteTask}

/-! ### Writing the manifest -/

/-- **What a flush leaves on disk**: what was there, if no data page has changed; else the log of
changes appended, or a snapshot of the copy. -/
theorem Partition.flushManifest_cases (opts : KvOptions)
    (hsize : 0 < t.cow.manifestSize → s.manifest ≠ none) :
    (s.flushManifest opts t = s ∧ t.walBuilder = [] ∧ needEmptySnapshot t = false) ∨
      ∃ m, (s.flushManifest opts t).manifest = some m ∧
        (replay m = replayLog (durable s.manifest) (s.logOf t) ∨
          replay m = deserializeSnapshot (s.snapshotOf t)) := by
  have hswitch : (s.switchManifest t).manifest = some ⟨s.snapshotOf t, []⟩ := by
    rw [switchManifest, setCompression_manifest]
  unfold flushManifest
  split
  · next hskip =>
    simp only [Bool.and_eq_true, List.isEmpty_iff, Bool.not_eq_true'] at hskip
    exact .inl ⟨rfl, hskip⟩
  · split
    · exact .inr ⟨_, hswitch, .inr rfl⟩
    · split
      · next happ =>
        simp only [Bool.and_eq_true, Bool.not_eq_true', decide_eq_true_eq] at happ
        obtain ⟨m, hm⟩ := Option.ne_none_iff_exists'.1 (hsize happ.1.2)
        refine .inr ⟨{ m with logs := m.logs ++ [s.logOf t] }, ?_, .inl ?_⟩
        · simp [appendManifest, hm]
        · rw [replay_append, hm]
          rfl
      · exact .inr ⟨_, hswitch, .inr rfl⟩

/-- The task with its lists of changes emptied. -/
def WriteTask.forget (t : WriteTask) : WriteTask :=
  { t with walBuilder := [], segMappingDeltas := [], reserved := [] }

/-- Everything the task has changed is on disk. -/
structure Synced (s : Partition) (t : WriteTask) : Prop where
  inv : TaskInv s t.forget
  quiet : Quiet s t.forget

namespace Synced

/-- A task that changed nothing is in step without a write. -/
theorem of_quiet (h : TaskInv s t) (hq : Quiet s t) (hwal : t.walBuilder = [])
    (hres : t.reserved = []) : Synced s t := by
  have hdeltas := hq.deltas
  have heq : t.forget = t := by
    obtain ⟨_, _, _, _, _, _⟩ := t
    simp_all [forget]
  exact ⟨heq ▸ h, heq ▸ hq⟩

/-- **Rewriting the manifest** puts the whole copy on disk, whatever was there. -/
theorem of_switch (h : TaskSound s t) :
    ∃ t', (s.switchManifest t).task = some t' ∧ Synced (s.switchManifest t) t' := by
  obtain ⟨t', ht', hcomp, heq, hman, hranges, hpend, -, -, hentry, hseg⟩ :=
    setCompression_spec
      (s := { s with
        manifest := some ⟨s.snapshotOf t, []⟩
        task := some (flushed t (s.snapshotOf t).size) })
      (c := { s.compressionOf t with dirty := false }) rfl h.entry
  refine ⟨t', ht', ?_⟩
  change (s.switchManifest t).manifest = _ at hman
  change (s.switchManifest t).branchFileMapping = _ at hranges
  change (s.switchManifest t).pendingFree = _ at hpend
  change compressionOf (s.switchManifest t) t' = _ at hcomp
  have hdur : durable (s.switchManifest t).manifest = deserializeSnapshot (s.snapshotOf t) := by
    rw [hman]
    rfl
  have hmap : t'.cow.mapper = t.cow.mapper := by rw [heq]; rfl
  have hsegm : t'.cow.segmentMapper = t.cow.segmentMapper := by rw [heq]; rfl
  have hdict : (durable (s.switchManifest t).manifest).dictBytes =
      (compressionOf (s.switchManifest t) t').dictBytes := by
    rw [hdur, hcomp]
    rfl
  refine ⟨⟨⟨?_, ?_, ?_, ?_, hentry, ?_⟩, ?_, ?_, ⟨?_, ?_⟩, ?_, fun _ _ ↦ hdict⟩,
    ⟨?_, ?_, rfl, fun _ ↦ hdict, fun _ ↦ ?_⟩⟩
  · exact hmap ▸ h.sound
  · exact fun m hm ↦ h.segSound m (hsegm ▸ hm)
  · intro q hq
    rw [show t'.forget.cow.mapper = t.cow.mapper from hmap]
    rw [heq] at hq
    exact h.freed q hq
  · intro fps hfps q hq
    rw [show t'.forget.cow.mapper = t.cow.mapper from hmap]
    rw [hpend] at hfps
    exact h.pending fps hfps q hq
  · intro hn
    exact hseg.trans (h.entrySegment (hsegm ▸ hn))
  · intro q _
    rw [hdur, show t'.forget.cow.mapper = t.cow.mapper from hmap]
    rfl
  · intro q
    rw [hdur, show t'.forget.cow.segmentMapper = t.cow.segmentMapper from hsegm]
    cases hm : t.cow.segmentMapper <;>
      simp [deserializeSnapshot, snapshotOf, hm, WriteTask.forget, applyDeltas_nil,
        PageMapper.toFilePage]
  · rw [hdur]
    exact h.sound.below
  · rw [hdur]
    cases hm : t.cow.segmentMapper with
    | none =>
      simp only [deserializeSnapshot, snapshotOf, hm, Option.map_none, Option.getD_none]
      exact MappingTbl.below_nil _
    | some m =>
      simp only [deserializeSnapshot, snapshotOf, hm, Option.map_some, Option.getD_some]
      exact (h.segSound m hm).below
  · rw [hman, heq]
    simp [WriteTask.forget, flushed, Manifest.size]
  · rw [hdur, heq]
    rfl
  · rw [hdur, heq]
    rfl
  · rw [hdur, hranges]
    rfl

/-- **Appending to the manifest** puts on disk what the task recorded. -/
theorem of_append (h : TaskInv s t) (hres : t.reserved = [])
    (hdirty : (s.compressionOf t).dirty = false) (hsize : 0 < t.cow.manifestSize) :
    ∃ t', (s.appendManifest t).task = some t' ∧ Synced (s.appendManifest t) t' := by
  refine ⟨_, rfl, ?_⟩
  -- the manifest has a size, so there is one
  obtain ⟨m, hm⟩ : ∃ m, s.manifest = some m := by
    cases hm : s.manifest with
    | none => exact absurd (h.size ▸ hsize) (by simp [hm])
    | some m => exact ⟨m, rfl⟩
  have hman : (s.appendManifest t).manifest = some { m with logs := m.logs ++ [s.logOf t] } := by
    simp [appendManifest, hm]
  have hold : durable s.manifest = replay m := by rw [hm]; rfl
  have hdur : durable (s.appendManifest t).manifest =
      replayLog (durable s.manifest) (s.logOf t) := by
    rw [hman, hold]
    exact replay_append m _
  have hdict : (durable (s.appendManifest t).manifest).dictBytes =
      (s.compressionOf t).dictBytes := by
    rw [hdur]
    exact h.dict (by simp [hm]) hdirty
  refine ⟨⟨⟨h.sound, h.segSound, h.freed, h.pending, h.entry, h.entrySegment⟩, ?_, ?_, ?_, ?_,
    fun _ _ ↦ hdict⟩, ⟨?_, ?_, rfl, fun _ ↦ hdict, fun _ ↦ ?_⟩⟩
  · intro q _
    rw [hdur]
    exact h.mapping q (by simp [hres])
  · intro q
    rw [hdur]
    exact h.segMapping q
  · rw [hdur]
    exact h.durableSound.replayLog _
  · rw [hman]
    simp [forget, flushed, Manifest.size_append, h.size, hm]
  · rw [hdur]
    rfl
  · rw [hdur]
    rfl
  · rw [hdur]
    rfl

/-- **A flush puts a task's changes on disk**, if there is a change to the data mapping, the
partition has become empty, or nothing has changed. -/
theorem of_flush (opts : KvOptions) (h : TaskInv s t) (hres : t.reserved = [])
    (ht : s.task = some t)
    (hcov : t.walBuilder ≠ [] ∨ needEmptySnapshot t = true ∨ Quiet s t) :
    ∃ t', (s.flushManifest opts t).task = some t' ∧ Synced (s.flushManifest opts t) t' := by
  unfold flushManifest
  split
  · next hskip =>
    simp only [Bool.and_eq_true, List.isEmpty_iff, Bool.not_eq_true'] at hskip
    rcases hcov with hcov | hcov | hcov
    · exact absurd hskip.1 hcov
    · simp [hskip.2] at hcov
    · exact ⟨t, ht, of_quiet h hcov hskip.1 hres⟩
  · split
    · exact of_switch h.toTaskSound
    · split
      · next happ =>
        simp only [Bool.and_eq_true, Bool.not_eq_true', decide_eq_true_eq] at happ
        exact of_append h hres happ.1.1 happ.1.2
      · exact of_switch h.toTaskSound

/-- **Publishing a task whose changes are on disk** restores agreement. -/
theorem updateRoot (h : Synced s t) : Published (s.updateRoot opts t) := by
  obtain ⟨root₀, hroot₀⟩ := isSome_iff_exists.1 h.inv.entry
  have hseg : t.cow.segmentMapper.or root₀.segmentMapper = t.cow.segmentMapper := by
    cases hm : t.cow.segmentMapper with
    | some m => rfl
    | none => simpa [hroot₀] using h.inv.entrySegment hm
  refine ⟨rfl, h.inv.durableSound, ?_, ?_, ?_⟩
  · simp [Partition.updateRoot, hroot₀]
  · intro root hroot hnone
    simp only [Partition.updateRoot, hroot₀, Option.map_some, Option.some.injEq] at hroot
    simp [← hroot] at hnone
  · intro root mapper hroot hmapper
    simp only [Partition.updateRoot, hroot₀, Option.map_some, Option.some.injEq] at hroot
    subst hroot
    obtain rfl : t.cow.mapper = mapper := by simpa using hmapper
    refine ⟨h.quiet.root, h.quiet.ttlRoot, fun q ↦ ?_, fun q ↦ ?_, h.inv.sound, fun m hm ↦ ?_,
      h.inv.size, fun hne ↦ ?_, h.quiet.ranges, fun fps hfps q hq ↦ ?_⟩
    · exact h.inv.mapping q (by simp [forget])
    · rw [hseg]
      exact h.inv.segMapping q
    · rw [hseg] at hm
      exact h.inv.segSound m hm
    · refine (h.quiet.dict hne).trans ?_
      simp only [compressionOf, forget, dictBytes, hroot₀]
      cases t.cow.ownCompression <;> rfl
    · simp only [Partition.updateRoot] at hfps
      split at hfps
      · exact h.inv.pending fps hfps q hq
      · rcases mem_append.1 hfps with hfps | hfps
        · exact h.inv.pending fps hfps q hq
        · rw [mem_singleton.1 hfps] at hq
          exact h.inv.freed q hq

end Synced

/-- **A commit restores agreement.** -/
theorem TaskInv.updateMeta (opts : KvOptions) (h : TaskInv s t) (hres : t.reserved = [])
    (ht : s.task = some t)
    (hcov : t.walBuilder ≠ [] ∨ needEmptySnapshot t = true ∨ Quiet s t) :
    Published (s.updateMeta opts t) := by
  obtain ⟨t', ht', hsync⟩ := Synced.of_flush opts h hres ht hcov
  simp only [Partition.updateMeta, ht']
  exact hsync.updateRoot

/-- The commit of an emptied partition rewrites the manifest. -/
theorem TaskSound.updateMeta (opts : KvOptions) (h : TaskSound s t)
    (hempty : needEmptySnapshot t = true) : Published (s.updateMeta opts t) := by
  have hflush : s.flushManifest opts t = s.switchManifest t := by
    simp [flushManifest, hempty]
  obtain ⟨t', ht', hsync⟩ := Synced.of_switch h
  simp only [Partition.updateMeta, hflush, ht']
  exact hsync.updateRoot

/-! ### Starting a task -/

namespace Published

/-- Loading a manifest gives a root that agrees with it. -/
theorem findRoot (opts : KvOptions) (h : Published s) : Published (s.findRoot opts) := by
  unfold Partition.findRoot
  split
  · exact h
  · next hentry =>
    split
    · exact h
    · next m hm =>
      have hsound : (replay m).Sound := by simpa [hm, durable] using h.durableSound
      have hdur : durable (s.loadMeta opts m).manifest = replay m := by
        rw [loadMeta, hm]
        rfl
      refine ⟨h.idle, by rw [hdur]; exact hsound, by simp [loadMeta], ?_, ?_⟩
      · intro root hroot hnone
        simp only [loadMeta, some.injEq] at hroot
        simp [← hroot, ofReplayer] at hnone
      · intro root mapper hroot hmapper
        simp only [loadMeta, some.injEq] at hroot
        subst hroot
        obtain rfl : (replay m).getMapper opts s.processTerm = mapper := by
          simpa [ofReplayer] using hmapper
        refine ⟨by rw [hdur]; rfl, by rw [hdur]; rfl, fun q ↦ ?_, fun q ↦ ?_,
          hsound.getMapper opts _, fun m' hm' ↦ hsound.getSegmentMapper opts _ hm', ?_,
          fun _ ↦ ?_, fun _ ↦ by rw [hdur]; rfl, ?_⟩
        · rw [hdur]
          exact toFilePage_mapperOfTable _ _ q
        · rw [hdur]
          exact denote_getSegmentMapper _ opts _ q
        · simp [loadMeta, ofReplayer, hm, replay_fileSize]
        · rw [hdur, dictBytes_ofReplayer]
        · simp [loadMeta, h.unloaded hentry]

private theorem startEmpty {root : RootMeta} (opts : KvOptions) (h : Published s)
    (hm : s.manifest = none) (hp : s.pendingFree = []) (hroot : s.entry = some root)
    (hseg : root.segmentMapper = none) :
    TaskInv s { cow := { mapper := .empty (newAllocator opts), ownCompression := some {} } } ∧
      Quiet s { cow := { mapper := .empty (newAllocator opts), ownCompression := some {} } } := by
  have hpool : (newAllocator opts).PoolBelow := by
    intro ids hids fp hfp
    simp only [newAllocator] at hids
    split at hids
    · cases hids
    · rw [← (AllocatorKind.pooled.inj hids)] at hfp
      cases hfp
  refine ⟨⟨⟨.empty hpool, by simp, by simp, by simp [hp], by simp [hroot], by simp [hroot, hseg]⟩,
    ?_, ?_, h.durableSound, by simp [hm], by simp [hm]⟩, ⟨?_, ?_, rfl, by simp [hm], by simp [hm]⟩⟩
  all_goals simp [hm, durable, applyDeltas_nil]

/-- **A task starts in step with the manifest.** -/
theorem makeCowRoot (opts : KvOptions) (h : Published s) : ∃ t, (s.makeCowRoot opts).task = some t ∧
    TaskInv (s.makeCowRoot opts) t ∧ Quiet (s.makeCowRoot opts) t ∧ t.walBuilder = [] ∧
    t.reserved = [] ∧ Published (s.makeCowRoot opts).abort := by
  have h' := h.findRoot opts
  unfold Partition.makeCowRoot
  dsimp only
  split
  · next root hroot =>
    split
    · next mapper hmapper =>
      have hl := h'.loaded root mapper hroot hmapper
      refine ⟨_, rfl, ⟨⟨hl.sound, hl.segSound, by simp, hl.pending, by simp [hroot], ?_⟩,
        fun q _ ↦ hl.mapping q, hl.segMapping, h'.durableSound, hl.size, fun hne _ ↦ ?_⟩,
        ⟨hl.rootId, hl.ttlRootId, rfl, fun hne ↦ ?_, hl.ranges⟩, rfl, rfl, ?_⟩
      · intro hn
        simpa [hroot] using hn
      · exact (hl.dict hne).trans (by simp [compressionOf, hroot, dictBytes])
      · exact (hl.dict hne).trans (by simp [compressionOf, hroot, dictBytes])
      · exact { h' with idle := rfl, loaded := fun r m hr hm ↦ { h'.loaded r m hr hm with } }
    · next hmapper =>
      obtain ⟨hm, hseg, hp⟩ := h'.stub root hroot hmapper
      obtain ⟨hinv, hquiet⟩ := startEmpty opts h' hm hp hroot hseg
      refine ⟨_, rfl, ⟨{ hinv.toTaskSound with }, hinv.mapping, hinv.segMapping, hinv.durableSound,
        hinv.size, hinv.dict⟩, { hquiet with }, rfl, rfl, ?_⟩
      exact { h' with idle := rfl, loaded := fun r m hr hm ↦ { h'.loaded r m hr hm with } }
  · next hentry =>
    have hm : (s.findRoot opts).manifest = none := by
      unfold Partition.findRoot at hentry ⊢
      split at hentry
      · next hs => simp [hs] at hentry
      · split at hentry
        · assumption
        · simp [loadMeta] at hentry
    have hp := h'.unloaded hentry
    have hstub : Published { s.findRoot opts with entry := some {} } := by
      refine ⟨h'.idle, h'.durableSound, by simp, fun root hroot _ ↦ ?_, fun root m hroot hmap ↦ ?_⟩
      · obtain rfl : ({} : RootMeta) = root := by simpa using hroot
        exact ⟨hm, rfl, hp⟩
      · obtain rfl : ({} : RootMeta) = root := by simpa using hroot
        cases hmap
    obtain ⟨hinv, hquiet⟩ := startEmpty opts hstub hm hp rfl rfl
    refine ⟨_, rfl, ⟨{ hinv.toTaskSound with }, hinv.mapping, hinv.segMapping, hinv.durableSound,
      hinv.size, hinv.dict⟩, { hquiet with }, rfl, rfl, ?_⟩
    exact { hstub with idle := rfl, loaded := fun r m hr hm ↦ { hstub.loaded r m hr hm with } }

/-- Releasing the oldest replaced mapping keeps agreement: only the pool changes. -/
theorem freeMappingSnapshot (h : Published s) : Published s.freeMappingSnapshot := by
  unfold Partition.freeMappingSnapshot
  split
  · exact h
  · next fps rest hpend =>
    refine ⟨h.idle, h.durableSound, fun hn ↦ ?_, fun root hroot hnone ↦ ?_,
      fun root mapper hroot hmapper ↦ ?_⟩
    · have := h.unloaded (by simpa using hn)
      simp [this] at hpend
    · obtain ⟨root₀, hroot₀, rfl⟩ := map_eq_some_iff.1 hroot
      have := (h.stub root₀ hroot₀ (by simpa using hnone)).2.2
      simp [this] at hpend
    · obtain ⟨root₀, hroot₀, rfl⟩ := map_eq_some_iff.1 hroot
      obtain ⟨mapper₀, hmapper₀, rfl⟩ := map_eq_some_iff.1 hmapper
      have hl := h.loaded root₀ mapper₀ hroot₀ hmapper₀
      refine { hl with
        sound := hl.sound.freeToPool (hl.pending fps (by simp [hpend]))
        pending := fun fps' hfps q hq ↦ ?_ }
      rw [PageMapper.Sound.freeToPool_maxFpId]
      exact hl.pending fps' (by simp [hpend, hfps]) q hq

end Published

/-! ### Operations -/

/-- **The operations whose commit writes the manifest when it must.** A write that changes segments,
the dictionary or the roots also changes the data mapping. A compaction that moves segments also
moves data pages, or compacts an empty partition, for which the manifest is rewritten. -/
def Op.Covered (opts : KvOptions) (s : Partition) : Op → Prop
  | .write steps => (∀ a ∈ steps, a.isQuiet = true) ∨ ∃ a ∈ steps, a.writesData = true
  | .truncateAll => True
  | .compact _ => ∀ t ∈ (s.makeCowRoot opts).task, t.cow.MovesSegments opts →
      t.cow.MovesData opts ∨ t.cow.rootId = none ∧ t.cow.ttlRootId = none

instance Op.decidableCovered (opts : KvOptions) (s : Partition) (e : Op) :
    Decidable (e.Covered opts s) := by
  cases e <;> dsimp only [Op.Covered] <;> infer_instance

private theorem isQuiet_of_mem_compactSteps {cow : CowRootMeta} {cached : List ℕ} {a : TaskStep}
    (hdata : ¬ cow.MovesData opts) (hseg : ¬ cow.MovesSegments opts)
    (ha : a ∈ compactSteps opts cached cow) : a.isQuiet = true := by
  obtain ⟨c, m, n, rfl⟩ | ⟨h, -⟩ | ⟨h, -⟩ := mem_compactSteps ha
  · rfl
  · exact absurd h hdata
  · exact absurd h hseg

private theorem setsRoots_of_mem_compactSteps {cow : CowRootMeta} {cached : List ℕ} {a : TaskStep}
    (ha : a ∈ compactSteps opts cached cow) : a.setsRoots = false := by
  obtain ⟨c, m, n, rfl⟩ | ⟨-, p, rfl⟩ | ⟨-, p, rfl⟩ := mem_compactSteps ha <;> rfl

theorem CowRootMeta.not_movesSegments {cow : CowRootMeta}
    (h : ∀ q, denote cow.segmentMapper q = none) : ¬ cow.MovesSegments opts := by
  rintro ⟨m, hm, hmoves⟩
  refine hmoves ?_
  have hmapped : m.tbl.mapped = [] := by
    refine eq_nil_iff_forall_not_mem.2 fun x hx ↦ ?_
    have := mem_mapped.1 hx
    have hq := h x.2
    rw [hm, denote_some, PageMapper.toFilePage, this] at hq
    cases hq
  exact PageMapper.compactPlan_moves_nil hmapped _

private theorem TaskInv.size_pos (h : TaskInv s t) (hm : s.manifest ≠ none) :
    0 < t.cow.manifestSize := by
  obtain ⟨m, hm⟩ := ne_none_iff_exists'.1 hm
  rw [h.size, hm]
  exact m.size_pos

private theorem Published.of_steps {as : List TaskStep} (h : TaskInv s t)
    (ht : s.task = some t) (hsteps : (s.taskSteps opts as).bind (commit opts) = .ok s')
    (hcov : ∀ s₁ t₁, s.taskSteps opts as = .ok s₁ → s₁.task = some t₁ → TaskInv s₁ t₁ →
      t₁.walBuilder ≠ [] ∨ needEmptySnapshot t₁ = true ∨ Quiet s₁ t₁) :
    Published s' := by
  cases hs : s.taskSteps opts as with
  | error e => simp [hs, Except.bind] at hsteps
  | ok s₁ =>
    obtain ⟨t₁, ht₁, hinv, -⟩ := h.steps ht hs
    simp only [hs, Except.bind, commit, ht₁] at hsteps
    split at hsteps
    · next hres =>
      rw [← Except.ok.inj hsteps]
      exact hinv.updateMeta opts hres ht₁ (hcov s₁ t₁ hs ht₁ hinv)
    · cases hsteps

private theorem TaskSound.freePage (opts : KvOptions) (h : TaskSound s t) (page : ℕ) :
    TaskSound s (t.freePage opts page) := by
  refine ⟨h.sound.freePage page, h.segSound, fun q hq ↦ ?_, h.pending, h.entry, h.entrySegment⟩
  rcases mem_append.1 hq with hq | hq
  · exact h.freed q hq
  · obtain ⟨page, hpage⟩ := mem_givenUp hq
    exact h.sound.below page q hpage

/-- Freeing the mapped pages of a truncated partition. -/
theorem TaskSound.foldl_freePage (opts : KvOptions) (h : TaskSound s t) (pages : List ℕ) :
    let t' := pages.foldl (fun t page ↦ t.freePage opts page) t
    TaskSound s t' ∧ t'.cow.manifestSize = t.cow.manifestSize := by
  induction pages generalizing t with
  | nil => exact ⟨h, rfl⟩
  | cons page pages ih => exact ih (h.freePage opts page)

/-- **Every covered operation restores agreement.** -/
theorem Published.runOp {op : Op} (h : Published s) (hcov : op.Covered opts s)
    (hrun : s.runOp opts op = .ok s') : Published s' := by
  obtain ⟨t, ht, hinv, hquiet, hwal, hres, habort⟩ := h.makeCowRoot opts
  simp only [Partition.runOp, ht] at hrun
  cases op with
  | write steps =>
    refine Published.of_steps hinv ht hrun fun s₁ t₁ hs ht₁ _ ↦ ?_
    rcases hcov with hcov | hcov
    · obtain ⟨t₂, ht₂, hq⟩ := hquiet.steps ht hcov hs
      cases ht₁.symm.trans ht₂
      exact .inr (.inr hq)
    · obtain ⟨t₂, ht₂, hw, -⟩ := hinv.steps_frame ht hs
      cases ht₁.symm.trans ht₂
      exact .inl (hw (.inr hcov))
  | truncateAll =>
    dsimp only at hrun
    split at hrun
    · rw [← Except.ok.inj hrun]
      exact habort
    · next hroot =>
      rw [← Except.ok.inj hrun]
      have hman : (s.makeCowRoot opts).manifest ≠ none := by
        intro hnone
        exact hroot (by rw [hquiet.root, hnone]; rfl)
      obtain ⟨hsound, hsize⟩ := hinv.toTaskSound.foldl_freePage opts
        (t.cow.mapper.tbl.mapped.map (·.2))
      refine TaskSound.updateMeta opts { hsound with } ?_
      simpa [needEmptySnapshot, truncated, hsize] using hinv.size_pos hman
  | compact cached =>
    dsimp only at hrun
    split at hrun
    · rw [← Except.ok.inj hrun]
      exact habort
    · refine Published.of_steps hinv ht hrun fun s₁ t₁ hs ht₁ _ ↦ ?_
      obtain ⟨t₂, ht₂, hw, hroots, hsize⟩ := hinv.steps_frame ht hs
      cases ht₁.symm.trans ht₂
      by_cases hdata : t.cow.MovesData opts
      · obtain ⟨page, hpage⟩ := hdata.exists_allocatePage cached
        exact .inl (hw (.inr ⟨_, hpage, rfl⟩))
      · by_cases hseg : t.cow.MovesSegments opts
        · -- the partition is empty, and has a manifest since it still maps segments
          obtain hdata' | ⟨hroot, httl⟩ := hcov t (by simpa using ht) hseg
          · exact absurd hdata' hdata
          · have hman : (s.makeCowRoot opts).manifest ≠ none := by
              intro hnone
              refine CowRootMeta.not_movesSegments (fun q ↦ ?_) hseg
              rw [hinv.segMapping q, hquiet.deltas, hnone]
              rfl
            obtain ⟨hroot₁, httl₁⟩ := hroots fun a ha ↦ setsRoots_of_mem_compactSteps ha
            by_cases hwal₁ : t₁.walBuilder = []
            · refine .inr (.inl ?_)
              simpa [needEmptySnapshot, hwal₁, hroot₁, httl₁, hroot, httl, hsize] using
                hinv.size_pos hman
            · exact .inl hwal₁
        · obtain ⟨t₂, ht₂, hq⟩ := hquiet.steps ht
            (fun a ha ↦ isQuiet_of_mem_compactSteps hdata hseg ha) hs
          cases ht₁.symm.trans ht₂
          exact .inr (.inr hq)

/-! ### Runs -/

/-- What happens to a partition between commits: operations, and the release of replaced mappings
by the readers that pin them. -/
inductive Event
  | op (o : Op)
  | freeMappingSnapshot
deriving DecidableEq, Repr

/-- One event; an operation counts when it commits. -/
def Event.step (opts : KvOptions) (s : Partition) : Event → Option Partition
  | .op o => (s.runOp opts o).toOption
  | .freeMappingSnapshot => some s.freeMappingSnapshot

/-- The operation of the event, if it is one, is covered. -/
def Event.Covered (opts : KvOptions) (s : Partition) : Event → Prop
  | .op o => o.Covered opts s
  | .freeMappingSnapshot => True

instance Event.decidableCovered (opts : KvOptions) (s : Partition) (e : Event) :
    Decidable (e.Covered opts s) := by
  cases e <;> dsimp only [Event.Covered] <;> infer_instance

abbrev Runs (opts : KvOptions) (G : Partition → Event → Prop) : Partition → Partition → Prop :=
  Transition.Reach (fun s e s' ↦ e.step opts s = some s') G

/-- A partition before its first operation in this process: nothing cached, and on disk either
nothing or a manifest whose maxima lie above what it maps. -/
def Partition.Unloaded (s : Partition) : Prop :=
  s.task = none ∧ s.entry = none ∧ s.pendingFree = [] ∧ (durable s.manifest).Sound

theorem Partition.Unloaded.published (h : s.Unloaded) : Published s := by
  obtain ⟨htask, hentry, hpend, hsound⟩ := h
  exact ⟨htask, hsound, fun _ ↦ hpend, by simp [hentry], by simp [hentry]⟩

theorem Partition.unloaded_fresh (branch : BranchName) (term : ℕ) : (fresh branch term).Unloaded :=
  ⟨rfl, rfl, rfl, below_nil _, below_nil _⟩

/-- **Agreement along runs.** From a partition not yet loaded, along any sequence of operations
whose commits write the manifest when they must, the published root is what the manifest on disk
replays to. -/
theorem published_agrees_with_manifest (opts : KvOptions) {s₀ s : Partition} (h₀ : s₀.Unloaded)
    (hrun : Runs opts (Event.Covered opts) s₀ s) : s.AgreesWithManifest := by
  refine (hrun.invariant Published h₀.published ?_).agreesWithManifest
  intro s e s' hs hcov hstep
  cases e with
  | op o => exact hs.runOp hcov (ok_of_toOption hstep)
  | freeMappingSnapshot =>
    obtain rfl : s.freeMappingSnapshot = s' := by simpa [Event.step] using hstep
    exact hs.freeMappingSnapshot

/-- Append mode, files of 16 pages and of 2 segments, and compaction of every segment file that is
not full. -/
def sampleOptions : KvOptions := ⟨true, 4, 1, 1000000, 2, 1, false, "", ""⟩

/-- A write of three segments and two pages, then one that frees the first segment and rewrites a
page. -/
def segmentWrites : List Event :=
  [.op (.write [.ensureSegmentMapper, .allocateSegment none, .allocateSegment none,
      .allocateSegment none, .allocatePage none, .allocatePage none, .setRoots (some 1) none 0]),
    .op (.write [.freeSegment 0, .allocatePage (some 0)])]

/-- The two writes are covered, and leave a manifest the published root agrees with. -/
theorem published_agrees_after_segmentWrites : ∃ s,
    Runs sampleOptions (Event.Covered sampleOptions) (.fresh "main" 0) s ∧
      s.manifest.isSome = true ∧ s.AgreesWithManifest :=
  exists_reach_and_of_exec
    (fun hrun ↦ published_agrees_with_manifest sampleOptions (unloaded_fresh "main" 0) hrun)
    segmentWrites (by decide)

/-- **A compaction that moves only segments is lost.** After the two writes the first segment file
is half full and is compacted; no data page moves, so nothing is written. The published root then
maps segment 1 to the file segment 3, and the manifest still maps it to 1. -/
theorem compaction_loses_segment_moves : ∃ s,
    Runs sampleOptions (fun _ _ ↦ True) (.fresh "main" 0) s ∧ s.task = none ∧
      denote (s.entry.bind (·.segmentMapper)) 1 = some 3 ∧
      (s.manifest.map fun m ↦ (replay m).segmentMappingTbl.toFilePage 1) = some (some 1) ∧
      ¬ s.AgreesWithManifest := by
  obtain ⟨s, hrun, htask, hmap, hseg, hdisk⟩ : ∃ s,
      Runs sampleOptions (fun _ _ ↦ True) (.fresh "main" 0) s ∧ s.task = none ∧ (s.entry.bind (·.mapper)).isSome ∧
      denote (s.entry.bind (·.segmentMapper)) 1 = some 3 ∧
      (s.manifest.map fun m ↦ (replay m).segmentMappingTbl.toFilePage 1) = some (some 1) :=
    exists_reach_of_exec (segmentWrites ++ [.op (.compact [])]) (by decide)
  refine ⟨s, hrun, htask, hseg, hdisk, fun hagree ↦ ?_⟩
  obtain ⟨mapper, hmapper⟩ := isSome_iff_exists.1 hmap
  obtain ⟨root, hroot, hmapper⟩ := bind_eq_some_iff.1 hmapper
  obtain ⟨m, hm, hreplay⟩ := map_eq_some_iff.1 hdisk
  have h := hagree root mapper hroot hmapper
  rw [hm] at h
  have h₁ := h.segMapping 1
  rw [hroot, bind_some] at hseg
  rw [hreplay, hseg] at h₁
  exact absurd h₁ (by decide)

end EloqStore
