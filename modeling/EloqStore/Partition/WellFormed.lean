import EloqStore.Partition.ManifestAgreement

/-!
# Well-formed partitions

What holds of a partition whatever has happened to it: every file page that is mapped, pooled or
waiting to be pooled lies below its allocator's maximum, in memory and on disk. Unlike agreement
with the manifest this needs no condition on the operations; aborted tasks and commits that write
nothing keep it too (`wellFormed_of_run`).
-/

namespace EloqStore

open Option EloqStore.Partition RootMeta

/-- **A well-formed partition.** -/
structure Partition.WellFormed (opts : KvOptions) (s : Partition) : Prop where
  durable : (durable s.manifest).Sound
  published : ∀ m sm?, s.mappers = some (some m, sm?) → m.Sound ∧ (∀ sm, sm? = some sm → sm.Sound) ∧
    ∀ fps ∈ s.pendingFree, ∀ q ∈ fps, q < m.allocator.maxFpId
  /-- A stub stands for a partition that does not exist. -/
  stub : ∀ sm?, s.mappers = some (none, sm?) → sm? = none ∧ s.pendingFree = []
  /-- An entry that is not cached pins nothing. -/
  unloaded : s.mappers = none → s.pendingFree = []
  task : ∀ t, s.task = some t → TaskSound s t
  /-- The published data mapper has files of the configured size. -/
  shift : ∀ m sm?, s.mappers = some (some m, sm?) → m.allocator.shift = opts.pagesPerFileShift
  taskShift : ∀ t, s.task = some t → t.cow.mapper.allocator.shift = opts.pagesPerFileShift

namespace Partition.WellFormed

variable {opts : KvOptions} {s s' : Partition} {t : WriteTask}

variable (h : s.WellFormed opts)

include h

/-- What the published state has, the state without its task has. -/
theorem abort : s.abort.WellFormed opts :=
  ⟨h.durable, h.published, h.stub, h.unloaded, by simp [Partition.abort],
    h.shift, by simp [Partition.abort]⟩

theorem findRoot (hidle : s.task = none) :
    (s.findRoot opts).WellFormed opts := by
  unfold Partition.findRoot
  split
  · exact h
  · next hentry =>
    split
    · exact h
    · next m hm =>
      have hnone : s.mappers = none := by rw [mappers, hentry]; rfl
      have hsound : (replay m).Sound := by
        have := h.durable
        rwa [hm] at this
      refine ⟨h.durable, fun mapper sm? hmap ↦ ?_, fun sm? hmap ↦ ?_, fun hmap ↦ ?_, fun t ht ↦ ?_,
        fun mapper sm? hmap ↦ ?_, fun t ht ↦ ?_⟩
      · simp only [mappers, loadMeta, ofReplayer, map_some,
          some.injEq, Prod.mk.injEq] at hmap
        obtain ⟨rfl, rfl⟩ := hmap
        refine ⟨hsound.getMapper opts _, fun sm hsm ↦ hsound.getSegmentMapper opts _ hsm, ?_⟩
        intro fps hfps
        simp [loadMeta, h.unloaded hnone] at hfps
      · simp [mappers, loadMeta, ofReplayer] at hmap
      · simp [mappers, loadMeta] at hmap
      · simp [loadMeta, hidle] at ht
      · simp only [mappers, loadMeta, ofReplayer, map_some,
          some.injEq, Prod.mk.injEq] at hmap
        rw [← hmap.1, Replayer.getMapper_shift]
      · simp [loadMeta, hidle] at ht

theorem makeCowRoot (hidle : s.task = none) :
    (s.makeCowRoot opts).WellFormed opts := by
  have h' := h.findRoot hidle
  obtain ⟨hmap, -, hman, hpend, -, htask⟩ := makeCowRoot_frame opts s
  obtain ⟨t, m?, sm?, ht, hm, hcow, hseg, -⟩ := makeCowRoot_spec opts s
  have hpend' : (s.findRoot opts).pendingFree = s.pendingFree := by
    unfold Partition.findRoot
    split
    · rfl
    · split <;> rfl
  -- either the entry was there or could be loaded, or it is a new stub
  have hcases : (s.findRoot opts).mappers = some (m?, sm?) ∨
      ((s.findRoot opts).mappers = none ∧ m? = none ∧ sm? = none) := by
    cases hf : (s.findRoot opts).mappers with
    | some p => exact .inl (by rw [← hm, hmap, hf]; rfl)
    | none =>
      rw [hmap, hf, none_or, some.injEq, Prod.mk.injEq] at hm
      exact .inr ⟨rfl, hm.1.symm, hm.2.symm⟩
  have hpublished : ∀ m, m? = some m → m.Sound ∧ (∀ sm, sm? = some sm → sm.Sound) ∧
      ∀ fps ∈ s.pendingFree, ∀ q ∈ fps, q < m.allocator.maxFpId := by
    rintro m rfl
    rcases hcases with hf | ⟨-, hn, -⟩
    · exact hpend' ▸ h'.published m sm? hf
    · cases hn
  have hshift : ∀ m, m? = some m → m.allocator.shift = opts.pagesPerFileShift := by
    rintro m rfl
    rcases hcases with hf | ⟨-, hn, -⟩
    · exact h'.shift m sm? hf
    · cases hn
  have hstub : m? = none → sm? = none ∧ s.pendingFree = [] := by
    rintro rfl
    rcases hcases with hf | ⟨hf, -, rfl⟩
    · exact hpend' ▸ h'.stub sm? hf
    · exact ⟨rfl, hpend' ▸ h'.unloaded hf⟩
  have hempty : (PageMapper.empty (newAllocator opts)).Sound := by
    refine .empty fun ids hids fp hfp ↦ ?_
    simp only [newAllocator] at hids
    split at hids
    · cases hids
    · rw [← AllocatorKind.pooled.inj hids] at hfp
      cases hfp
  refine ⟨hman ▸ h.durable, fun m sm' hm' ↦ ?_, fun sm' hm' ↦ ?_, fun hn ↦ ?_, fun t' ht' ↦ ?_,
    fun m sm' hm' ↦ ?_, fun t' ht' ↦ ?_⟩
  · rw [hm, some.injEq, Prod.mk.injEq] at hm'
    obtain ⟨rfl, rfl⟩ := hm'
    exact hpend ▸ hpublished m rfl
  · rw [hm, some.injEq, Prod.mk.injEq] at hm'
    obtain ⟨rfl, rfl⟩ := hm'
    exact hpend ▸ hstub rfl
  · simp [hm] at hn
  · cases ht.symm.trans ht'
    refine ⟨?_, fun sm hsm ↦ ?_, ?_, fun fps hfps q hq ↦ ?_, ?_, fun hn ↦ ?_⟩
    · rw [hcow]
      cases m? with
      | none => exact hempty
      | some m => exact (hpublished m rfl).1
    · rw [hseg] at hsm
      cases m? with
      | none => cases hsm
      | some m => exact (hpublished m rfl).2.1 sm hsm
    · rw [(htask t ht).1]
      simp
    · rw [hpend] at hfps
      cases m? with
      | none => simp [(hstub rfl).2] at hfps
      | some m => exact hcow ▸ (hpublished m rfl).2.2 fps hfps q hq
    · exact isSome_entry hm
    · rw [bind_segmentMapper, hm, bind_some]
      cases m? with
      | none => exact (hstub rfl).1
      | some m =>
        rw [hseg] at hn
        exact hn
  · rw [hm, some.injEq, Prod.mk.injEq] at hm'
    exact hshift m hm'.1
  · cases ht.symm.trans ht'
    rw [hcow]
    cases m? with
    | none => rfl
    | some m => exact hshift m rfl

/-- **A step of a task keeps the partition well formed.** -/
theorem taskStep {a : TaskStep} (hstep : s.taskStep opts a = .ok s') :
    s'.WellFormed opts := by
  obtain ⟨t, ht, -⟩ := taskStep_ok hstep
  obtain ⟨hmap, hman, hpend, -⟩ := taskStep_frame hstep
  obtain ⟨t', ht', hsound⟩ := (h.task t ht).step ht hstep
  obtain ⟨t'', ht'', heff⟩ := taskStep_effect ht hstep
  cases ht'.symm.trans ht''
  refine ⟨hman ▸ h.durable, ?_, ?_, ?_, fun t₁ ht₁ ↦ ?_, ?_, fun t₁ ht₁ ↦ ?_⟩
  · rw [hmap, hpend]
    exact h.published
  · rw [hmap, hpend]
    exact h.stub
  · rw [hmap, hpend]
    exact h.unloaded
  · cases ht'.symm.trans ht₁
    exact hsound
  · rw [hmap]
    exact h.shift
  · cases ht'.symm.trans ht₁
    exact heff.data.shift_eq.trans (h.taskShift t ht)

theorem taskSteps {as : List TaskStep} (hsteps : s.taskSteps opts as = .ok s') :
    s'.WellFormed opts :=
  taskSteps_induction h hsteps fun _ h hs ↦ h.taskStep hs

/-- What a flush leaves on disk is sound, whether it appends, rewrites or writes nothing. -/
theorem durable_flushManifest (ht : s.task = some t) :
    (EloqStore.durable (s.flushManifest opts t).manifest).Sound := by
  obtain ⟨t', -, hswitch⟩ := Synced.of_switch (h.task t ht)
  unfold flushManifest
  split
  · exact h.durable
  · split
    · exact hswitch.inv.durableSound
    · split
      · have hd := h.durable
        unfold appendManifest
        cases hm : s.manifest with
        | none =>
          rw [hm] at hd
          exact hd
        | some m =>
          rw [hm] at hd
          simp only [map_some]
          rw [EloqStore.durable, replay_append]
          exact Replayer.Sound.replayLog hd _
      · exact hswitch.inv.durableSound

/-- **A commit keeps the partition well formed**, whether or not it writes the manifest. -/
theorem updateMeta (ht : s.task = some t) :
    (s.updateMeta opts t).WellFormed opts := by
  have hsound := h.task t ht
  have hsome : s.mappers.isSome := by
    rw [isSome_mappers]
    exact hsound.entry
  obtain ⟨⟨m?, sm?⟩, hm⟩ := isSome_iff_exists.1 hsome
  have hc := updateMeta_spec opts ht hm
  have hmap := hc.mappers
  rw [hsound.or_segmentMapper hm] at hmap
  refine ⟨hc.manifest ▸ h.durable_flushManifest ht, fun m sm' hm' ↦ ?_, fun sm' hm' ↦ ?_,
    fun hn ↦ ?_, fun t' ht' ↦ ?_, fun m sm' hm' ↦ ?_, fun t' ht' ↦ ?_⟩
  · rw [hmap, some.injEq, Prod.mk.injEq, some.injEq] at hm'
    obtain ⟨rfl, rfl⟩ := hm'
    refine ⟨hsound.sound, hsound.segSound, fun fps hfps q hq ↦ ?_⟩
    rw [hc.pending] at hfps
    split at hfps
    · exact hsound.pending fps hfps q hq
    · rcases List.mem_append.1 hfps with hfps | hfps
      · exact hsound.pending fps hfps q hq
      · rw [List.mem_singleton.1 hfps] at hq
        exact hsound.freed q hq
  · simp [hmap] at hm'
  · simp [hmap] at hn
  · simp [hc.idle] at ht'
  · rw [hmap, some.injEq, Prod.mk.injEq, some.injEq] at hm'
    exact hm'.1 ▸ h.taskShift t ht
  · simp [hc.idle] at ht'

/-- Releasing the oldest replaced mapping keeps the partition well formed: only the pool grows. -/
theorem freeMappingSnapshot : s.freeMappingSnapshot.WellFormed opts := by
  unfold Partition.freeMappingSnapshot
  split
  · exact h
  · next fps rest hpend =>
    have hmem : ∀ fps' ∈ rest, fps' ∈ s.pendingFree := fun fps' hfps ↦ by simp [hpend, hfps]
    -- what the entry held before, from what it holds now
    have hold : ∀ m? sm?, s.freeMappingSnapshot.mappers = some (m?, sm?) →
        ∃ m₀?, s.mappers = some (m₀?, sm?) ∧ m? = m₀?.map fun m ↦
          { m with allocator := Partition.freeToPool m.allocator fps } := by
      intro m? sm? hm
      simp only [Partition.freeMappingSnapshot, hpend, Partition.mappers, Option.map_map] at hm
      obtain ⟨root, hroot, heq⟩ := Option.map_eq_some_iff.1 hm
      obtain ⟨rfl, rfl⟩ := Prod.mk.inj heq
      exact ⟨root.mapper, by simp [Partition.mappers, hroot], rfl⟩
    simp only [Partition.freeMappingSnapshot, hpend] at hold
    refine ⟨h.durable, fun m sm? hm ↦ ?_, fun sm? hm ↦ ?_, fun hn ↦ ?_, fun t ht ↦ ?_,
      fun m sm? hm ↦ ?_, h.taskShift⟩
    · obtain ⟨m₀?, hm₀, heq⟩ := hold _ _ hm
      obtain ⟨m₀, rfl, rfl⟩ := Option.map_eq_some_iff.1 heq.symm
      obtain ⟨hsound, hseg, hpool⟩ := h.published m₀ sm? hm₀
      refine ⟨hsound.freeToPool (hpool fps (by simp [hpend])), hseg, fun fps' hfps q hq ↦ ?_⟩
      rw [PageMapper.Sound.freeToPool_maxFpId]
      exact hpool fps' (hmem fps' hfps) q hq
    · obtain ⟨m₀?, hm₀, heq⟩ := hold _ _ hm
      obtain rfl : m₀? = none := by simpa using heq.symm
      exact absurd (h.stub sm? hm₀).2 (by simp [hpend])
    · have hnone : s.mappers = none := by simpa [Partition.mappers] using hn
      exact absurd (h.unloaded hnone) (by simp [hpend])
    · have hsound := (h.task t ht).freeMappingSnapshot
      rwa [Partition.freeMappingSnapshot, hpend] at hsound
    · obtain ⟨m₀?, hm₀, heq⟩ := hold _ _ hm
      obtain ⟨m₀, rfl, rfl⟩ := Option.map_eq_some_iff.1 heq.symm
      rw [PageMapper.Sound.freeToPool_shift]
      exact h.shift m₀ sm? hm₀

end Partition.WellFormed

/-! ### Runs -/

/-- What can happen to a partition: a task starts, takes steps and commits or aborts, readers
release replaced mappings, and an entry nobody uses is evicted. -/
inductive PartitionEvent
  | begin
  | step (a : TaskStep)
  | commit
  | abort
  | release
  | evict
deriving DecidableEq, Repr

/-- One event. A partition has one task at a time. -/
def PartitionEvent.run (opts : KvOptions) (s : Partition) : PartitionEvent → Option Partition
  | .begin => if s.task = none then some (s.makeCowRoot opts) else none
  | .step a => (s.taskStep opts a).toOption
  | .commit => (s.commit opts).toOption
  | .abort => if s.task = none then none else some s.abort
  | .release => some s.freeMappingSnapshot
  -- the file ranges stay in memory
  | .evict => if s.task = none ∧ s.pendingFree = [] then some { s with entry := none } else none

abbrev Histories (opts : KvOptions) : Partition → Partition → Prop :=
  Transition.Reach (fun s e s' ↦ PartitionEvent.run opts s e = some s') fun _ _ ↦ True

variable {opts : KvOptions}

theorem Partition.Unloaded.wellFormed {s : Partition} (h : s.Unloaded) : s.WellFormed opts := by
  obtain ⟨htask, hentry, hpend, hsound⟩ := h
  have hnone : s.mappers = none := by rw [mappers, hentry]; rfl
  exact ⟨hsound, by simp [hnone], by simp [hnone], fun _ ↦ hpend, by simp [htask],
    by simp [hnone], by simp [htask]⟩

theorem Partition.WellFormed.event {s s' : Partition} {e : PartitionEvent} (h : s.WellFormed opts)
    (hrun : e.run opts s = some s') : s'.WellFormed opts := by
  cases e with
  | begin =>
    obtain ⟨hidle, rfl⟩ : s.task = none ∧ s.makeCowRoot opts = s' := by
      simpa [PartitionEvent.run] using hrun
    exact h.makeCowRoot hidle
  | step a =>
    exact h.taskStep (Transition.ok_of_toOption hrun)
  | commit =>
    have hcommit : s.commit opts = .ok s' := Transition.ok_of_toOption hrun
    obtain ⟨t, ht, -, rfl⟩ := commit_ok hcommit
    exact h.updateMeta ht
  | abort =>
    obtain ⟨-, rfl⟩ : s.task ≠ none ∧ s.abort = s' := by simpa [PartitionEvent.run] using hrun
    exact h.abort
  | release =>
    obtain rfl : s.freeMappingSnapshot = s' := by simpa [PartitionEvent.run] using hrun
    exact h.freeMappingSnapshot
  | evict =>
    obtain ⟨⟨hidle, hpend⟩, rfl⟩ : (s.task = none ∧ s.pendingFree = []) ∧
        { s with entry := none } = s' := by simpa [PartitionEvent.run] using hrun
    exact ⟨h.durable, by simp [mappers], by simp [mappers], fun _ ↦ hpend,
      by simp [hidle], by simp [mappers], h.taskShift⟩

/-- **Every partition is well formed**, whatever its tasks have done and however they ended. -/
theorem wellFormed_of_run {s₀ s : Partition} (h₀ : s₀.Unloaded)
    (hrun : Histories opts s₀ s) : s.WellFormed opts :=
  hrun.invariant (WellFormed opts) h₀.wellFormed fun h _ hstep ↦ h.event hstep

end EloqStore
