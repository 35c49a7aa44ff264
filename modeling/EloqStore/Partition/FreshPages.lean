import EloqStore.Partition.PooledPages

/-!
# A file page handed out is used by no mapping

Whatever the mode, the file page that a running task's allocator hands out next is used by no
mapping that anyone can still read through (`InOrder.allocate_notMem`). In pooled mode this is one
of the accounts of `Pinned.Accounted`. In append mode the allocator only counts up, and everything
mapped lies below it: the published mapping, the mappings it replaced, and the task's own. Segments
are appended in both modes.
-/

namespace EloqStore

open List MappingTbl Option PageMapper EloqStore.Partition

/-- An append-only mapper: everything it maps lies below its allocator's maximum. -/
def PageMapper.Appends (m : PageMapper) : Prop := m.allocator.IsAppend ∧ m.Sound

/-- An operation on an append-only mapper moves its maximum up at most. -/
theorem PageMapper.Appends.step {m m' : PageMapper} (h : m.Appends) (hstep : PageMapper.Step m m') :
    m'.Appends ∧ m.allocator.maxFpId ≤ m'.allocator.maxFpId := by
  obtain ⟨hsound, hmax⟩ := h.2.step hstep
  refine ⟨⟨?_, hsound⟩, hmax⟩
  cases hstep with
  | refl => exact h.1
  | getPage => rw [getPage_allocator]; exact h.1
  | allocated page? => rw [WriteTask.allocated_allocator]; exact h.1.allocate
  | freePage page => exact h.1
  | updateStat a b => exact FilePageAllocator.isAppend_updateStat _ _ _

theorem PageMapper.appends_empty {a : FilePageAllocator} (h : a.IsAppend) :
    (PageMapper.empty a).Appends :=
  ⟨h, .empty h.poolBelow⟩

def Partition.publishedSegments (s : Partition) : Option PageMapper := s.mappers.bind (·.2)

theorem Partition.publishedSegments_eq (s : Partition) :
    s.publishedSegments = s.entry.bind (·.segmentMapper) :=
  s.bind_segmentMapper.symm

/-- A start leaves the published segment mapper as it is. -/
theorem Partition.publishedSegments_makeCowRoot {s : Partition} (opts : KvOptions)
    (h : s.entry = none → s.manifest = none) :
    (s.makeCowRoot opts).publishedSegments = s.publishedSegments := by
  obtain ⟨hmap, -⟩ := makeCowRoot_frame opts s
  rw [publishedSegments, hmap, findRoot_eq opts h, publishedSegments]
  cases s.mappers <;> rfl

theorem Partition.publishedSegments_freeMappingSnapshot (s : Partition) :
    s.freeMappingSnapshot.publishedSegments = s.publishedSegments := by
  unfold freeMappingSnapshot
  split
  · rfl
  · simp only [publishedSegments, mappers]
    cases s.entry with
    | none => rfl
    | some root => rfl

/-- The published mapper of a class. -/
def Partition.publishedOf (s : Partition) : FileClass → Option PageMapper
  | .data => s.publishedMapper
  | .segment => s.publishedSegments

/-- **The file pages of a class are appended.** -/
structure Partition.Appending (s : Partition) (c : FileClass) : Prop where
  published : ∀ m, s.publishedOf c = some m → m.Appends
  /-- A task's mapper goes on from the published one. -/
  task : ∀ t, s.task = some t → ∀ m', t.mapperOf c = some m' → m'.Appends ∧
    ∀ m, s.publishedOf c = some m → m.allocator.maxFpId ≤ m'.allocator.maxFpId
  absent : ∀ t, s.task = some t → t.mapperOf c = none → s.publishedOf c = none

theorem Partition.publishedOf_congr {s s' : Partition} (h : s'.mappers = s.mappers)
    (c : FileClass) : s'.publishedOf c = s.publishedOf c := by
  cases c with
  | data => exact congrArg (·.bind (·.1)) h
  | segment => exact congrArg (·.bind (·.2)) h

/-- A step creates a mapper, or takes one operation on it. -/
theorem Partition.MapperEffect.mapperOf {opts : KvOptions} {t t' : WriteTask}
    (h : MapperEffect opts t t') (c : FileClass) :
    t.mapperOf c = none ∧ (∀ m', t'.mapperOf c = some m' → m'.Appends) ∨
      ∃ m m', t.mapperOf c = some m ∧ t'.mapperOf c = some m' ∧ PageMapper.Step m m' := by
  cases c with
  | data => exact .inr ⟨_, _, rfl, rfl, h.data⟩
  | segment =>
    cases h.segment with
    | absent hn hn' => exact .inl ⟨hn, by simp [WriteTask.mapperOf, hn']⟩
    | create hn hn' =>
      refine .inl ⟨hn, fun m' hm' ↦ ?_⟩
      cases hn'.symm.trans hm'
      exact appends_empty ⟨0, 0, rfl⟩
    | step hm hm' hs => exact .inr ⟨_, _, hm, hm', hs⟩

namespace Pinned

/-- **File pages and segments are handed out in order.** -/
structure InOrder (opts : KvOptions) (s : Pinned) : Prop where
  loaded : s.partition.entry = none → s.partition.manifest = none
  entry : ∀ {t}, s.partition.task = some t → s.partition.entry.isSome
  stub : s.partition.publishedMapper = none → s.partition.publishedSegments = none
  pooled : opts.dataAppendMode = false → s.Accounted
  append : opts.dataAppendMode = true → s.partition.Appending .data
  /-- What the replaced mappings use lies below the allocator. -/
  tables : opts.dataAppendMode = true → ∀ tbl ∈ s.tables,
    ∃ m, s.partition.publishedMapper = some m ∧ tbl.Below m.allocator.maxFpId
  segment : s.partition.Appending .segment

theorem inOrder_fresh (opts : KvOptions) (branch : BranchName) (term : ℕ) :
    (Pinned.fresh branch term).InOrder opts where
  loaded _ := rfl
  entry := by simp [fresh, Partition.fresh]
  stub _ := rfl
  pooled _ := accounted_fresh branch term
  append _ := ⟨by simp [publishedOf, fresh, Partition.fresh, publishedMapper, mappers],
    by simp [fresh, Partition.fresh], by simp [fresh, Partition.fresh]⟩
  tables _ := by simp [fresh]
  segment := ⟨by simp [publishedOf, fresh, Partition.fresh, publishedSegments, mappers],
    by simp [fresh, Partition.fresh], by simp [fresh, Partition.fresh]⟩

variable {opts : KvOptions} {s s' : Pinned} {t : WriteTask} {e : PinEvent} {c : FileClass}

/-! ### What each event does -/

/-- **An event of a class that is appended**: it stays so, and its published maximum only grows. -/
theorem InOrder.appending (h : s.InOrder opts) (hc : s.partition.Appending c)
    (hmode : c = .data → opts.dataAppendMode = true) (hrun : e.run opts s = some s') :
    s'.partition.Appending c ∧ ∀ m, s.partition.publishedOf c = some m →
      ∃ m', s'.partition.publishedOf c = some m' ∧
        m.allocator.maxFpId ≤ m'.allocator.maxFpId := by
  cases e with
  | begin =>
    obtain ⟨-, rfl⟩ := ite_some_none_eq_some.1 hrun
    obtain ⟨t, m?, sm?, ht, hmap, hdata, hseg, -⟩ := makeCowRoot_spec opts s.partition
    have hpub : (s.partition.makeCowRoot opts).publishedOf c = s.partition.publishedOf c := by
      cases c with
      | data => exact publishedMapper_makeCowRoot opts h.loaded
      | segment => exact publishedSegments_makeCowRoot opts h.loaded
    -- the task's mapper is the published one, or there is none
    have hown : t.mapperOf c = (s.partition.makeCowRoot opts).publishedOf c ∨
        (s.partition.makeCowRoot opts).publishedOf c = none ∧
          ∃ m', t.mapperOf c = some m' ∧ m'.Appends := by
      cases c with
      | data =>
        rw [publishedOf, publishedMapper, hmap, WriteTask.mapperOf, hdata]
        cases m? with
        | some m => exact .inl rfl
        | none => exact .inr ⟨rfl, _, rfl, appends_empty ⟨0, 0, by simp [newAllocator, hmode]⟩⟩
      | segment =>
        refine .inl ?_
        rw [WriteTask.mapperOf, hseg]
        cases hm : m? with
        | some m =>
          rw [publishedOf, publishedSegments, hmap]
          rfl
        | none =>
          rw [hpub]
          refine (h.stub ?_).symm
          rw [← publishedMapper_makeCowRoot opts h.loaded, publishedMapper, hmap, hm]
          rfl
    refine ⟨⟨fun m hm ↦ hc.published m (hpub ▸ hm), fun t₁ ht₁ m' hm' ↦ ?_,
      fun t₁ ht₁ hn ↦ ?_⟩, fun m hm ↦ ⟨m, hpub.trans hm, le_rfl⟩⟩
    · cases ht.symm.trans ht₁
      rcases hown with heq | ⟨hnone, m₁, hm₁, happ⟩
      · have hm : (s.partition.makeCowRoot opts).publishedOf c = some m' := heq.symm.trans hm'
        refine ⟨hc.published m' (hpub ▸ hm), fun m₁ hm₁ ↦ ?_⟩
        cases hm.symm.trans hm₁
        exact le_rfl
      · cases hm₁.symm.trans hm'
        exact ⟨happ, by simp [hnone]⟩
    · cases ht.symm.trans ht₁
      rcases hown with heq | ⟨hnone, -⟩
      · exact heq.symm.trans hn
      · exact hnone
  | step a =>
    obtain ⟨-, p', hstep, rfl⟩ := PinEvent.step_ok hrun
    obtain ⟨hmap, -⟩ := taskStep_frame hstep
    obtain ⟨t, ht, -⟩ := taskStep_ok hstep
    obtain ⟨t', ht', heff⟩ := taskStep_effect ht hstep
    have hpub := publishedOf_congr hmap c
    refine ⟨⟨fun m hm ↦ hc.published m (hpub ▸ hm), fun t₁ ht₁ m' hm' ↦ ?_,
      fun t₁ ht₁ hn ↦ ?_⟩, fun m hm ↦ ⟨m, hpub.trans hm, le_rfl⟩⟩
    · cases ht'.symm.trans ht₁
      rw [show ({ s with partition := p' } : Pinned).partition.publishedOf c = _ from hpub]
      rcases heff.mapperOf c with ⟨hn, happ⟩ | ⟨m₀, m₁, hm₀, hm₁, hs⟩
      · exact ⟨happ m' hm', by simp [hc.absent t ht hn]⟩
      · cases hm₁.symm.trans hm'
        obtain ⟨happ, hmax⟩ := hc.task t ht m₀ hm₀
        obtain ⟨happ', hle⟩ := happ.step hs
        exact ⟨happ', fun m hm ↦ (hmax m hm).trans hle⟩
    · cases ht'.symm.trans ht₁
      rcases heff.mapperOf c with ⟨hn', -⟩ | ⟨m₀, m₁, -, hm₁, -⟩
      · exact hpub.trans (hc.absent t ht hn')
      · cases hm₁.symm.trans hn
  | commit =>
    obtain ⟨p', hcommit, rfl⟩ := map_eq_some_iff.1 hrun
    obtain ⟨t, ht, -, rfl⟩ := commit_ok (Transition.ok_of_toOption hcommit)
    obtain ⟨m?, sm?, hmap⟩ := exists_mappers (h.entry ht)
    have hframe := updateMeta_spec opts ht hmap
    have hpub : (s.partition.updateMeta opts t).publishedOf c = t.mapperOf c := by
      cases c with
      | data =>
        rw [publishedOf, publishedMapper, hframe.mappers]
        rfl
      | segment =>
        rw [publishedOf, publishedSegments, hframe.mappers]
        show t.cow.segmentMapper.or sm? = t.cow.segmentMapper
        cases hown : t.cow.segmentMapper with
        | some m => rfl
        | none =>
          have hnone := hc.absent t ht hown
          rwa [publishedOf, publishedSegments, hmap] at hnone
    refine ⟨⟨fun m hm ↦ (hc.task t ht m (hpub.symm.trans hm)).1, by simp [hframe.idle],
      by simp [hframe.idle]⟩, fun m hm ↦ ?_⟩
    cases hm' : t.mapperOf c with
    | none => cases (hc.absent t ht hm').symm.trans hm
    | some m' => exact ⟨m', hpub.trans hm', (hc.task t ht m' hm').2 m hm⟩
  | abort =>
    obtain ⟨-, ⟨⟩⟩ := ite_none_left_eq_some.1 hrun
    exact ⟨⟨hc.published, by simp [abort], by simp [abort]⟩, fun m hm ↦ ⟨m, hm, le_rfl⟩⟩
  | release =>
    obtain ⟨fps, rest, hpend, rfl⟩ := PinEvent.release_ok hrun
    have htask : s.partition.freeMappingSnapshot.task = s.partition.task := by
      simp [freeMappingSnapshot, hpend]
    have hpub : s.partition.freeMappingSnapshot.publishedOf c = s.partition.publishedOf c := by
      cases c with
      | data =>
        rw [publishedOf, publishedMapper_freeMappingSnapshot hpend, publishedOf]
        cases hm : s.partition.publishedMapper with
        | none => rfl
        | some m =>
          obtain ⟨a, b, hk⟩ := (hc.published m hm).1
          simp [freeToPool, hk]
      | segment => exact publishedSegments_freeMappingSnapshot s.partition
    refine ⟨⟨fun m hm ↦ hc.published m (hpub ▸ hm), fun t ht m' hm' ↦ ?_, fun t ht hn ↦ ?_⟩,
      fun m hm ↦ ⟨m, hpub.trans hm, le_rfl⟩⟩
    · rw [hpub]
      exact hc.task t (htask ▸ ht) m' hm'
    · exact hpub.trans (hc.absent t (htask ▸ ht) hn)

/-- An event leaves a root that is loaded, in the cache while a task runs. -/
theorem InOrder.root (h : s.InOrder opts) (hrun : e.run opts s = some s') :
    (s'.partition.entry = none → s'.partition.manifest = none) ∧
      (s'.partition.task ≠ none → s'.partition.entry.isSome) ∧
      (s'.partition.publishedMapper = none → s'.partition.publishedSegments = none) ∧
      ∀ tbl ∈ s'.tables, tbl ∈ s.tables ∨
        tbl = (s.partition.publishedMapper.map (·.tbl)).getD [] ∧
          s'.partition.publishedMapper ≠ none := by
  cases e with
  | begin =>
    obtain ⟨-, rfl⟩ := ite_some_none_eq_some.1 hrun
    obtain ⟨t, m?, sm?, ht, hmap, -⟩ := makeCowRoot_spec opts s.partition
    have hentry : (s.partition.makeCowRoot opts).entry.isSome := isSome_entry hmap
    refine ⟨fun hnone ↦ absurd hnone (isSome_iff_ne_none.1 hentry), fun _ ↦ hentry, fun hnone ↦ ?_,
      fun _ ↦ .inl⟩
    rw [publishedSegments_makeCowRoot opts h.loaded]
    exact h.stub (publishedMapper_makeCowRoot opts h.loaded ▸ hnone)
  | step a =>
    obtain ⟨-, p', hstep, rfl⟩ := PinEvent.step_ok hrun
    obtain ⟨hmap, -⟩ := taskStep_frame hstep
    obtain ⟨t, ht, -⟩ := taskStep_ok hstep
    have hentry : p'.entry.isSome := by
      rw [← isSome_mappers, hmap, isSome_mappers]
      exact h.entry ht
    refine ⟨fun hnone ↦ absurd hnone (isSome_iff_ne_none.1 hentry), fun _ ↦ hentry, fun hnone ↦ ?_,
      fun _ ↦ .inl⟩
    rw [show ({ s with partition := p' } : Pinned).partition.publishedSegments = _ from
      publishedOf_congr hmap .segment]
    exact h.stub ((publishedOf_congr hmap .data).symm.trans hnone)
  | commit =>
    obtain ⟨p', hcommit, rfl⟩ := map_eq_some_iff.1 hrun
    obtain ⟨t, ht, -, rfl⟩ := commit_ok (Transition.ok_of_toOption hcommit)
    obtain ⟨m?, sm?, hmap⟩ := exists_mappers (h.entry ht)
    have hframe := updateMeta_spec opts ht hmap
    have hentry : (s.partition.updateMeta opts t).entry.isSome := isSome_entry hframe.mappers
    have hpub : (s.partition.updateMeta opts t).publishedMapper ≠ none := by
      simp [publishedMapper, hframe.mappers]
    exact ⟨fun hnone ↦ absurd hnone (isSome_iff_ne_none.1 hentry), fun _ ↦ hentry,
      fun hnone ↦ absurd hnone hpub, fun tbl htbl ↦ (mem_append.1 htbl).imp id fun htbl ↦
        ⟨mem_singleton.1 htbl, hpub⟩⟩
  | abort =>
    obtain ⟨-, ⟨⟩⟩ := ite_none_left_eq_some.1 hrun
    exact ⟨h.loaded, by simp [abort], h.stub, fun _ ↦ .inl⟩
  | release =>
    obtain ⟨fps, rest, hpend, rfl⟩ := PinEvent.release_ok hrun
    have hentry : s.partition.freeMappingSnapshot.entry.isSome = s.partition.entry.isSome := by
      simp [freeMappingSnapshot, hpend]
    refine ⟨fun hnone ↦ ?_, fun hne ↦ ?_, fun hnone ↦ ?_, fun _ ↦ .inl ∘ mem_of_mem_tail⟩
    · rw [show s.partition.freeMappingSnapshot.entry = none from hnone] at hentry
      have hman : s.partition.freeMappingSnapshot.manifest = s.partition.manifest := by
        simp [freeMappingSnapshot, hpend]
      exact hman.trans (h.loaded (by simpa using hentry.symm))
    · have htask : s.partition.task ≠ none := by simpa [freeMappingSnapshot, hpend] using hne
      obtain ⟨t, ht⟩ := ne_none_iff_exists'.1 htask
      exact hentry.trans (h.entry ht)
    · rw [publishedMapper_freeMappingSnapshot hpend, map_eq_none_iff] at hnone
      exact (publishedSegments_freeMappingSnapshot s.partition).trans (h.stub hnone)

/-- **An event keeps file pages and segments in order.** -/
theorem InOrder.event (h : s.InOrder opts) (hsmall : SmallTables s e)
    (hrun : e.run opts s = some s') : s'.InOrder opts := by
  obtain ⟨hloaded, hentry, hstub, htables⟩ := h.root hrun
  refine ⟨hloaded, fun ht ↦ hentry (by simp [ht]), hstub,
    fun hpool ↦ (h.pooled hpool).event hpool hsmall hrun,
    fun happ ↦ (h.appending (h.append happ) (fun _ ↦ happ) hrun).1, fun happ tbl htbl ↦ ?_,
    (h.appending h.segment (by simp) hrun).1⟩
  obtain ⟨-, hgrows⟩ := h.appending (h.append happ) (fun _ ↦ happ) hrun
  rcases htables tbl htbl with htbl | ⟨rfl, hne⟩
  · obtain ⟨m, hm, hbelow⟩ := h.tables happ tbl htbl
    obtain ⟨m', hm', hle⟩ := hgrows m hm
    exact ⟨m', hm', hbelow.mono hle⟩
  · -- the mapping that is replaced
    cases hm : s.partition.publishedMapper with
    | none =>
      obtain ⟨m', hm'⟩ := ne_none_iff_exists'.1 hne
      exact ⟨m', hm', below_nil _⟩
    | some m =>
      obtain ⟨m', hm', hle⟩ := hgrows m hm
      exact ⟨m', hm', Below.mono ((h.append happ).published m hm).2.below hle⟩

/-- While a task runs, the manifest file plays no role. -/
theorem InOrder.setManifest (h : s.InOrder opts) (ht : s.partition.task = some t)
    (m? : Option Manifest) :
    ({ s with partition := { s.partition with manifest := m? } } : Pinned).InOrder opts :=
  have hloaded : s.partition.entry = none → m? = none :=
    fun hnone ↦ absurd hnone (isSome_iff_ne_none.1 (h.entry ht))
  { h with
    loaded := hloaded
    pooled := fun hpool ↦
      { h.pooled hpool with
        loaded := hloaded
        task := fun t₁ ht₁ ↦ { (h.pooled hpool).task t₁ ht₁ with } }
    append := fun happ ↦ { h.append happ with }
    segment := { h.segment with } }

/-- In append mode, everything mapped lies below what the task allocates next. -/
theorem InOrder.mapped_lt (h : s.InOrder opts) (happ : opts.dataAppendMode = true)
    (ht : s.partition.task = some t) {fp : ℕ} (hmem : fp ∈ s.mappedPages) :
    fp < t.cow.mapper.allocator.maxFpId := by
  obtain ⟨happends, hmax⟩ := (h.append happ).task t ht _ rfl
  obtain ⟨tbl, htbl, page, hpage⟩ := mem_mappedPages.1 hmem
  have hbelow : tbl.Below t.cow.mapper.allocator.maxFpId := by
    rcases mem_append.1 htbl with htbl | htbl
    · rcases mem_append.1 htbl with htbl | htbl
      · obtain ⟨m, hm, hb⟩ := h.tables happ tbl htbl
        exact hb.mono (hmax m hm)
      · obtain ⟨m, hm, rfl⟩ := map_eq_some_iff.1 (mem_toList.1 htbl)
        exact Below.mono ((h.append happ).published m hm).2.below (hmax m hm)
    · rw [ht] at htbl
      rw [mem_singleton.1 htbl]
      exact happends.2.below
  exact hbelow page fp hpage

/-- **The file page a task is handed next is used by no mapping.** -/
theorem InOrder.allocate_notMem (h : s.InOrder opts) (ht : s.partition.task = some t) :
    t.cow.mapper.allocator.allocate.1 ∉ s.mappedPages := by
  cases happ : opts.dataAppendMode with
  | false => exact (h.pooled happ).allocate_notMem ht
  | true =>
    rw [((h.append happ).task t ht _ rfl).1.1.allocate_eq]
    exact fun hmem ↦ lt_irrefl _ (h.mapped_lt happ ht hmem)

end Pinned

end EloqStore
