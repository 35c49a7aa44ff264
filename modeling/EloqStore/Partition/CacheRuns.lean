import EloqStore.Partition.CacheCoherence

/-!
# A partition stays coherent under a running task

The events of a write task, from its first step to its commit or abort, keep the partition coherent:
a page write goes to a file page that no mapping uses, and its cached page is behind no pointer
until the write has completed. With the events of the page cache this gives the step lemma
`Coherent.event`, and for runs `coherent_of_runs`.
-/

namespace EloqStore

open Function List Option EloqStore.Partition PinEvent WriteTask

open Swizzling (Slot Status)

namespace CachedPartition

variable {opts : KvOptions} {s s' : CachedPartition} {k page fp a : ℕ} {t : WriteTask}

/-! ### Steps of the task -/

/-- The state of the task is seen through its mapping only. -/
theorem Coherent.congr (h : s.Coherent opts) (hpinned : s'.pinned = s.pinned)
    (hcache : s'.cache = s.cache) (hgen : s'.gen = s.gen) (hphase : s'.phase = s.phase)
    (hwrites : s'.writes = s.writes) : s'.Coherent opts := by
  obtain ⟨pinned, cache, gen, phase, writes, failed, segments⟩ := s'
  subst hpinned hcache hgen hphase hwrites
  exact
    { h with
      dataWrites := fun w hw hcls ↦
        have hok := h.dataWrites w hw hcls
        hok.frame rfl rfl (fun _ hk ↦ ⟨hk, rfl⟩) hok.bare fun a ha ↦ ⟨rfl, (hok.cached a ha).2⟩ }

theorem Coherent.exists_task (h : s.Coherent opts) (hphase : s.phase = .registered) :
    ∃ t, s.part.task = some t := by
  refine ne_none_iff_exists'.1 fun hnone ↦ ?_
  cases hphase.symm.trans (h.idle.1 hnone)

variable {p : Pinned} {w : PageWrite}

/-- **A step that changes one page of the task's mapping at most**, and makes it use no file page
that is in use. -/
theorem Coherent.setOwn (h : s.Coherent opts) (hphase : s.phase = .registered)
    (horder : p.InOrder opts) (htab : p.tables = s.pinned.tables)
    (hpub : p.partition.publishedMapper = s.part.publishedMapper)
    (hseg : p.partition.publishedSegments = s.part.publishedSegments)
    (htask : p.partition.task ≠ none) {page? : Option ℕ}
    (hown : ∀ q, page? ≠ some q →
      ({ s with pinned := p } : CachedPartition).filePage (s.gen + 1) q =
      s.filePage (s.gen + 1) q)
    (hfresh : ∀ q f, page? = some q →
      ({ s with pinned := p } : CachedPartition).filePage (s.gen + 1) q = some f →
      f ∉ s.pinned.mappedPages) (hnew : ∀ q, page? = some q → q ∉ s.writing) :
    ({ s with pinned := p, cache := s.setOwn page? } : CachedPartition).Coherent opts := by
  obtain ⟨t, ht⟩ := h.exists_task hphase
  have hpublic : ∀ k, ({ s with pinned := p } : CachedPartition).isPublic k = s.isPublic k :=
    fun k ↦ isPublic_congr rfl (congrArg length htab)
  have hreg : ∀ k, ({ s with pinned := p } : CachedPartition).isRegistered k = s.isRegistered k :=
    fun k ↦ by simp only [isRegistered, hpublic]
  have hT : ∀ k, k ≠ s.gen + 1 →
      ({ s with pinned := p } : CachedPartition).filePage k = s.filePage k := fun k hk ↦
    filePage_congr rfl htab hpub hk
  have hcache : Swizzling.Coherent ({ s with pinned := p } : CachedPartition).filePage
      (fun k ↦ s.isRegistered k = true) (s.setOwn page?) := by
    cases page? with
    | none =>
      refine h.cache.mono (fun _ hk ↦ hk) fun k _ ↦ ?_
      by_cases hk : k = s.gen + 1
      · rw [hk]
        exact funext fun q ↦ hown q (by simp)
      · exact hT k hk
    | some page =>
      refine h.cache.setSlot fun k q hne ↦ ?_
      by_cases hk : k = s.gen + 1
      · rw [hk]
        refine hown q fun heq ↦ ?_
        rcases hne with hne | hne
        · exact hne hk
        · exact hne (some.inj heq).symm
      · exact congrFun (hT k hk) q
  have hpages : (s.setOwn page?).pages = s.cache.pages ∧
      (s.setOwn page?).loads = s.cache.loads := by
    cases page? <;> exact ⟨rfl, rfl⟩
  refine
    { order := horder
      held := by
        rw [htab]
        exact h.held
      cache := hcache.mono (fun k hk ↦ hreg k ▸ hk) fun _ _ ↦ rfl
      loads := fun x hx ↦ (hreg x.2).trans (h.loads x (hpages.2 ▸ hx))
      idle := ⟨fun hnone ↦ absurd hnone htask, fun heq ↦ absurd (hphase.symm.trans heq) (by simp)⟩
      copy := absurd hphase
      converted := fun _ _ _ heq ↦ absurd (hphase.symm.trans heq) (by simp)
      copied := fun heq ↦ absurd (hphase.symm.trans heq) (by simp)
      writing := fun _ ↦ hphase
      dataWrites := fun w hw hcls ↦ ?_
      segmentWrites := fun w hw hcls m hm ↦ h.segmentWrites w hw hcls m (hseg.symm.trans hm)
      apart := h.apart }
  have hok := h.dataWrites w hw hcls
  have hne : page? ≠ some w.page := fun heq ↦ hnew w.page heq (mem_writing hw hcls)
  exact
    { own := (hown w.page hne).trans hok.own
      bare := by
        cases page? with
        | none => exact hok.bare
        | some page =>
          have hpage : w.page ≠ page := fun heq ↦ hne (by rw [heq])
          show update s.cache.slots (s.gen + 1) _ (s.gen + 1) w.page = none
          rw [update_self, update_of_ne hpage]
          exact hok.bare
      only := fun q hq ↦ by
        by_cases hqp : page? = some q
        · exact absurd (mem_mappedPages_of_own ht hok.own) (hfresh q w.fp hqp hq)
        · exact hok.only q ((hown q hqp).symm.trans hq)
      unused := fun k hk q hq ↦ by
        have hk' : s.isPublic k = true := (hpublic k).symm.trans hk
        exact hok.unused k hk' q ((congrFun (hT k (ne_own hk')) q).symm.trans hq)
      cached := fun a ha ↦ by
        rw [hpages.1, hpages.2]
        exact hok.cached a ha }

theorem published_step {b : TaskStep} (hrun : (step b).run opts s.pinned = some p) :
    p.tables = s.pinned.tables ∧ p.partition.publishedMapper = s.part.publishedMapper ∧
      p.partition.publishedSegments = s.part.publishedSegments ∧ p.partition.task ≠ none := by
  obtain ⟨-, p', hstep, rfl⟩ := step_ok hrun
  obtain ⟨hmap, -⟩ := taskStep_frame hstep
  obtain ⟨t, ht, -⟩ := taskStep_ok hstep
  obtain ⟨t', ht', -⟩ := taskStep_effect ht hstep
  refine ⟨rfl, congrArg (·.bind (·.1)) hmap, congrArg (·.bind (·.2)) hmap, ?_⟩
  exact ne_none_iff_exists'.2 ⟨t', ht'⟩

theorem bookkeeping_toFilePage {s₁ s₂ : Partition} {b : TaskStep} (ht : s₁.task = some t)
    (hstep : s₁.taskStep opts b = .ok s₂) (hb : b.isBookkeeping = true) :
    ∃ t', s₂.task = some t' ∧ ∀ q, t'.cow.mapper.toFilePage q =
      if t.slotOf b = some q then none else t.cow.mapper.toFilePage q := by
  obtain ⟨t', ht', hc⟩ := taskStep_change ht hstep
  refine ⟨t', ht', fun q ↦ ?_⟩
  cases hc.data with
  | same hm _ _ _ hoff =>
    have hnone : t.slotOf b = none := by cases b <;> simp [TaskStep.onData, slotOf] at hoff ⊢
    rw [hm, hnone]
    rfl
  | getPage heq =>
    rw [heq]
    refine (t.cow.mapper.toFilePage_getPage q).trans ?_
    simp only [slotOf, some.injEq, eq_comm]
  | freePage page heq =>
    rw [heq]
    refine (t.cow.mapper.toFilePage_freePage page q).trans ?_
    simp only [slotOf, some.injEq, eq_comm]
  | allocatePage | updateStat => simp [TaskStep.isBookkeeping] at hb

/-- **A step that writes no page.** -/
theorem Coherent.step (h : s.Coherent opts) {b : TaskStep} (hcur : Current s (.step b))
    (hrun : (CacheEvent.step b).run opts s = some s') : s'.Coherent opts := by
  obtain ⟨t, ht, hrun⟩ := bind_eq_some_iff.1 hrun
  obtain ⟨⟨hphase, hb, hnew⟩, hrun⟩ := ite_none_right_eq_some.1 hrun
  obtain ⟨p, hp, rfl⟩ := map_eq_some_iff.1 hrun
  obtain ⟨htab, hpub, hseg, htask⟩ := published_step hp
  have horder := h.order.event (hcur.smallTables _) hp
  obtain ⟨-, p', hstep, rfl⟩ := step_ok hp
  obtain ⟨t', ht', hpage⟩ := bookkeeping_toFilePage ht hstep hb
  have hown : ∀ q, ({ s with pinned := { s.pinned with partition := p' } } :
      CachedPartition).filePage (s.gen + 1) q =
      if t.slotOf b = some q then none else s.filePage (s.gen + 1) q := by
    intro q
    rw [filePage_own ht]
    exact (congrFun (filePage_own ht') q).trans (hpage q)
  refine h.setOwn hphase horder htab hpub hseg htask (fun q hq ↦ ?_) (fun q f hq hf ↦ ?_) hnew
  · exact (hown q).trans (if_neg hq)
  · exact absurd (hf.symm.trans ((hown q).trans (if_pos hq))) (by simp)

/-- **A write is issued** from a free cached page, or from none. -/
theorem Coherent.issue (h : s.Coherent opts) (hphase : s.phase = .registered) (hcls : w.cls = .data)
    (hnew : w.page ∉ s.writing) (haddr : ∀ a ∈ w.addr?, (s.cache.pages a).status = .free)
    (hown : s.filePage (s.gen + 1) w.page = some w.fp)
    (hbare : s.cache.slots (s.gen + 1) w.page = none)
    (honly : ∀ p, s.filePage (s.gen + 1) p = some w.fp → p = w.page)
    (hunused : ∀ k, s.isPublic k = true → ∀ p, s.filePage k p ≠ some w.fp) :
    ({ s with cache := w.issue s.cache, writes := w :: s.writes } : CachedPartition).Coherent
      opts := by
  have hslots : (w.issue s.cache).slots = s.cache.slots ∧
      (w.issue s.cache).loads = s.cache.loads := by
    unfold PageWrite.issue
    split <;> exact ⟨rfl, rfl⟩
  have hcache : Swizzling.Coherent s.filePage (fun k ↦ s.isRegistered k = true)
      (w.issue s.cache) := by
    cases hw : w.addr? with
    | none => simpa only [PageWrite.issue, hw] using h.cache
    | some a =>
      have hfree := haddr a (mem_def.2 hw)
      simpa only [PageWrite.issue, hw] using h.cache.startWrite hfree w.page w.fp w.content
  -- a cached page in use is not the one that was free
  have hpages : ∀ a, (s.cache.pages a).status = .detached →
      (w.issue s.cache).pages a = s.cache.pages a := by
    intro a ha
    cases hw : w.addr? with
    | none => simp only [PageWrite.issue, hw]
    | some b =>
      have hne : a ≠ b := fun heq ↦ by
        have hfree := haddr b (mem_def.2 hw)
        rw [← heq, ha] at hfree
        cases hfree
      simp only [PageWrite.issue, hw]
      exact update_of_ne hne _ _
  have hself : ∀ a, w.addr? = some a →
      (w.issue s.cache).pages a = ⟨some w.page, some w.fp, some w.content, .detached⟩ ∧
        a ∉ s.cache.loads.map (·.1) := by
    intro a hw
    refine ⟨?_, fun hmem ↦ ?_⟩
    · simp only [PageWrite.issue, hw]
      exact update_self _ _ _
    · obtain ⟨x, hx, rfl⟩ := mem_map.1 hmem
      have hfree := haddr _ (mem_def.2 hw)
      rw [h.cache.load x hx] at hfree
      cases hfree
  refine
    { __ := h
      cache := hcache.mono (fun _ hk ↦ hk) fun _ _ ↦ rfl
      loads := fun x hx ↦ h.loads x (hslots.2 ▸ hx)
      copied := fun heq ↦ absurd (hphase.symm.trans heq) (by simp)
      writing := fun _ ↦ hphase
      dataWrites := fun w' hw' hcls' ↦ ?_
      segmentWrites := fun w' hw' hcls' ↦ ?_
      apart := pairwise_cons.2 ⟨fun w' hw' _ hcls' ↦ ⟨fun heq ↦ ?_, fun a ha ha' ↦ ?_⟩,
        h.apart⟩ }
  · rcases mem_cons.1 hw' with rfl | hw'
    · refine ⟨hown, ?_, honly, hunused, fun a ha ↦ ?_⟩
      · show (w'.issue s.cache).slots (s.gen + 1) w'.page = none
        rw [hslots.1]
        exact hbare
      · show _ ∧ a ∉ (w'.issue s.cache).loads.map (·.1)
        rw [hslots.2]
        exact hself a ha
    · have hok := h.dataWrites w' hw' hcls'
      refine hok.frame rfl rfl (fun _ hk ↦ ⟨hk, rfl⟩) ?_ fun a ha ↦ ⟨?_, ?_⟩
      · show (w.issue s.cache).slots (s.gen + 1) w'.page = none
        rw [hslots.1]
        exact hok.bare
      · exact hpages a (by rw [(hok.cached a ha).1])
      · show a ∉ (w.issue s.cache).loads.map (·.1)
        rw [hslots.2]
        exact (hok.cached a ha).2
  · rcases mem_cons.1 hw' with rfl | hw'
    · cases hcls.symm.trans hcls'
    · exact h.segmentWrites w' hw' hcls'
  · exact hnew (heq ▸ mem_writing hw' hcls')
  · have hfree := haddr a (mem_def.2 ha)
    rw [((h.dataWrites w' hw' hcls').cached a ha').1] at hfree
    cases hfree

theorem Coherent.write (h : s.Coherent opts) {page? addr? : Option ℕ} {content : ℕ}
    (hcur : Current s (.write page? content addr?))
    (hrun : (CacheEvent.write page? content addr?).run opts s = some s') : s'.Coherent opts := by
  obtain ⟨t, ht, hrun⟩ := bind_eq_some_iff.1 hrun
  obtain ⟨w, hw⟩ : ∃ w : PageWrite, w = ⟨.data, (choosePage t.cow.mapper page?).1,
    t.cow.mapper.allocator.allocate.1, content, addr?⟩ := ⟨_, rfl⟩
  rw [← hw] at hrun
  obtain ⟨⟨hphase, hnew, haddr⟩, hrun⟩ := ite_none_right_eq_some.1 hrun
  obtain ⟨p, hp, rfl⟩ := map_eq_some_iff.1 hrun
  obtain ⟨htab, hpub, hseg, htask⟩ := published_step hp
  have horder := h.order.event (hcur.smallTables _) hp
  have hunmapped := h.order.allocate_notMem ht
  obtain ⟨-, p', hstep, rfl⟩ := step_ok hp
  obtain ⟨t₀, ht₀, fp, t', ranges', halloc, rfl⟩ := taskStep_ok hstep
  cases ht.symm.trans ht₀
  obtain ⟨-, -, hcow, -⟩ := allocatePage_ok halloc
  let s₁ : CachedPartition :=
    { s with
      pinned := { s.pinned with
        partition := { s.part with task := some t', branchFileMapping := ranges' } }
      cache := s.setOwn (some w.page) }
  have hpage : w.page = (choosePage t.cow.mapper page?).1 := by rw [hw]
  have hfp : w.fp = t.cow.mapper.allocator.allocate.1 := by rw [hw]
  have hown : ∀ q, s₁.filePage (s.gen + 1) q =
      if q = w.page then some w.fp else s.filePage (s.gen + 1) q := by
    intro q
    rw [filePage_own ht, hpage, hfp]
    refine (congrFun (filePage_own (s := s₁) rfl) q).trans ?_
    rw [hcow]
    exact toFilePage_allocated _ _ q
  have hset : s₁.Coherent opts := by
    refine h.setOwn hphase horder htab hpub hseg htask (fun q hq ↦ ?_) (fun q f hq hf ↦ ?_)
      fun q hq ↦ ?_
    · exact (hown q).trans (if_neg fun heq ↦ hq (by rw [heq]))
    · have heq : f = w.fp :=
        some.inj (hf.symm.trans ((hown q).trans (if_pos (some.inj hq).symm)))
      rw [heq, hfp]
      exact hunmapped
    · cases hq
      exact hnew
  refine hset.issue hphase (by rw [hw]) hnew (fun a ha ↦ haddr a ?_)
    ((hown _).trans (if_pos rfl)) ?_
    (fun q hq ↦ ?_) fun k hk q hq ↦ ?_
  · rw [hw] at ha
    exact ha
  · show update s.cache.slots (s.gen + 1) _ (s.gen + 1) w.page = none
    rw [update_self, update_self]
  · by_contra hne
    have hold := (hown q).symm.trans hq
    rw [if_neg hne, hfp] at hold
    exact hunmapped (mem_mappedPages_of_own ht hold)
  · have hk' : s.isPublic k = true := hk
    have hsame : s₁.filePage k = s.filePage k := filePage_congr rfl rfl rfl (ne_own hk')
    rw [hsame, hfp] at hq
    exact hunmapped (mem_mappedPages_of_isPublic hk' hq)

theorem Coherent.writeSegment (h : s.Coherent opts) {page? : Option ℕ} {content : ℕ}
    (hcur : Current s (.writeSegment page? content))
    (hrun : (CacheEvent.writeSegment page? content).run opts s = some s') : s'.Coherent opts := by
  obtain ⟨m, hm, hrun⟩ := bind_eq_some_iff.1 hrun
  obtain ⟨t, ht, hm⟩ := bind_eq_some_iff.1 hm
  obtain ⟨hphase, hrun⟩ := ite_none_right_eq_some.1 hrun
  obtain ⟨p, hp, rfl⟩ := map_eq_some_iff.1 hrun
  obtain ⟨htab, hpub, hseg, htask⟩ := published_step hp
  have horder := h.order.event (hcur.smallTables _) hp
  obtain ⟨happ, hmax⟩ := h.order.segment.task t ht m hm
  obtain ⟨-, p', hstep, rfl⟩ := step_ok hp
  obtain ⟨t₀, ht₀, fp, t', ranges', halloc, rfl⟩ := taskStep_ok hstep
  cases ht.symm.trans ht₀
  obtain ⟨m₀, -, -, -, hcow, -⟩ := allocateSegment_ok halloc
  let s₁ : CachedPartition :=
    { s with pinned := { s.pinned with
        partition := { s.part with task := some t', branchFileMapping := ranges' } } }
  have hown : s₁.filePage (s.gen + 1) = s.filePage (s.gen + 1) := by
    rw [filePage_own ht]
    refine (filePage_own (s := s₁) rfl).trans ?_
    rw [hcow]
  have hset : ({ s₁ with cache := s.setOwn none } : CachedPartition).Coherent opts :=
    h.setOwn hphase horder htab hpub hseg htask (fun q _ ↦ congrFun hown q)
      (fun _ _ hq ↦ absurd hq (by simp)) fun _ hq ↦ absurd hq (by simp)
  refine
    { __ := hset
      cache := hset.cache.mono (fun _ hk ↦ hk) fun _ _ ↦ rfl
      writing := fun _ ↦ hphase
      dataWrites := fun w hw hcls ↦ ?_
      segmentWrites := fun w hw hcls m' hm' ↦ ?_
      apart := pairwise_cons.2 ⟨fun w _ hcls ↦ absurd hcls (by simp), hset.apart⟩ }
  · rcases mem_cons.1 hw with rfl | hw
    · cases hcls
    · have hok := hset.dataWrites w hw hcls
      exact hok.frame rfl rfl (fun _ hk ↦ ⟨hk, rfl⟩) hok.bare fun a ha ↦ ⟨rfl, (hok.cached a ha).2⟩
  · rcases mem_cons.1 hw with rfl | hw
    · show _ ≤ m.allocator.allocate.1
      rw [happ.1.allocate_eq]
      exact hmax m' hm'
    · exact hset.segmentWrites w hw hcls m' hm'

/-! ### A write ends -/

theorem Apart.symm {w' : PageWrite} (h : Apart w w') : Apart w' w := by
  intro hcls hcls'
  obtain ⟨hpage, haddr⟩ := h hcls' hcls
  exact ⟨hpage.symm, fun a ha ha' ↦ haddr a ha' ha⟩

section

variable (h : s.Coherent opts) (hw : w ∈ s.writes)

include h hw

theorem Coherent.apart_erase :
    (∀ w' ∈ s.writes.erase w, Apart w w') ∧ (s.writes.erase w).Pairwise Apart := by
  have hperm := perm_cons_erase hw
  exact pairwise_cons.1 ((hperm.pairwise_iff Apart.symm).1 h.apart)

theorem Coherent.endWrite {cache : PageCache}
    (hcache : Swizzling.Coherent s.filePage (fun k ↦ s.isRegistered k = true) cache)
    (hloads : cache.loads = s.cache.loads)
    (hslots : ∀ w' ∈ s.writes.erase w, w'.cls = .data → cache.slots (s.gen + 1) w'.page = none)
    (hpages : ∀ w' ∈ s.writes.erase w, w'.cls = .data → ∀ a, w'.addr? = some a →
      cache.pages a = s.cache.pages a) :
    ({ s with cache := cache, writes := s.writes.erase w } : CachedPartition).Coherent opts := by
  have hphase : s.phase = .registered := h.writing (ne_nil_of_mem hw)
  refine
    { __ := h
      cache := hcache.mono (fun _ hk ↦ hk) fun _ _ ↦ rfl
      loads := fun x hx ↦ h.loads x (hloads ▸ hx)
      copied := fun heq ↦ absurd (hphase.symm.trans heq) (by simp)
      writing := fun _ ↦ hphase
      dataWrites := fun w' hw' hcls ↦ ?_
      segmentWrites := fun w' hw' ↦ h.segmentWrites w' (mem_of_mem_erase hw')
      apart := (h.apart_erase hw).2 }
  have hok := h.dataWrites w' (mem_of_mem_erase hw') hcls
  refine hok.frame rfl rfl (fun _ hk ↦ ⟨hk, rfl⟩) (hslots w' hw' hcls) fun a ha ↦ ⟨?_, ?_⟩
  · exact hpages w' hw' hcls a ha
  · show a ∉ cache.loads.map (·.1)
    rw [hloads]
    exact (hok.cached a ha).2

/-- The file page of a write is behind no pointer. -/
theorem Coherent.putDisk (hcls : w.cls = .data) (v : Option ℕ) :
    Swizzling.Coherent s.filePage (fun k ↦ s.isRegistered k = true) (s.cache.putDisk w.fp v) := by
  have hok := h.dataWrites w hw hcls
  refine h.cache.putDisk v fun k hk p hp a hs ↦ ?_
  by_cases hown : k = s.gen + 1
  · rw [hown] at hp hs
    rw [hok.only p hp, hok.bare] at hs
    cases hs
  · exact hok.unused k (isPublic_of_ne hk hown) p hp

/-- **A write ends.** What a completed one leaves is what was to be written. -/
theorem Coherent.finish {ok : Bool} {v : Option ℕ} (hv : ok = true → v = some w.content) :
    (s.finish w ok v).Coherent opts := by
  have hleft := (h.apart_erase hw).1
  have hbare : ∀ w' ∈ s.writes.erase w, w'.cls = .data →
      s.cache.slots (s.gen + 1) w'.page = none := fun w' hw' hcls' ↦
    h.slot_eq_none (mem_of_mem_erase hw') hcls'
  unfold CachedPartition.finish
  split
  · -- a segment
    exact (h.endWrite hw h.cache rfl hbare fun _ _ _ _ _ ↦ rfl).congr rfl rfl rfl rfl rfl
  · next hcls _ =>
    exact (h.endWrite hw (h.putDisk hw hcls v) rfl hbare fun _ _ _ _ _ ↦ rfl).congr rfl rfl rfl rfl
      rfl
  · next a hcls haddr =>
    have hok := h.dataWrites w hw hcls
    obtain ⟨hpage, hload⟩ := hok.cached a haddr
    have hput := h.putDisk hw hcls v
    have hother : ∀ w' ∈ s.writes.erase w, w'.cls = .data → ∀ b, w'.addr? = some b → b ≠ a :=
      fun w' hw' hcls' b hb heq ↦ (hleft w' hw' hcls hcls').2 a haddr (heq ▸ hb)
    cases ok with
    | false =>
      refine (h.endWrite hw (hput.failWrite (by simp [Swizzling.Cache.putDisk, hpage]) hload) rfl
        hbare fun w' hw' hcls' b hb ↦ ?_).congr rfl rfl rfl rfl rfl
      exact update_of_ne (hother w' hw' hcls' b hb) _ _
    | true =>
      have hdisk : (s.cache.putDisk w.fp v).disk w.fp = some w.content := by
        rw [hv rfl]
        exact update_self _ _ _
      refine (h.endWrite hw (hput.finishWrite hpage hload hok.own hdisk) rfl (fun w' hw' hcls' ↦ ?_)
        fun w' hw' hcls' b hb ↦ ?_).congr rfl rfl rfl rfl rfl
      · have hne : w'.page ≠ w.page := (hleft w' hw' hcls hcls').1.symm
        show update s.cache.slots (s.gen + 1) _ (s.gen + 1) w'.page = none
        rw [update_self, update_of_ne hne]
        exact hbare w' hw' hcls'
      · exact update_of_ne (hother w' hw' hcls' b hb) _ _

end

/-- **The manifest cannot be written.** -/
theorem Coherent.manifestFails (h : s.Coherent opts) {m? : Option Manifest}
    (hrun : (CacheEvent.manifestFails m?).run opts s = some s') : s'.Coherent opts := by
  obtain ⟨hphase, rfl⟩ := ite_some_none_eq_some.1 hrun
  obtain ⟨t, ht⟩ := h.exists_task hphase
  have hset : ({ s with
      pinned := { s.pinned with partition := { s.part with manifest := m? } }
      cache := s.setOwn none } : CachedPartition).Coherent opts :=
    h.setOwn hphase (h.order.setManifest ht m?) rfl rfl rfl (by simp [ht]) (fun _ _ ↦ rfl)
      (fun _ _ hq ↦ absurd hq (by simp)) fun _ hq ↦ absurd hq (by simp)
  exact hset.congr rfl rfl rfl rfl rfl

/-! ### A task ends -/

/-- A partition without a task, whose mappings are all in order. -/
theorem coherent_idle (horder : s.pinned.InOrder opts) (hheld : s.pinned.tables.length ≤ s.gen)
    (hcache : Swizzling.Coherent s.filePage (fun k ↦ s.isRegistered k = true) s.cache)
    (hloads : ∀ x ∈ s.cache.loads, s.isRegistered x.2 = true) (hnone : s.part.task = none)
    (hphase : s.phase = .idle) (hnil : s.writes = []) : s.Coherent opts where
  order := horder
  held := hheld
  cache := hcache
  loads := hloads
  idle := ⟨fun _ ↦ hphase, fun _ ↦ hnone⟩
  copy _ hni := absurd hphase hni
  converted _ _ _ heq := absurd (hphase.symm.trans heq) (by simp)
  copied heq := absurd (hphase.symm.trans heq) (by simp)
  writing hne := absurd hnil hne
  dataWrites w hw := absurd hw (by simp [hnil])
  segmentWrites w hw := absurd hw (by simp [hnil])
  apart := hnil ▸ .nil

/-- **A commit** publishes the task's mapping, under its number. -/
theorem Coherent.commit (h : s.Coherent opts) (hcur : Current s .commit)
    (hrun : CacheEvent.commit.run opts s = some s') : s'.Coherent opts := by
  obtain ⟨⟨hphase, hnil, -⟩, hrun⟩ := ite_none_right_eq_some.1 hrun
  obtain ⟨p, hp, rfl⟩ := map_eq_some_iff.1 hrun
  have horder := h.order.event (hcur.smallTables _) hp
  obtain ⟨p', hcommit, rfl⟩ := map_eq_some_iff.1 hp
  obtain ⟨t, ht, -, rfl⟩ := commit_ok (Transition.ok_of_toOption hcommit)
  obtain ⟨m?, sm?, hmap⟩ := exists_mappers (h.order.entry ht)
  have hframe := updateMeta_spec opts ht hmap
  have hpub : (s.part.updateMeta opts t).publishedMapper = some t.cow.mapper := by
    rw [publishedMapper, hframe.mappers]
    rfl
  let s₁ : CachedPartition :=
    { s with
      pinned :=
        { partition := s.part.updateMeta opts t
          tables := s.pinned.tables ++ [(s.part.publishedMapper.map (·.tbl)).getD []]
          returned := []
          lost := s.pinned.lost ++ s.pinned.returned }
      gen := s.gen + 1
      phase := .idle }
  have hlen : s₁.pinned.tables.length = s.pinned.tables.length + 1 := by simp [s₁]
  have hreg : ∀ k, s₁.isRegistered k = true → s.isRegistered k = true := by
    intro k hk
    rw [isRegistered_eq_isPublic (by simp [s₁]), isPublic_iff, hlen] at hk
    rw [isRegistered_iff, isPublic_iff]
    have hgen : s₁.gen = s.gen + 1 := rfl
    by_cases hown : k = s.gen + 1
    · exact .inr ⟨hown, hphase⟩
    · exact .inl (by omega)
  have hreg' : ∀ k, s.isRegistered k = true → s₁.isRegistered k = true := by
    intro k hk
    rw [isRegistered_iff, isPublic_iff] at hk
    refine isRegistered_of_isPublic (isPublic_iff.2 ?_)
    have hgen : s₁.gen = s.gen + 1 := rfl
    omega
  have hT : ∀ k, s.isRegistered k = true → s₁.filePage k = s.filePage k := by
    intro k hk
    funext q
    rcases isRegistered_iff.1 hk with hk | ⟨rfl, -⟩
    · obtain ⟨hge, hle⟩ := isPublic_iff.1 hk
      have hidx : k + s₁.pinned.tables.length - s₁.gen = k + s.pinned.tables.length - s.gen := by
        show k + s₁.pinned.tables.length - (s.gen + 1) = _
        omega
      have hgen : s₁.gen = s.gen + 1 := rfl
      show (s₁.tbl k).toFilePage q = (s.tbl k).toFilePage q
      rw [tbl, tbl, if_neg (by omega), if_neg (by omega), if_neg (by omega), hidx,
        getD_eq_getElem?_getD]
      split
      · -- the mapping that is replaced is the last of the tables
        next hk =>
        rw [hk, Nat.add_sub_cancel_left, getElem?_concat_length]
        rfl
      · rw [getD_eq_getElem?_getD, getElem?_append_left (by omega)]
    · rw [show s₁.filePage (s.gen + 1) q = denote s₁.part.publishedMapper q from
        filePage_gen (s := s₁) q, filePage_own ht, show s₁.part.publishedMapper = _ from hpub]
      rfl
  refine coherent_idle horder ?_ (h.cache.mono hreg fun k hk ↦ hT k (hreg k hk))
    (fun x hx ↦ hreg' x.2 (h.loads x hx)) hframe.idle rfl hnil
  have hheld := h.held
  show s₁.pinned.tables.length ≤ s.gen + 1
  omega

/-- **An abort** drops the task's mapping. -/
theorem Coherent.abort (h : s.Coherent opts) (hcur : Current s .abort)
    (hrun : CacheEvent.abort.run opts s = some s') : s'.Coherent opts := by
  obtain ⟨⟨-, hnil, hloads⟩, hrun⟩ := ite_none_right_eq_some.1 hrun
  obtain ⟨p, hp, rfl⟩ := map_eq_some_iff.1 hrun
  have horder := h.order.event (hcur.smallTables _) hp
  obtain ⟨-, ⟨⟩⟩ := ite_none_left_eq_some.1 hp
  let s₁ : CachedPartition :=
    { s with
      pinned := { s.pinned with partition := s.part.abort, returned := [] }
      phase := .idle
      failed := false }
  have hpublic : ∀ k, s₁.isRegistered k = s.isPublic k := fun k ↦
    isRegistered_eq_isPublic (by simp [s₁]) k
  refine coherent_idle horder h.held (h.cache.mono (fun k hk ↦ ?_) fun k hk ↦ ?_) (fun x hx ↦ ?_)
    rfl rfl hnil
  · exact isRegistered_of_isPublic ((hpublic k).symm.trans hk)
  · exact filePage_congr rfl rfl rfl (ne_own ((hpublic k).symm.trans hk))
  · exact (hpublic x.2).trans (isPublic_of_ne (h.loads x hx) (hloads x hx))

/-- **The oldest replaced mapping is released.** -/
theorem Coherent.release (h : s.Coherent opts) (hcur : Current s .release)
    (hrun : CacheEvent.release.run opts s = some s') : s'.Coherent opts := by
  obtain ⟨hloads, hrun⟩ := ite_none_right_eq_some.1 hrun
  obtain ⟨p, hp, rfl⟩ := map_eq_some_iff.1 hrun
  have horder := h.order.event (hcur.smallTables _) hp
  obtain ⟨fps, rest, hpend, rfl⟩ := release_ok hp
  have hpub := publishedMapper_freeMappingSnapshot hpend
  have hseg := publishedSegments_freeMappingSnapshot s.part
  have htask : s.part.freeMappingSnapshot.task = s.part.task := by
    simp [freeMappingSnapshot, hpend]
  let s₁ : CachedPartition :=
    { s with pinned := { s.pinned with
        partition := s.part.freeMappingSnapshot
        tables := s.pinned.tables.tail
        returned := if s.part.task = none then s.pinned.returned else s.pinned.returned ++ fps } }
  have hlen : s₁.pinned.tables.length = s.pinned.tables.length - 1 := length_tail
  have hpublic : ∀ k, s₁.isPublic k = true → s.isPublic k = true := by
    intro k hk
    rw [isPublic_iff, hlen] at hk
    rw [isPublic_iff]
    have hgen : s₁.gen = s.gen := rfl
    omega
  have htbl : s₁.tbl (s.gen + 1) = s.tbl (s.gen + 1) := by
    rw [tbl, tbl, if_pos rfl, if_pos rfl, show s₁.part.task = s.part.task from htask]
  have hown : s₁.filePage (s.gen + 1) = s.filePage (s.gen + 1) := by
    funext q
    rw [filePage, filePage, htbl]
  have hgen : s₁.filePage s.gen = s.filePage s.gen := by
    funext q
    rw [show s₁.filePage s.gen q = denote s₁.part.publishedMapper q from filePage_gen (s := s₁) q,
      filePage_gen, show s₁.part.publishedMapper = _ from hpub]
    cases s.part.publishedMapper <;> rfl
  have hT : ∀ k, s₁.isPublic k = true → s₁.filePage k = s.filePage k := by
    intro k hk
    by_cases hkg : k = s.gen
    · rw [hkg]
      exact hgen
    · obtain ⟨hge, hle⟩ := isPublic_iff.1 hk
      have hge' : s.gen ≤ k + (s.pinned.tables.length - 1) := hlen ▸ hge
      have hle' : k ≤ s.gen := hle
      have hidx : k + s.pinned.tables.length - s.gen =
          k + s₁.pinned.tables.length - s₁.gen + 1 := by
        show _ = k + s₁.pinned.tables.length - s.gen + 1
        omega
      funext q
      have hne : k ≠ s₁.gen + 1 := by
        omega
      rw [filePage, filePage, tbl, tbl, if_neg hne, if_neg hkg, if_neg (ne_own (hpublic k hk)),
        if_neg hkg, hidx, getD_eq_getElem?_getD, getD_eq_getElem?_getD, getElem?_tail]
  have hreg : ∀ k, s₁.isRegistered k = true → s.isRegistered k = true := fun k hk ↦
    isRegistered_iff.2 ((isRegistered_iff.1 hk).imp_left (hpublic k))
  refine
    { order := horder
      held := ?_
      cache := h.cache.mono hreg fun k hk ↦ ?_
      loads := fun x hx ↦ ?_
      idle := by
        rw [show s₁.part.task = s.part.task from htask]
        exact h.idle
      copy := fun hnr hni ↦ hown.trans ((h.copy hnr hni).trans hgen.symm)
      converted := fun chunk changed converted heq x hx ↦
        (congrFun hgen x.1).trans (h.converted chunk changed converted heq x hx)
      copied := fun heq q ↦ ?_
      writing := h.writing
      dataWrites := fun w hw hcls ↦ ?_
      segmentWrites := fun w hw hcls m hm ↦ h.segmentWrites w hw hcls m (hseg.symm.trans hm)
      apart := h.apart }
  · have hheld := h.held
    show s₁.pinned.tables.length ≤ s.gen
    omega
  · rcases isRegistered_iff.1 hk with hk | ⟨rfl, -⟩
    · exact hT k hk
    · exact hown
  · rcases isRegistered_iff.1 (h.loads x hx) with hk | hk
    · refine isRegistered_of_isPublic (isPublic_iff.2 ?_)
      obtain ⟨hge, hle⟩ := isPublic_iff.1 hk
      have hne := hloads x hx
      show s.gen ≤ x.2 + s₁.pinned.tables.length ∧ x.2 ≤ s.gen
      omega
    · exact isRegistered_iff.2 (.inr hk)
  · show (∀ f, s.cache.slots (s.gen + 1) q = _ → s₁.filePage (s.gen + 1) q = _) ∧
      ∀ a, s.cache.slots (s.gen + 1) q = _ → q < (s₁.tbl (s.gen + 1)).length
    rw [hown, htbl]
    exact h.copied heq q
  · have hok := h.dataWrites w hw hcls
    exact hok.frame rfl hown (fun k hk ↦ ⟨hpublic k hk, hT k hk⟩) hok.bare
      fun a ha ↦ ⟨rfl, (hok.cached a ha).2⟩

/-! ### Runs -/

/-- **An event that meets the condition keeps the partition coherent.** -/
theorem Coherent.event (h : s.Coherent opts) {e : CacheEvent} (hcur : Current s e)
    (hrun : e.run opts s = some s') : s'.Coherent opts := by
  cases e with
  | begin => exact h.begin hcur hrun
  | copyChunk => exact h.copyChunk hrun
  | endCopy => exact h.endCopy hrun
  | register =>
    obtain ⟨hphase, rfl⟩ := ite_some_none_eq_some.1 hrun
    exact h.register hphase hcur
  | step b => exact h.step hcur hrun
  | write page? content addr? => exact h.write hcur hrun
  | writeSegment page? content => exact h.writeSegment hcur hrun
  | complete w =>
    obtain ⟨hw, rfl⟩ := ite_some_none_eq_some.1 hrun
    exact h.finish hw fun _ ↦ rfl
  | fail w junk =>
    obtain ⟨hw, rfl⟩ := ite_some_none_eq_some.1 hrun
    exact h.finish hw fun hok ↦ absurd hok (by simp)
  | load k page a =>
    obtain ⟨fp, hfp, hrun⟩ := bind_eq_some_iff.1 hrun
    obtain ⟨⟨hk, hnew, ha, -⟩, rfl⟩ := ite_some_none_eq_some.1 hrun
    exact h.load hfp hk hnew ha
  | loaded a k =>
    obtain ⟨hmem, rfl⟩ := ite_some_none_eq_some.1 hrun
    exact h.loaded hmem.1
  | loadFails a k =>
    obtain ⟨hmem, rfl⟩ := ite_some_none_eq_some.1 hrun
    exact h.loadFails hmem hcur
  | evict a =>
    obtain ⟨ha, rfl⟩ := ite_some_none_eq_some.1 hrun
    exact h.evict ha
  | manifestFails m? => exact h.manifestFails hrun
  | commit => exact h.commit hcur hrun
  | abort => exact h.abort hcur hrun
  | release => exact h.release hcur hrun

/-- **In every run whose events meet the condition the partition is coherent.** -/
theorem coherent_of_runs {branch : BranchName} {term : ℕ}
    (hrun : CacheRuns opts Current (fresh branch term) s) : s.Coherent opts :=
  hrun.invariant (Coherent opts) (coherent_fresh opts branch term)
    fun h hcur hstep ↦ h.event hcur hstep

end CachedPartition

end EloqStore
