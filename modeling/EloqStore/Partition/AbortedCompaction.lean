import EloqStore.Partition.Compaction
import EloqStore.Partition.SwizzledPointers

/-!
# A compaction that fails

A compaction moves cached pages in place, so until it commits, the cached pages of the published
mapping carry file pages that are not committed. If it fails, each of them has to get back the file
page the published mapping means. `Restorable` is what makes this so: with the moves of
`MovingCachedPages` taken back, the mappings that can be read through are coherent, whatever reads,
evictions and writes do meanwhile.

The invariant is kept by every step but one. A cached page is added to the list after `WritePage`
has returned, and not at all if it returns an error: then the list does not know the page, and
nothing gives it back its file page.
-/

namespace EloqStore

open CachedPartition Function List Option Swizzling.Cache CompactPhase Sublist

open Swizzling (Slot Status Coherent LoadedThrough)

/-- A mapping that can be read through. -/
def CompactEnv.Public (env : CompactEnv) (m : ℕ) : Prop := env.isPublic m = true

/-- The published mapping can be read through, the task's cannot. -/
structure CompactEnv.Valid (env : CompactEnv) : Prop where
  gen : env.Public env.gen
  own : ¬ env.Public env.own

namespace CompactPhase

def isData : CompactPhase → Bool
  | .collect _ _ | .files _ _ | .gather _ _ _ _ _ _ | .copy _ _ _ _ _ => true
  | .start | .collectSegments _ _ | .segmentFiles _ _ | .moveSegments _ _ _ | .flush | .committed
  | .skipped | .aborting | .aborted => false

/-- Nothing has been moved, or all moves have been taken back. -/
def isUnmoved : CompactPhase → Bool
  | .start | .collect _ _ | .aborting | .aborted => true
  | .files _ _ | .gather _ _ _ _ _ _ | .copy _ _ _ _ _ | .collectSegments _ _ | .segmentFiles _ _
  | .moveSegments _ _ _ | .flush | .committed | .skipped => false

/-- The pages that can still come to a first pass. -/
def pending (o : ScanOptions) : CompactPhase → List (ℕ × ℕ)
  | .collect _ fpIds => fpIds
  | .files _ scan => scan.rest
  | .gather _ scan _ left _ todo => left ++ (todo ++ scan.beyond o)
  | .copy _ scan _ _ todo => todo ++ scan.beyond o
  | .start | .collectSegments _ _ | .segmentFiles _ _ | .moveSegments _ _ _ | .flush | .committed
  | .skipped | .aborting | .aborted => []

end CompactPhase

namespace Compaction

variable {env : CompactEnv} {s s' : Compaction} {w : MoveWrite} {page a : ℕ}

/-- What the task allocates lies beyond everything that is mapped. -/
def AllocatesBeyond (env : CompactEnv) (m : PageMapper) : Prop :=
  m.allocator.IsAppend ∧
    ∀ k, env.Public k → ∀ p f, env.table k p = some f → f < m.allocator.maxFpId

/-- **The moves can be taken back.** -/
structure Restorable (env : CompactEnv) (s : Compaction) : Prop where
  /-- With the moves taken back, the mappings can be relied on. -/
  coherent : Coherent env.table env.Public (s.cache.restore s.moving)
  /-- A pointer to a page under a read is that of the mapping it is read through. -/
  through : LoadedThrough env.Public (s.cache.restore s.moving)
  append : s.phase.isData = true → AllocatesBeyond env s.mapper
  fresh : ∀ w ∈ s.writes, ∀ m, env.Public m → ∀ p, env.table m p ≠ some w.fp
  /-- A page that has been moved is on the active list, and does not come again. -/
  moving : ∀ x ∈ s.moving, (s.cache.pages x.1).status = .active ∧
    ∃ p, (s.cache.pages x.1).pageId = some p ∧
      p ∉ (s.phase.pending (env.opts.scan .data)).map (·.2)
  /-- A cached page that is written is on the active list. -/
  writing : ∀ w ∈ s.writes, ∀ a, w.addr? = some a → (s.cache.pages a).status = .active
  pending : ((s.phase.pending (env.opts.scan .data)).map (·.2)).Nodup
  unmoved : s.phase.isUnmoved = true → s.moving = []
  start : s.phase = .start → env.opts.dataAppendMode = true → AllocatesBeyond env s.mapper
  collected : ∀ page fpIds, s.phase = .collect page fpIds → ∀ x ∈ fpIds, x.2 < page

/-! ### Steps of the task alone -/

/-- **The task goes on** without touching the cache. -/
theorem Restorable.go (h : s.Restorable env) {phase : CompactPhase} {mapper : PageMapper}
    {segmentMapper : Option PageMapper} {segments : ℕ → Option ℕ}
    (hdata : phase.isData = true → s.phase.isData = true ∧ mapper = s.mapper)
    (hpending : (phase.pending (env.opts.scan .data)).Sublist
      (s.phase.pending (env.opts.scan .data)))
    (hmoved : phase.isUnmoved = false) :
    ({ s with
      phase := phase, mapper := mapper, segmentMapper := segmentMapper, segments := segments } :
      Compaction).Restorable env where
  __ := h
  append hd := by
    obtain ⟨hd', rfl⟩ := hdata hd
    exact h.append hd'
  moving x hx := by
    obtain ⟨hact, p, hp, hnot⟩ := h.moving x hx
    exact ⟨hact, p, hp, fun hmem ↦ hnot ((hpending.map _).subset hmem)⟩
  pending := h.pending.sublist (hpending.map _)
  unmoved hun := absurd (hmoved.symm.trans hun) (by simp)
  start heq := absurd hmoved (by rw [show phase = .start from heq]; simp [isUnmoved])
  collected page fpIds heq := absurd hmoved
    (by rw [show phase = .collect page fpIds from heq]; simp [isUnmoved])

theorem pending_nextBatch (endFileId : ℕ) (scan : FileScan) (todo : List (ℕ × ℕ)) :
    (nextBatch env endFileId scan todo).pending (env.opts.scan .data) =
      todo ++ scan.beyond (env.opts.scan .data) := by
  rw [nextBatch]
  split
  · next htodo => simp [pending, htodo]
  · rw [pending, ← append_assoc, take_append_drop]

theorem isUnmoved_nextBatch (endFileId : ℕ) (scan : FileScan) (todo : List (ℕ × ℕ)) :
    (nextBatch env endFileId scan todo).isUnmoved = false := by
  rw [nextBatch]
  split <;> rfl

theorem Restorable.outside (h : s.Restorable env) {phase : CompactPhase} {mapper : PageMapper}
    {segmentMapper : Option PageMapper} {segments : ℕ → Option ℕ} (hdata : phase.isData = false)
    (hmoved : phase.isUnmoved = false) :
    ({ s with
      phase := phase, mapper := mapper, segmentMapper := segmentMapper, segments := segments } :
      Compaction).Restorable env := by
  refine h.go (by simp [hdata]) ?_ hmoved
  cases phase <;> first
    | exact nil_sublist _
    | simp [isData] at hdata

theorem isData_afterData (s : Compaction) :
    s.afterData.isData = false ∧ s.afterData.isUnmoved = false := by
  rw [afterData]
  split <;> exact ⟨rfl, rfl⟩

section

variable (h : s.Restorable env)

include h

/-- An error is returned: the moves are taken back. -/
theorem Restorable.fail : s.fail.Restorable env where
  __ := h
  append hd := absurd hd (by simp [Compaction.fail, isData])
  moving x hx := absurd hx (by simp [Compaction.fail])
  writing w hw a ha := by
    rw [Compaction.fail, Swizzling.Cache.restore_status]
    exact h.writing w hw a ha
  pending := nodup_nil
  unmoved _ := rfl
  start heq := absurd heq (by simp [Compaction.fail])
  collected page fpIds heq := absurd heq (by simp [Compaction.fail])

theorem Restorable.abort (hphase : s.phase = .aborting) :
    ({ s with phase := .aborted } : Compaction).Restorable env := by
  have hmoving : s.moving = [] := h.unmoved (by rw [hphase]; rfl)
  exact ⟨h.coherent, h.through, by simp [isData], h.fresh,
    by simp [hmoving], h.writing, nodup_nil, fun _ ↦ hmoving,
    by simp, by simp⟩

theorem Restorable.collect {fpIds : List (ℕ × ℕ)} (hphase : s.phase = .collect page fpIds)
    (fp? : Option ℕ) :
    ({ s with phase := .collect (page + 1) (fpIds ++ (fp?.map (·, page)).toList) } :
      Compaction).Restorable env := by
  have hmoving : s.moving = [] := h.unmoved (by rw [hphase]; rfl)
  have hlt := h.collected page fpIds hphase
  have hnodup := h.pending
  rw [hphase] at hnodup
  refine ⟨h.coherent, h.through, fun _ ↦ h.append (by rw [hphase]; rfl), h.fresh, fun x hx ↦ ?_,
    h.writing, ?_, fun _ ↦ hmoving, by simp, fun page' fpIds' heq ↦ ?_⟩
  · rw [hmoving] at hx
    exact absurd hx not_mem_nil
  · cases fp? with
    | none => simpa [CompactPhase.pending] using hnodup
    | some fp =>
      have hnot : page ∉ fpIds.map (·.2) := fun hmem ↦ by
        obtain ⟨x, hx, hxp⟩ := mem_map.1 hmem
        exact absurd (hlt x hx) (by omega)
      show ((fpIds ++ [(fp, page)]).map (·.2)).Nodup
      rw [map_append]
      exact Nodup.append hnodup (nodup_singleton page) (by simpa using hnot)
  · cases heq
    intro x hx
    rcases mem_append.1 hx with hx | hx
    · exact Nat.lt_succ_of_lt (hlt x hx)
    · obtain ⟨fp, -, rfl⟩ := map_eq_some_iff.1 (mem_toList.1 hx)
      exact Nat.lt_succ_self page

theorem Restorable.sort {fpIds : List (ℕ × ℕ)} (hphase : s.phase = .collect page fpIds)
    (o : ScanOptions) (endFileId : ℕ) :
    ({ s with phase := .files endFileId (.start o endFileId (sortFpIds fpIds)) } :
      Compaction).Restorable env := by
  have hmoving : s.moving = [] := h.unmoved (by rw [hphase]; rfl)
  have hnodup := h.pending
  rw [hphase] at hnodup
  refine ⟨h.coherent, h.through, fun _ ↦ h.append (by rw [hphase]; rfl), h.fresh, fun x hx ↦ ?_,
    h.writing, ?_, fun _ ↦ hmoving, by simp,
    by simp⟩
  · rw [hmoving] at hx
    exact absurd hx not_mem_nil
  · exact (((perm_insertionSort filePageLe fpIds).map (·.2)).nodup_iff).2 hnodup

/-- `Compact` before the first page. -/
theorem Restorable.begin (hphase : s.phase = .start) :
    ({ s with phase := s.begin env } : Compaction).Restorable env := by
  have hmoving : s.moving = [] := h.unmoved (by rw [hphase]; rfl)
  rw [Compaction.begin]
  split
  · exact h.outside rfl rfl
  · split
    · next hmode =>
      refine ⟨h.coherent, h.through, fun _ ↦ h.start hphase hmode, h.fresh, fun x hx ↦ ?_,
        h.writing, nodup_nil, fun _ ↦ hmoving, by simp,
        fun page fpIds heq ↦ ?_⟩
      · rw [hmoving] at hx
        exact absurd hx not_mem_nil
      · cases heq
        exact fun x hx ↦ absurd hx not_mem_nil
    · exact h.outside s.isData_afterData.1 s.isData_afterData.2

theorem Restorable.advance (hstep : s.advance env = some s') :
    s'.Restorable env := by
  rw [Compaction.advance.eq_def] at hstep
  split at hstep
  · next hphase =>
    cases hstep
    exact h.begin hphase
  · next page fpIds hphase =>
    split at hstep
    · cases hstep
      exact h.collect hphase _
    · split at hstep
      · cases hstep
        exact h.outside s.isData_afterData.1 s.isData_afterData.2
      · cases hstep
        exact h.sort hphase _ _
  · next endFileId scan hphase =>
    have hd : s.phase.isData = true := by rw [hphase]; rfl
    split at hstep
    · split at hstep
      · cases hstep
        refine h.go (fun _ ↦ ⟨hd, rfl⟩) ?_ (isUnmoved_nextBatch _ _ _)
        rw [pending_nextBatch, scan.pages_append_beyond, hphase]
        exact refl _
      · cases hstep
        refine h.go (fun _ ↦ ⟨hd, rfl⟩) ?_ rfl
        rw [hphase, CompactPhase.pending, FileScan.leave_rest]
        exact dropWhile_sublist _
    · cases hstep
      exact h.outside s.isData_afterData.1 s.isData_afterData.2
  · next endFileId scan batch todo hphase =>
    cases hstep
    refine h.go (fun _ ↦ ⟨by rw [hphase]; rfl, rfl⟩) ?_ (isUnmoved_nextBatch _ _ _)
    rw [pending_nextBatch, hphase]
    exact refl _
  · next endFileId scan left bufs todo hphase =>
    split at hstep
    · obtain ⟨-, hstep⟩ := ite_none_left_eq_some.1 hstep
      cases hstep
      refine h.go (fun _ ↦ ⟨by rw [hphase]; rfl, rfl⟩) ?_ rfl
      rw [hphase]
      exact refl _
    · cases hstep
      refine h.go (fun _ ↦ ⟨by rw [hphase]; rfl, rfl⟩) ?_ (isUnmoved_nextBatch _ _ _)
      rw [pending_nextBatch, hphase]
      exact refl _
  · obtain ⟨m, -, hstep⟩ := bind_eq_some_iff.1 hstep
    split at hstep
    · cases hstep
      exact h.outside rfl rfl
    · split at hstep <;> cases some.inj hstep <;> exact h.outside rfl rfl
  · split at hstep
    · split at hstep <;> cases some.inj hstep <;>
        exact h.outside rfl rfl
    · cases hstep
      exact h.outside rfl rfl
  · cases hstep
    exact h.outside rfl rfl
  · cases hstep

/-! ### Steps that touch the cache -/

theorem Restorable.notMem_moving (ha : (s.cache.pages a).status ≠ .active) :
    a ∉ s.moving.map (·.1) := fun hmem ↦ by
  obtain ⟨x, hx, rfl⟩ := mem_map.1 hmem
  exact ha (h.moving x hx).1

/-- **What other tasks do to the cache**: they leave alone what has been moved and what is being
written. -/
theorem Restorable.others {cache : PageCache}
    (hcoh : Coherent env.table env.Public (cache.restore s.moving))
    (hthr : LoadedThrough env.Public (cache.restore s.moving))
    (hsame : ∀ b, (s.cache.pages b).status = .active →
      (b ∈ s.moving.map (·.1) ∨ some b ∈ s.writes.map (·.addr?)) →
      cache.pages b = s.cache.pages b) :
    ({ s with cache := cache } : Compaction).Restorable env where
  coherent := hcoh
  through := hthr
  __ := h
  moving x hx := by
    have hx' := h.moving x hx
    rw [hsame x.1 hx'.1 (.inl (mem_map.2 ⟨x, hx, rfl⟩))]
    exact hx'
  writing w hw b hb := by
    have hact := h.writing w hw b hb
    rw [hsame b hact (.inr (mem_map.2 ⟨w, hw, hb⟩))]
    exact hact

theorem Restorable.finish (henv : env.Valid) (hw : w ∈ s.writes) (ok : Bool) (v : Option ℕ) :
    (s.finish env w ok v).Restorable env := by
  have hfresh := h.fresh w hw
  have hcoh : Coherent env.table env.Public ((s.cache.putDisk w.fp v).restore s.moving) := by
    rw [restore_putDisk]
    exact h.coherent.putDisk v fun m hm p hp ↦ absurd hp (hfresh m hm p)
  have hthr : LoadedThrough env.Public ((s.cache.putDisk w.fp v).restore s.moving) := by
    rw [restore_putDisk]
    exact h.through
  have hdone : ({ s with cache := s.cache.putDisk w.fp v } : Compaction).Restorable env :=
    h.others hcoh hthr fun _ _ _ ↦ rfl
  have herase : ∀ {t : Compaction} (b : Bool), t.Restorable env →
      ({ t with writes := t.writes.erase w, failed := b } : Compaction).Restorable env := by
    intro t b ht
    exact ⟨ht.coherent, ht.through, ht.append, fun w' hw' ↦ ht.fresh w' (mem_of_mem_erase hw'),
      ht.moving, fun w' hw' ↦ ht.writing w' (mem_of_mem_erase hw'), ht.pending, ht.unmoved,
      ht.start, ht.collected⟩
  rw [Compaction.finish]
  split
  · exact herase _ hdone
  · next a ha =>
    have hact : ((s.cache.putDisk w.fp v).pages a).status = .active := h.writing w hw a ha
    split
    · have hslots : ∀ slots, Restorable env
          { s with cache := (s.cache.putDisk w.fp v).setSlots env.own slots } := by
        intro slots
        refine h.others ?_ ?_ fun _ _ _ ↦ rfl
        · rw [restore_setSlots]
          exact hcoh.setSlots henv.own _
        · rw [restore_setSlots]
          exact hthr.setSlots henv.own _
      rw [finishWrite_of_active hact]
      exact herase _ (hslots _)
    · rw [if_neg (by simp [hact])]
      exact herase _ hdone

/-- A page is given a new file page in the task's mapping. -/
theorem Restorable.allocatePage (hd : s.phase.isData = true) (page : ℕ) :
    (s.allocatePage env page).Restorable env := by
  obtain ⟨happ, hbelow⟩ := h.append hd
  have hcache : ({ s with cache := s.cache.setSlot env.own page } : Compaction).Restorable env := by
    refine h.others ?_ ?_ fun _ _ _ ↦ rfl
    · rw [restore_setSlot]
      exact h.coherent.setSlot fun _ _ _ ↦ rfl
    · rw [restore_setSlot]
      exact h.through.setSlot _ _
  refine ⟨hcache.coherent, hcache.through, fun _ ↦ ⟨happ.allocate, fun m hm p f hf ↦ ?_⟩,
    hcache.fresh, hcache.moving, hcache.writing, hcache.pending, hcache.unmoved, fun heq ↦ ?_,
    hcache.collected⟩
  · exact (hbelow m hm p f hf).trans_le s.mapper.allocator.maxFpId_le_allocate
  · have hphase : s.phase = .start := heq
    rw [hphase] at hd
    simp [isData] at hd

end

variable {m : ℕ}

section

variable (h : s.Restorable env)

include h

/-- What is written to is mapped by no mapping that can be read through. -/
theorem Restorable.newPlace_ne (hd : s.phase.isData = true) (hm : env.Public m) (p : ℕ) :
    env.table m p ≠ some s.newPlace := by
  obtain ⟨happ, hbelow⟩ := h.append hd
  intro hp
  have hlt := hbelow m hm p _ hp
  rw [newPlace, happ.allocate_eq] at hlt
  exact lt_irrefl _ hlt

theorem Restorable.issue (hfresh : ∀ m, env.Public m → ∀ p, env.table m p ≠ some w.fp)
    (hact : ∀ a, w.addr? = some a → (s.cache.pages a).status = .active) :
    (s.issue w).Restorable env where
  __ := h
  fresh := forall_mem_cons.2 ⟨hfresh, h.fresh⟩
  writing := forall_mem_cons.2 ⟨hact, h.writing⟩

/-- The cached page that is moved is the page's, and has not been moved. -/
theorem Restorable.cachedPage (henv : env.Valid) (hcached : s.cachedPage env page = some a) :
    (s.cache.pages a).status = .active ∧ (s.cache.pages a).pageId = some page ∧
      (page ∈ (s.phase.pending (env.opts.scan .data)).map (·.2) → a ∉ s.moving.map (·.1)) := by
  rw [Compaction.cachedPage] at hcached
  split at hcached
  · next b hslot =>
    obtain ⟨hdet, hcached⟩ := ite_none_left_eq_some.1 hcached
    cases hcached
    obtain ⟨hid, f, -, -, hstate⟩ := h.coherent.slot env.gen henv.gen page _
      (by rw [restore_slots]; exact hslot)
    rw [restore_status] at hstate
    rw [restore_pageId] at hid
    refine ⟨?_, hid, fun hmem hmoved ↦ ?_⟩
    · obtain ⟨hact, -⟩ | ⟨hd, -⟩ := hstate
      · exact hact
      · exact absurd hd hdet
    · obtain ⟨x, hx, hxa⟩ := mem_map.1 hmoved
      obtain ⟨-, p, hp, hnot⟩ := h.moving x hx
      rw [hxa, hid] at hp
      exact hnot (some.inj hp ▸ hmem)
  · cases hcached

/-- **A cached page is moved**, and added to the list. -/
theorem Restorable.move (henv : env.Valid) {endFileId : ℕ} {scan : FileScan}
    {batch left uncached todo : List (ℕ × ℕ)} {x : ℕ × ℕ}
    (hphase : s.phase = .gather endFileId scan batch (x :: left) uncached todo)
    (hcached : s.cachedPage env x.2 = some a) :
    ({ (s.retarget env x.2 a).issue (s.cachedWrite x.2 a) with
      moving := (a, (s.cache.pages a).filePageId) :: s.moving
      phase := .gather endFileId scan batch left uncached todo } : Compaction).Restorable env := by
  have hd : s.phase.isData = true := by rw [hphase]; rfl
  have hpend : s.phase.pending (env.opts.scan .data) =
      x :: (left ++ (todo ++ scan.beyond (env.opts.scan .data))) := by
    rw [hphase]
    rfl
  obtain ⟨hact, hid, hnew⟩ := h.cachedPage henv hcached
  have hnot := hnew (by rw [hpend]; exact mem_cons_self)
  have hnodup := h.pending
  rw [hpend, map_cons, nodup_cons] at hnodup
  have halloc := h.allocatePage hd x.2
  have hwrite := halloc.issue (w := s.cachedWrite x.2 a)
    (fun m hm p ↦ h.newPlace_ne hd hm p) fun b hb ↦ by
      cases hb
      exact hact
  -- the page's list and id stay, only its place is another one
  have hpage : ∀ b, ((s.retarget env x.2 a).cache.pages b).status = (s.cache.pages b).status ∧
      ((s.retarget env x.2 a).cache.pages b).pageId = (s.cache.pages b).pageId := by
    intro b
    show (update s.cache.pages a _ b).status = _ ∧
      (update s.cache.pages a _ b).pageId = _
    by_cases hba : b = a
    · subst hba
      rw [update_self]
      exact ⟨rfl, rfl⟩
    · rw [update_of_ne hba]
      exact ⟨rfl, rfl⟩
  have hback : (s.retarget env x.2 a).cache.restore
      ((a, (s.cache.pages a).filePageId) :: s.moving) =
        (s.allocatePage env x.2).cache.restore s.moving :=
    restore_cons_setPlace hnot _
  refine ⟨?_, ?_, fun _ ↦ halloc.append hd, hwrite.fresh, fun y hy ↦ ?_, fun w hw b hb ↦ ?_,
    hnodup.2, by simp [isUnmoved],
    by simp, by simp⟩
  · exact (congrArg (Coherent env.table env.Public) hback).mpr halloc.coherent
  · exact (congrArg (LoadedThrough env.Public) hback).mpr halloc.through
  · show ((s.retarget env x.2 a).cache.pages y.1).status = .active ∧
      ∃ p, ((s.retarget env x.2 a).cache.pages y.1).pageId = some p ∧ _
    rw [(hpage y.1).1, (hpage y.1).2]
    rcases mem_cons.1 hy with rfl | hy
    · exact ⟨hact, x.2, hid, hnodup.1⟩
    · obtain ⟨hact', p, hp, hnp⟩ := h.moving y hy
      rw [hpend, map_cons, mem_cons, not_or] at hnp
      exact ⟨hact', p, hp, hnp.2⟩
  · show ((s.retarget env x.2 a).cache.pages b).status = .active
    rw [(hpage b).1]
    exact hwrite.writing w hw b hb

/-- The place of a page that is not cached is the one its mapping means. -/
theorem Restorable.toFile_eq (henv : env.Valid) (hm : env.Public m)
    (hswizzled : s.cache.isSwizzled m page = false) :
    s.cache.toFile (s.filePage env) m page = env.table m page := by
  have hne : m ≠ env.own := fun heq ↦ henv.own (heq ▸ hm)
  have hback := h.coherent.toFile_eq hm page
  rw [← hback, toFile, toFile, restore_slots]
  rw [isSwizzled] at hswizzled
  split at hswizzled
  · cases hswizzled
  · next hno =>
    split
    · next b hslot => exact absurd hslot (hno b)
    · rfl
    · rw [filePage, if_neg hne]

theorem Restorable.load (henv : env.Valid) {fp : ℕ} (hm : env.Public m)
    (hfp : s.cache.toFile (s.filePage env) m page = some fp)
    (hfree : (s.cache.pages a).status = .free) (hswizzled : s.cache.isSwizzled m page = false) :
    ({ s with cache := s.cache.startLoad m page a fp } : Compaction).Restorable env := by
  have hnot := h.notMem_moving (a := a) (by simp [hfree])
  have hfree' : ((s.cache.restore s.moving).pages a).status = .free := by
    rw [restore_status]
    exact hfree
  rw [h.toFile_eq henv hm hswizzled] at hfp
  refine h.others ?_ ?_ fun b hb _ ↦ ?_
  · rw [restore_startLoad hnot]
    exact h.coherent.startLoad hfree' hfp
  · rw [restore_startLoad hnot]
    exact h.through.startLoad h.coherent hfree' m page fp
  · have hne : b ≠ a := fun hba ↦ by
      rw [hba, hfree] at hb
      cases hb
    exact update_of_ne hne _ _

/-- A page under a read is on no list, so it has not been moved. -/
theorem Restorable.detached (hmem : (a, m) ∈ s.cache.loads) :
    (s.cache.pages a).status = .detached ∧ a ∉ s.moving.map (·.1) := by
  have hdet := h.coherent.load (a, m) (by rw [restore_loads]; exact hmem)
  rw [restore_status] at hdet
  exact ⟨hdet, h.notMem_moving (by simp [hdet])⟩

theorem Restorable.loaded (hmem : (a, m) ∈ s.cache.loads) :
    ({ s with cache := s.cache.finishLoad a m } : Compaction).Restorable env := by
  obtain ⟨hdet, hnot⟩ := h.detached hmem
  refine h.others ?_ ?_ fun b hb _ ↦ ?_
  · rw [restore_finishLoad hnot]
    exact h.coherent.finishLoad (by rw [restore_loads]; exact hmem)
  · rw [restore_finishLoad hnot]
    exact h.through.finishLoad a m
  · have hne : b ≠ a := fun hba ↦ by
      rw [hba, hdet] at hb
      cases hb
    exact update_of_ne hne _ _

theorem Restorable.loadFails (hmem : (a, m) ∈ s.cache.loads) :
    ({ s with cache := s.cache.failLoad a m } : Compaction).Restorable env := by
  obtain ⟨hdet, hnot⟩ := h.detached hmem
  have hmem' : (a, m) ∈ (s.cache.restore s.moving).loads := by
    rw [restore_loads]
    exact hmem
  refine h.others ?_ ?_ fun b hb _ ↦ ?_
  · rw [restore_failLoad hnot]
    exact h.coherent.failLoad hmem' fun m' hm' hne ↦ h.through.alone h.coherent hmem' hm' hne
  · rw [restore_failLoad hnot]
    exact h.through.failLoad h.coherent hmem'
  · have hne : b ≠ a := fun hba ↦ by
      rw [hba, hdet] at hb
      cases hb
    exact update_of_ne hne _ _

theorem Restorable.evict (hact : (s.cache.pages a).status = .active) (hpin : s.isPinned a = false) :
    ({ s with cache := s.cache.recycle env.isRegistered a } : Compaction).Restorable env := by
  obtain ⟨hnot, hwriting⟩ := not_or.1 (of_decide_eq_false hpin)
  refine h.others ?_ ?_ fun b _ hb ↦ ?_
  · rw [restore_recycle hnot]
    refine h.coherent.recycle (fun m hm ↦ ?_) (by rw [restore_status]; exact hact)
    rw [CompactEnv.isRegistered, hm, Bool.true_or]
  · rw [restore_recycle hnot]
    exact h.through.recycle _ a
  · have hne : b ≠ a := fun hba ↦ hb.elim (hba ▸ hnot) (hba ▸ hwriting)
    exact update_of_ne hne _ _

end

/-! ### Every run -/

/-- **Every cached page that is moved is written**: `WritePage` returns no error for it. -/
def MovesWritten (_ : Compaction) : CompactEvent → Prop
  | .move outcome => outcome = .ok
  | _ => True

instance (s : Compaction) (e : CompactEvent) : Decidable (MovesWritten s e) := by
  cases e <;> unfold MovesWritten <;> infer_instance

theorem Restorable.step (h : s.Restorable env) (henv : env.Valid) {e : CompactEvent}
    (hg : MovesWritten s e) (hstep : e.step env s = some s') :
    s'.phase = .committed ∨ s'.Restorable env := by
  cases e with
  | advance => exact .inr (h.advance hstep)
  | move outcome =>
    cases hg
    rw [CompactEvent.step] at hstep
    split at hstep
    · next endFileId scan batch x left uncached todo hphase =>
      split at hstep
      · cases hstep
        refine .inr (h.go (fun _ ↦ ⟨by rw [hphase]; rfl, rfl⟩) ?_ rfl)
        rw [hphase]
        exact sublist_cons_self _ _
      · next a hcached =>
        cases hstep
        exact .inr (h.move henv hphase hcached)
    · cases hstep
  | read ok =>
    rw [CompactEvent.step] at hstep
    split at hstep
    · next endFileId scan batch x uncached todo hphase =>
      split at hstep
      · cases hstep
        refine .inr (h.go (fun _ ↦ ⟨by rw [hphase]; rfl, rfl⟩) ?_ rfl)
        rw [hphase]
        exact refl _
      · cases hstep
        exact .inr h.fail
    · cases hstep
  | copy outcome =>
    rw [CompactEvent.step] at hstep
    split at hstep
    · next endFileId scan x left b bufs todo hphase =>
      obtain ⟨-, hstep⟩ := ite_none_right_eq_some.1 hstep
      have hd : s.phase.isData = true := by rw [hphase]; rfl
      have halloc := h.allocatePage hd x.2
      have hwrite := halloc.issue (w := ⟨x.2, s.newPlace, b.2, none⟩)
        (fun m hm p ↦ h.newPlace_ne hd hm p) fun a ha ↦ absurd ha (by simp)
      cases outcome with
      | ok =>
        cases hstep
        refine .inr (hwrite.go (fun _ ↦ ⟨hd, rfl⟩) ?_ rfl)
        show Sublist _ (s.phase.pending _)
        rw [hphase]
        exact refl _
      | failed =>
        cases hstep
        exact .inr hwrite.fail
      | refused =>
        cases hstep
        exact .inr halloc.fail
    · cases hstep
  | moveSegments outcome =>
    rw [CompactEvent.step] at hstep
    split at hstep
    · next endFileId scan x todo m hphase hm =>
      cases outcome with
      | ok =>
        cases hstep
        exact .inr (h.outside rfl rfl)
      | readFails =>
        cases hstep
        exact .inr h.fail
      | writeFails junk =>
        cases hstep
        have hplaced : ∀ d, (s.withSegments d).Restorable env := fun d ↦
          h.outside (by rw [hphase]; rfl) (by rw [hphase]; rfl)
        exact .inr (hplaced _).fail
    · cases hstep
  | flush ok =>
    obtain ⟨-, hstep⟩ := ite_none_right_eq_some.1 hstep
    split at hstep
    · obtain ⟨-, hstep⟩ := ite_none_left_eq_some.1 hstep
      cases hstep
      exact .inl rfl
    · cases hstep
      exact .inr h.fail
  | abort =>
    obtain ⟨⟨hphase, -⟩, rfl⟩ := ite_some_none_eq_some.1 hstep
    exact .inr (h.abort hphase)
  | complete w =>
    obtain ⟨hw, rfl⟩ := ite_some_none_eq_some.1 hstep
    exact .inr (h.finish henv hw true _)
  | writeFails w junk =>
    obtain ⟨hw, rfl⟩ := ite_some_none_eq_some.1 hstep
    exact .inr (h.finish henv hw false _)
  | load m page a =>
    obtain ⟨fp, hfp, hstep⟩ := bind_eq_some_iff.1 hstep
    obtain ⟨⟨hm, hfree, hswizzled⟩, rfl⟩ := ite_some_none_eq_some.1 hstep
    exact .inr (h.load henv hm hfp hfree hswizzled)
  | loaded a m =>
    obtain ⟨hmem, rfl⟩ := ite_some_none_eq_some.1 hstep
    exact .inr (h.loaded hmem)
  | loadFails a m =>
    obtain ⟨hmem, rfl⟩ := ite_some_none_eq_some.1 hstep
    exact .inr (h.loadFails hmem)
  | evict a =>
    obtain ⟨⟨hact, hpin⟩, rfl⟩ := ite_some_none_eq_some.1 hstep
    exact .inr (h.evict hact hpin)

theorem phase_committed {e : CompactEvent} (h : s.phase = .committed)
    (hstep : e.step env s = some s') : s'.phase = .committed := by
  cases e with
  | advance => simp [CompactEvent.step, Compaction.advance, h] at hstep
  | move outcome | read ok | copy outcome | moveSegments outcome | flush ok | abort =>
    simp [CompactEvent.step, h] at hstep
  | complete w | writeFails w junk =>
    obtain ⟨-, rfl⟩ := ite_some_none_eq_some.1 hstep
    rw [finish]
    split
    · exact h
    · split <;> first | exact h | split <;> exact h
  | load m page a =>
    obtain ⟨fp, -, hstep⟩ := bind_eq_some_iff.1 hstep
    obtain ⟨-, rfl⟩ := ite_some_none_eq_some.1 hstep
    exact h
  | loaded a m | loadFails a m | evict a =>
    obtain ⟨-, rfl⟩ := ite_some_none_eq_some.1 hstep
    exact h

/-- **A partition when its compaction starts.** The mappings that can be read through are coherent;
the task's may be anything. -/
structure Ready (env : CompactEnv) (s : Compaction) : Prop where
  phase : s.phase = .start
  moving : s.moving = []
  writes : s.writes = []
  coherent : Coherent env.table env.Public s.cache
  through : LoadedThrough env.Public s.cache
  append : env.opts.dataAppendMode = true → AllocatesBeyond env s.mapper

theorem Ready.restorable (h : s.Ready env) : s.Restorable env where
  coherent := by rw [h.moving]; exact h.coherent
  through := by rw [h.moving]; exact h.through
  append hd := absurd hd (by simp [h.phase, isData])
  fresh w hw := absurd hw (by simp [h.writes])
  moving x hx := absurd hx (by simp [h.moving])
  writing w hw := absurd hw (by simp [h.writes])
  pending := by rw [h.phase]; exact nodup_nil
  unmoved _ := h.moving
  start _ := h.append
  collected page fpIds heq := absurd (h.phase.symm.trans heq) (by simp)

/-- **The cached pages have their committed file pages**, through every mapping that can be read
through: so have the words of the mappings, after the recycling of any page too, and a read finds
what is at the committed file page. -/
structure Committed (env : CompactEnv) (c : PageCache) : Prop where
  place : ∀ m, env.Public m → ∀ p a, c.slots m p = some (.pointer a) →
    (c.pages a).pageId = some p ∧ (c.pages a).filePageId = env.table m p
  word : ∀ m, env.Public m → ∀ p, c.toFile env.table m p = env.table m p
  evicted : ∀ a, (c.pages a).status = .active → ∀ m, env.Public m → ∀ p,
    (c.recycle env.isRegistered a).toFile env.table m p = env.table m p
  read : ∀ m, env.Public m → ∀ p, c.read env.table m p = (env.table m p).bind c.disk

theorem committed_of_coherent {c : PageCache} (h : Coherent env.table env.Public c) :
    Committed env c where
  place m hm p a hs := by
    obtain ⟨hid, f, hf, hT, -⟩ := h.slot m hm p _ hs
    exact ⟨hid, hf.trans hT.symm⟩
  word m hm p := h.toFile_eq hm p
  evicted a ha m hm p := by
    refine (h.recycle (fun k hk ↦ ?_) ha).toFile_eq hm p
    rw [CompactEnv.isRegistered, hk, Bool.true_or]
  read m hm p := h.read_eq hm p

end Compaction

/-! ### Where compactions start -/

namespace CachedPartition

/-- What is fixed while the partition is compacted. -/
def compactEnv (opts : KvOptions) (s : CachedPartition) : CompactEnv :=
  ⟨opts, s.gen, s.isPublic, s.filePage⟩

/-- **A compaction starts** with the mappings that its task has copied. -/
def compaction (s : CachedPartition) : Option Compaction :=
  s.part.task.map fun t ↦
    { cache := s.cache
      mapper := t.cow.mapper
      segmentMapper := t.cow.segmentMapper
      segments := s.segments }

theorem compactEnv_valid (opts : KvOptions) (s : CachedPartition) : (s.compactEnv opts).Valid where
  gen := isPublic_gen
  own hk := by
    obtain ⟨-, hle⟩ := isPublic_iff.1 hk
    exact Nat.not_succ_le_self _ hle

end CachedPartition

/-- **A partition whose pointers can be relied on is ready.** -/
theorem CopiedPartition.Inv.ready {opts : KvOptions} {x : CopiedPartition} {s₀ : Compaction}
    (h : CopiedPartition.Inv opts x) (hs₀ : x.cached.compaction = some s₀) :
    s₀.Ready (x.cached.compactEnv opts) := by
  obtain ⟨t, ht, rfl⟩ := map_eq_some_iff.1 hs₀
  have hlive : ∀ k, (x.cached.compactEnv opts).Public k → x.cached.isRegistered k = true :=
    fun k hk ↦ isRegistered_of_isPublic hk
  refine ⟨rfl, rfl, rfl, h.coherent.cache.mono hlive fun _ _ ↦ rfl, h.through.mono hlive,
    fun happ ↦ ?_⟩
  refine ⟨((h.coherent.order.append happ).task t ht _ rfl).1.1, fun k hk p f hf ↦ ?_⟩
  exact h.coherent.order.mapped_lt happ ht (mem_mappedPages_of_isPublic hk hf)

namespace Compaction

variable {env : CompactEnv} {s : Compaction}

/-- **After a compaction that has failed**, wherever it failed, every cached page has its committed
file page again, if the cached pages that were moved have been written. -/
theorem committed_of_aborted {s₀ : Compaction} (henv : env.Valid) (h₀ : s₀.Ready env)
    (hrun : CompactRuns env MovesWritten s₀ s) (habort : s.phase = .aborted) :
    Committed env s.cache := by
  have hinv : s.phase = .committed ∨ s.Restorable env := by
    refine hrun.invariant (fun s ↦ s.phase = .committed ∨ s.Restorable env) (.inr h₀.restorable) ?_
    rintro s e s' (hdone | h) hg hstep
    · exact .inl (phase_committed hdone hstep)
    · exact h.step henv hg hstep
  obtain hdone | h := hinv
  · cases habort.symm.trans hdone
  · have hcoh := h.coherent
    rw [h.unmoved (by rw [habort]; rfl)] at hcoh
    exact committed_of_coherent hcoh

/-- A file has two pages, and a file with less than two mapped ones is compacted. -/
def pairOptions : KvOptions := ⟨true, 1, 1, 1000000, 1, 1, false, "", ""⟩

/-- A partition with a data file of which one page is still mapped, and one of which both are; all
three pages are cached. A task has copied the mappings. -/
def sealedEvents : List CacheEvent :=
  CachedPartition.createEvents ++
    [.begin, .copyChunk, .endCopy, .register, .write (some 1) 12 (some 2),
      .complete ⟨.data, 1, 2, 12, some 2⟩, .write none 13 (some 3),
      .complete ⟨.data, 2, 3, 13, some 3⟩, .commit, .begin, .copyChunk, .endCopy, .register]

/-- The compaction up to the first page that is moved. -/
def scanEvents : List CompactEvent :=
  [.advance, .advance, .advance, .advance, .advance, .advance]

/-- A compaction moves a cached page and fails when its manifest is written. -/
theorem committed_of_aborted_manifest :
    ∃ (env : CompactEnv) (s₀ s : Compaction), env.Valid ∧ s₀.Ready env ∧
      CompactRuns env MovesWritten s₀ s ∧ s.phase = .aborted ∧ s.cache.disk 4 = some 10 ∧
      s.cache.slots env.gen 0 = some (.pointer 0) ∧ env.table env.gen 0 = some 0 ∧
      Committed env s.cache := by
  obtain ⟨x, s₀, s, hx, hs₀, hrun, hphase, hdisk, hslot, htable⟩ : ∃ (x : CopiedPartition)
      (s₀ s : Compaction),
      CopiedRuns pairOptions CopiedPartition.Unshared { cached := .fresh "main" 0 } x ∧
      x.cached.compaction = some s₀ ∧
      CompactRuns (x.cached.compactEnv pairOptions) MovesWritten s₀ s ∧ s.phase = .aborted ∧
      s.cache.disk 4 = some 10 ∧ s.cache.slots x.cached.gen 0 = some (.pointer 0) ∧
      x.cached.filePage x.cached.gen 0 = some 0 :=
    Transition.exists_reach_start_of_exec sealedEvents
      (scanEvents ++ [.move .ok, .advance, .complete ⟨0, 4, some 10, some 0⟩, .advance, .advance,
        .advance, .advance, .advance, .flush false, .abort])
      (by decide +kernel)
  have hready := (CopiedPartition.inv_of_runs hx).ready hs₀
  have henv := x.cached.compactEnv_valid pairOptions
  exact ⟨_, s₀, s, henv, hready, hrun, hphase, hdisk, hslot, htable,
    committed_of_aborted henv hready hrun hphase⟩

/-- **A cached page whose write is refused keeps the new file page.** The published mapping points
to it, and when it is recycled, a read finds nothing where the mapping then leads. -/
theorem refused_move_lost :
    ∃ (env : CompactEnv) (s₀ s : Compaction), env.Valid ∧ s₀.Ready env ∧
      CompactRuns env (fun _ _ ↦ True) s₀ s ∧ s.phase = .aborted ∧
      s.cache.slots env.gen 0 = some (.pointer 0) ∧ (s.cache.pages 0).filePageId = some 4 ∧
      env.table env.gen 0 = some 0 ∧ s.cache.disk 0 = some 10 ∧
      (s.cache.recycle env.isRegistered 0).read env.table env.gen 0 = none ∧
      ¬ Committed env s.cache := by
  obtain ⟨x, s₀, s, hx, hs₀, hrun, hphase, hslot, hplace, htable, hdisk, hread⟩ : ∃
      (x : CopiedPartition) (s₀ s : Compaction), CopiedRuns pairOptions CopiedPartition.Unshared
      { cached := .fresh "main" 0 } x ∧ x.cached.compaction = some s₀ ∧
      CompactRuns (x.cached.compactEnv pairOptions) (fun _ _ ↦ True) s₀ s ∧ s.phase = .aborted ∧
      s.cache.slots x.cached.gen 0 = some (.pointer 0) ∧ (s.cache.pages 0).filePageId = some 4 ∧
      x.cached.filePage x.cached.gen 0 = some 0 ∧ s.cache.disk 0 = some 10 ∧
      (s.cache.recycle (x.cached.compactEnv pairOptions).isRegistered 0).read x.cached.filePage
      x.cached.gen 0 = none :=
    Transition.exists_reach_start_of_exec sealedEvents
      (scanEvents ++ [.move .refused, .abort]) (by decide +kernel)
  refine ⟨_, s₀, s, x.cached.compactEnv_valid pairOptions,
    (CopiedPartition.inv_of_runs hx).ready hs₀, hrun, hphase, hslot, hplace, htable, hdisk, hread,
    fun h ↦ ?_⟩
  have heq := (h.place _ isPublic_gen 0 0 hslot).2
  cases hplace.symm.trans (heq.trans htable)

end Compaction

end EloqStore
