import EloqStore.Partition.CacheRuns

/-!
# A write that fails leaves nothing behind

A write that fails at any step, whatever readers do meanwhile, is aborted. Until then and after it
the partition's root is as before the attempt, but for the file pages that readers have returned to
the pool by releasing replaced mappings, and every page read through the published mapping has the
content it had.

The content of a page is what is on disk as long as the cached pages can be relied on
(`Coherent.readPage_eq`), and a page write goes to a file page that the published mapping does not
use. **It is not so for every run.** The copy of the data mapping is registered with the partition's
mappings only after the segment mapping has been copied as well. A cached page that is recycled in
between stays pointed to by the copy; if that task commits, the published mapping points to a free
cached page. The next write takes the free page for a page of its own, and when it is aborted its
content stays behind (`aborted_write_visible`). `Current` excludes this.
-/

namespace EloqStore

open Function Option EloqStore.Partition PinEvent

/-- **What a partition has published**: its root, and the file pages that wait for the readers of
replaced mappings. The dictionary is left out, since a running task builds the shared one. A
partition without an entry has an empty root. -/
def Partition.publishedRoot (s : Partition) : RootMeta × List (List ℕ) :=
  ({ s.entry.getD {} with compression := none }, s.pendingFree)

/-- The readers of the oldest replaced mapping are gone: the file pages that waited for them enter
the pool. -/
def releaseOldest : RootMeta × List (List ℕ) → RootMeta × List (List ℕ)
  | (root, []) => (root, [])
  | (root, fps :: rest) =>
    ({ root with mapper := root.mapper.map fun m ↦
        { m with allocator := Partition.freeToPool m.allocator fps } }, rest)

namespace Partition

variable {opts : KvOptions} {s s' : Partition}

theorem publishedRoot_freeMappingSnapshot (s : Partition) :
    s.freeMappingSnapshot.publishedRoot = releaseOldest s.publishedRoot := by
  unfold freeMappingSnapshot
  split
  · next hpend => simp only [publishedRoot, hpend, releaseOldest]
  · next fps rest hpend =>
    simp only [publishedRoot, hpend, releaseOldest]
    cases s.entry <;> rfl

theorem publishedRoot_makeCowRoot (opts : KvOptions) (h : s.entry = none → s.manifest = none) :
    (s.makeCowRoot opts).publishedRoot = s.publishedRoot := by
  have hfind := findRoot_eq opts h
  unfold makeCowRoot
  rw [hfind]
  dsimp only
  split
  · next root hroot => split <;> simp only [publishedRoot, hroot]
  · next hroot => simp only [publishedRoot, hroot, Option.getD_some, Option.getD_none]

theorem publishedRoot_taskStep {a : TaskStep} (h : s.taskStep opts a = .ok s') :
    s'.publishedRoot = s.publishedRoot := by
  obtain ⟨t, ht, -⟩ := taskStep_ok h
  obtain ⟨t', -, hc⟩ := taskStep_change ht h
  obtain ⟨f, hentry⟩ := hc.entry
  simp only [publishedRoot, hentry, hc.pendingFree]
  cases s.entry <;> rfl

theorem mappers_of_publishedRoot (s : Partition) :
    s.publishedMapper = s.publishedRoot.1.mapper ∧
      s.publishedSegments = s.publishedRoot.1.segmentMapper := by
  rw [publishedMapper, publishedSegments, mappers, publishedRoot]
  cases s.entry <;> exact ⟨rfl, rfl⟩

end Partition

theorem denote_releaseOldest (x : RootMeta × List (List ℕ)) (page : ℕ) :
    denote (releaseOldest x).1.mapper page = denote x.1.mapper page ∧
      (releaseOldest x).1.segmentMapper = x.1.segmentMapper := by
  obtain ⟨root, pend⟩ := x
  cases pend with
  | nil => exact ⟨rfl, rfl⟩
  | cons fps rest =>
    refine ⟨?_, rfl⟩
    show denote (root.mapper.map _) page = denote root.mapper page
    cases root.mapper <;> rfl

namespace CachedPartition

variable {opts : KvOptions} {s s' : CachedPartition} {e : CacheEvent}

/-! ### One event -/

section

variable (h : s.Coherent opts)

include h

/-- **An event other than a commit** publishes nothing, and at most a replaced mapping is released.
-/
theorem Coherent.publishedRoot_event (hne : e ≠ .commit) (hrun : e.run opts s = some s') :
    s'.gen = s.gen ∧
      (s'.part.publishedRoot = s.part.publishedRoot ∨
        s'.part.publishedRoot = releaseOldest s.part.publishedRoot) := by
  obtain ⟨hgen, hpinned, -⟩ := CacheEvent.frame hrun
  refine ⟨hgen.trans (if_neg hne), ?_⟩
  rw [part]
  rcases hpinned with ⟨pe, p, hp, heq, hcommit⟩ | ⟨-, m?, heq⟩ <;> rw [heq]
  · cases pe with
    | begin =>
      obtain ⟨-, rfl⟩ := ite_some_none_eq_some.1 hp
      exact .inl (publishedRoot_makeCowRoot opts h.order.loaded)
    | step b =>
      obtain ⟨-, p', hstep, rfl⟩ := step_ok hp
      exact .inl (publishedRoot_taskStep hstep)
    | commit => exact absurd (hcommit.1 rfl) hne
    | abort =>
      obtain ⟨-, ⟨⟩⟩ := ite_none_left_eq_some.1 hp
      exact .inl rfl
    | release =>
      obtain ⟨fps, rest, -, rfl⟩ := release_ok hp
      exact .inr (publishedRoot_freeMappingSnapshot s.part)
  · exact .inl rfl

theorem Coherent.mappings_event (hne : e ≠ .commit) (hrun : e.run opts s = some s') :
    s'.filePage s'.gen = s.filePage s.gen ∧
      s'.part.publishedSegments = s.part.publishedSegments := by
  obtain ⟨-, hpub⟩ := h.publishedRoot_event hne hrun
  have hmap := mappers_of_publishedRoot s.part
  have hmap' := mappers_of_publishedRoot s'.part
  constructor
  · funext page
    rw [filePage_gen, filePage_gen, hmap.1, hmap'.1]
    rcases hpub with hpub | hpub <;> rw [hpub]
    exact (denote_releaseOldest _ page).1
  · rw [hmap.2, hmap'.2]
    rcases hpub with hpub | hpub <;> rw [hpub]
    exact (denote_releaseOldest _ 0).2

/-- The end of a write leaves alone what the published mappings use. -/
theorem Coherent.disk_finish {w : PageWrite} (hw : w ∈ s.writes) (ok : Bool) (v : Option ℕ) :
    (∀ page fp, s.filePage s.gen page = some fp →
      (s.finish w ok v).cache.disk fp = s.cache.disk fp) ∧
      ∀ m, s.part.publishedSegments = some m → ∀ fp < m.allocator.maxFpId,
        (s.finish w ok v).segments fp = s.segments fp := by
  have hdata : w.cls = .data → ∀ page fp, s.filePage s.gen page = some fp →
      update s.cache.disk w.fp v fp = s.cache.disk fp := by
    intro hcls page fp hfp
    have hne : fp ≠ w.fp := fun heq ↦
      (h.dataWrites w hw hcls).unused s.gen isPublic_gen page (heq ▸ hfp)
    exact update_of_ne hne _ _
  unfold CachedPartition.finish
  split
  · next hcls =>
    refine ⟨fun _ _ _ ↦ rfl, fun m hm fp hlt ↦ update_of_ne ?_ _ _⟩
    have hge := h.segmentWrites w hw hcls m hm
    omega
  · next hcls _ => exact ⟨hdata hcls, fun _ _ _ _ ↦ rfl⟩
  · next hcls _ =>
    refine ⟨fun page fp hfp ↦ ?_, fun _ _ _ _ ↦ rfl⟩
    cases ok <;> exact hdata hcls page fp hfp

/-- **No event changes what the published mappings use on disk.** -/
theorem Coherent.disk_event (hrun : e.run opts s = some s') :
    (∀ page fp, s.filePage s.gen page = some fp → s'.cache.disk fp = s.cache.disk fp) ∧
      ∀ m, s.part.publishedSegments = some m → ∀ fp < m.allocator.maxFpId,
        s'.segments fp = s.segments fp := by
  rcases (CacheEvent.frame hrun).stored with ⟨w, hw, ok, v, rfl⟩ | ⟨hdisk, hsegments⟩
  · exact h.disk_finish hw ok v
  · rw [hdisk, hsegments]
    exact ⟨fun _ _ _ ↦ rfl, fun _ _ _ _ ↦ rfl⟩

theorem Coherent.readPage_eq (page : ℕ) :
    s.readPage page = (s.filePage s.gen page).bind s.cache.disk :=
  h.cache.read_eq (isRegistered_of_isPublic isPublic_gen) page

theorem Coherent.readPage_event (h' : s'.Coherent opts) (hne : e ≠ .commit)
    (hrun : e.run opts s = some s') (page : ℕ) : s'.readPage page = s.readPage page := by
  obtain ⟨hmap, -⟩ := h.mappings_event hne hrun
  rw [h.readPage_eq, h'.readPage_eq, hmap]
  cases hfp : s.filePage s.gen page with
  | none => rfl
  | some fp => exact (h.disk_event hrun).1 page fp hfp

theorem Coherent.readSegment_event (hne : e ≠ .commit) (hrun : e.run opts s = some s')
    (segment : ℕ) : s'.readSegment segment = s.readSegment segment := by
  obtain ⟨-, hmap⟩ := h.mappings_event hne hrun
  rw [readSegment, readSegment, ← publishedSegments_eq, ← publishedSegments_eq,
    hmap]
  cases hm : s.part.publishedSegments with
  | none => rfl
  | some m =>
    show (m.toFilePage segment).bind _ = (m.toFilePage segment).bind _
    cases hfp : m.toFilePage segment with
    | none => rfl
    | some fp =>
      have hlt : fp < m.allocator.maxFpId := (h.order.segment.published m hm).2.below segment fp hfp
      exact (h.disk_event hrun).2 m hm fp hlt

end

/-! ### Attempts -/

/-- The condition, for the events of attempts that do not commit. -/
def CurrentAttempt (s : CachedPartition) (e : CacheEvent) : Prop := Current s e ∧ e ≠ .commit

instance (s : CachedPartition) (e : CacheEvent) : Decidable (CurrentAttempt s e) :=
  inferInstanceAs (Decidable (_ ∧ _))

/-- **A write that fails leaves nothing behind.** After any events other than a commit, so after the
abort of an attempt too, the partition has published what it had published before, up to the
releases of replaced mappings by readers, and every page and segment is read as before. -/
theorem published_of_aborted {branch : BranchName} {term : ℕ} {s₀ : CachedPartition}
    (hrun₀ : CacheRuns opts Current (fresh branch term) s₀)
    (hrun : CacheRuns opts CurrentAttempt s₀ s) :
    (∃ n, s.part.publishedRoot = releaseOldest^[n] s₀.part.publishedRoot) ∧
      (∀ page, s.readPage page = s₀.readPage page) ∧
      ∀ segment, s.readSegment segment = s₀.readSegment segment := by
  refine (hrun.invariant (fun s ↦ s.Coherent opts ∧
      (∃ n, s.part.publishedRoot = releaseOldest^[n] s₀.part.publishedRoot) ∧
      (∀ page, s.readPage page = s₀.readPage page) ∧
      ∀ segment, s.readSegment segment = s₀.readSegment segment)
    ⟨coherent_of_runs hrun₀, ⟨0, rfl⟩, fun _ ↦ rfl, fun _ ↦ rfl⟩ ?_).2
  rintro s e s' ⟨hcoh, ⟨n, hpub⟩, hpage, hsegment⟩ ⟨hcur, hne⟩ hstep
  have hcoh' := hcoh.event hcur hstep
  refine ⟨hcoh', ?_, fun page ↦ ?_, fun segment ↦ ?_⟩
  · rcases (hcoh.publishedRoot_event hne hstep).2 with hsame | hrel
    · exact ⟨n, hsame.trans hpub⟩
    · refine ⟨n + 1, ?_⟩
      rw [hrel, hpub, iterate_succ_apply']
  · exact (hcoh.readPage_event hcoh' hne hstep page).trans (hpage page)
  · exact (hcoh.readSegment_event hne hstep segment).trans (hsegment segment)

/-- Append mode, two pages to a file. -/
def segmentOptions : KvOptions := ⟨true, 4, 1, 1000000, 2, 1, false, "", ""⟩

/-- A partition is created with two pages and a segment. -/
def createEvents : List CacheEvent :=
  [.begin, .write none 10 (some 0), .complete ⟨.data, 0, 0, 10, some 0⟩, .write none 11 (some 1),
    .complete ⟨.data, 1, 1, 11, some 1⟩, .step .ensureSegmentMapper, .writeSegment none 90,
    .complete ⟨.segment, 0, 0, 90, none⟩, .step (.setRoots (some 1) none 0), .commit]

/-- A write of page 1 fails after a write of page 0 has completed, with a cached page recycled in
between. -/
theorem published_of_aborted_witness : ∃ s₀ s,
    CacheRuns segmentOptions Current (fresh "main" 0) s₀ ∧
      CacheRuns segmentOptions CurrentAttempt s₀ s ∧
      (s₀.readPage 0 = some 10 ∧ s.part.task = none ∧ s.cache.disk 3 = some 77) ∧
      (∃ n, s.part.publishedRoot = releaseOldest^[n] s₀.part.publishedRoot) ∧
      (∀ page, s.readPage page = s₀.readPage page) ∧
      ∀ segment, s.readSegment segment = s₀.readSegment segment := by
  obtain ⟨s₀, s, hrun₀, hrun, hp⟩ : ∃ s₀ s, CacheRuns segmentOptions Current (fresh "main" 0) s₀ ∧
      CacheRuns segmentOptions CurrentAttempt s₀ s ∧ s₀.readPage 0 = some 10 ∧ s.part.task = none ∧
      s.cache.disk 3 = some 77 :=
    Transition.exists_reach_reach_of_exec createEvents
      [.begin, .copyChunk, .endCopy, .register, .write (some 0) 20 (some 2),
        .complete ⟨.data, 0, 2, 20, some 2⟩, .evict 0, .write (some 1) 30 (some 0),
        .fail ⟨.data, 1, 3, 30, some 0⟩ (some 77), .abort]
      (by decide +kernel)
  exact ⟨s₀, s, hrun₀, hrun, hp, published_of_aborted hrun₀ hrun⟩

/-- **An aborted write can be visible.** A cached page is recycled while the segment mapping is
being copied, and the copy of the data mapping, which points to it, is committed. The next write
takes the cached page, and is aborted; a read of the old page through the published mapping then
gives what the aborted write was to write. -/
theorem aborted_write_visible : ∃ s₀ s,
    CacheRuns segmentOptions (fun _ _ ↦ True) (fresh "main" 0) s₀ ∧
      CacheRuns segmentOptions (fun _ e ↦ e ≠ .commit) s₀ s ∧
      s₀.part.task = none ∧ s.part.task = none ∧
      s₀.readPage 0 = some 10 ∧ s.readPage 0 = some 30 :=
  Transition.exists_reach_reach_of_exec
    (createEvents ++
      [.begin, .copyChunk, .endCopy, .evict 0, .register, .write (some 1) 21 (some 2),
        .complete ⟨.data, 1, 2, 21, some 2⟩, .commit])
    [.begin, .copyChunk, .endCopy, .register, .write (some 1) 30 (some 0),
      .complete ⟨.data, 1, 3, 30, some 0⟩, .abort]
    (by decide +kernel)

end CachedPartition

end EloqStore
