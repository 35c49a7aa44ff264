import EloqStore.Partition.CachedPages
import EloqStore.Partition.FreshPages

/-!
# When the cached pages of a partition can be relied on

The invariant of `CachedPartition` (`Coherent`): file pages are handed out in order, every pointer
of a published, replaced or registered mapping is to a cached page that is that page, and a page
write under way goes to a file page that only the task's mapping uses.

Two events can break it. When the copy of the data mapping is **registered**, it may point to cached
pages that were recycled, or whose read failed, after the copying; and when a **read fails**, a copy
made while it was under way may point to its page. `Current` is the condition that neither happens,
on the state each event is taken in, and every event that meets it keeps the partition coherent.
-/

namespace EloqStore

open Function List Option EloqStore.Partition Swizzling.Cache CopyPhase

open Swizzling (Slot Status)

namespace CachedPartition

variable {opts : KvOptions} {s s' : CachedPartition} {k page fp a : ℕ} {t : WriteTask}

/-! ### Mappings and their tables -/

theorem isPublic_iff :
    s.isPublic k = true ↔ s.gen ≤ k + s.pinned.tables.length ∧ k ≤ s.gen := by
  simp [isPublic]

theorem isPublic_gen : s.isPublic s.gen = true := isPublic_iff.2 ⟨by omega, le_rfl⟩

theorem isRegistered_iff : s.isRegistered k = true ↔
    s.isPublic k = true ∨ k = s.gen + 1 ∧ s.phase = .registered := by
  simp [isRegistered]

theorem isRegistered_of_isPublic (h : s.isPublic k = true) : s.isRegistered k = true :=
  isRegistered_iff.2 (.inl h)

theorem isPublic_of_ne (h : s.isRegistered k = true) (hne : k ≠ s.gen + 1) : s.isPublic k = true :=
  (isRegistered_iff.1 h).resolve_right fun hk ↦ hne hk.1

theorem ne_own (h : s.isPublic k = true) : k ≠ s.gen + 1 := by
  have hle := (isPublic_iff.1 h).2
  omega

theorem filePage_own (ht : s.part.task = some t) :
    s.filePage (s.gen + 1) = t.cow.mapper.toFilePage := by
  funext p
  rw [filePage, tbl, if_pos rfl, ht]
  rfl

theorem filePage_gen (page : ℕ) : s.filePage s.gen page = denote s.part.publishedMapper page := by
  rw [filePage, tbl, if_neg (Nat.lt_succ_self _).ne, if_pos rfl]
  cases s.part.publishedMapper with
  | none => rfl
  | some m => rfl

theorem lt_length_of_filePage (h : s.filePage k page = some fp) : page < (s.tbl k).length := by
  by_contra hge
  rw [filePage, MappingTbl.toFilePage, getElem?_eq_none (not_lt.1 hge)] at h
  cases h

/-- A mapping that anyone can read through is a live one. -/
theorem mem_mappedPages_of_isPublic (hk : s.isPublic k = true) (h : s.filePage k page = some fp) :
    fp ∈ s.pinned.mappedPages := by
  obtain ⟨hge, hle⟩ := isPublic_iff.1 hk
  refine Pinned.mem_mappedPages.2 ?_
  by_cases hgen : k = s.gen
  · rw [hgen, filePage_gen] at h
    obtain ⟨m, hm, hfp⟩ := bind_eq_some_iff.1 h
    refine ⟨m.tbl, mem_append_left _ (mem_append_right _ ?_), page, hfp⟩
    exact mem_toList.2 (map_eq_some_iff.2 ⟨m, hm, rfl⟩)
  · rw [filePage, tbl, if_neg (by omega), if_neg hgen] at h
    have hlt : k + s.pinned.tables.length - s.gen < s.pinned.tables.length := by omega
    rw [getD_eq_getElem?_getD, getElem?_eq_getElem hlt] at h
    exact ⟨_, mem_append_left _ (mem_append_left _ (getElem_mem hlt)), page, h⟩

theorem mem_mappedPages_of_own (ht : s.part.task = some t)
    (h : s.filePage (s.gen + 1) page = some fp) : fp ∈ s.pinned.mappedPages := by
  rw [filePage_own ht] at h
  refine Pinned.mem_mappedPages.2 ⟨t.cow.mapper.tbl, mem_append_right _ ?_, page, h⟩
  simp [ht]

/-- Which table a mapping has depends on what is published and what was replaced. -/
theorem filePage_congr (hgen : s'.gen = s.gen) (htab : s'.pinned.tables = s.pinned.tables)
    (hpub : s'.part.publishedMapper = s.part.publishedMapper) (hk : k ≠ s.gen + 1) :
    s'.filePage k = s.filePage k := by
  funext p
  simp only [filePage, tbl, hgen, htab, hpub, if_neg hk]

theorem isPublic_congr (hgen : s'.gen = s.gen)
    (htab : s'.pinned.tables.length = s.pinned.tables.length) : s'.isPublic k = s.isPublic k := by
  simp only [isPublic, hgen, htab]

/-! ### The invariant -/

/-- Two writes are of different pages and from different cached pages. -/
def Apart (w w' : PageWrite) : Prop :=
  w.cls = .data → w'.cls = .data → w.page ≠ w'.page ∧ ∀ a, w.addr? = some a → w'.addr? ≠ some a

/-- A page write under way. -/
structure WriteOk (s : CachedPartition) (w : PageWrite) : Prop where
  own : s.filePage (s.gen + 1) w.page = some w.fp
  /-- The task's mapping has no pointer for it yet. -/
  bare : s.cache.slots (s.gen + 1) w.page = none
  /-- The task uses the file page for nothing else. -/
  only : ∀ p, s.filePage (s.gen + 1) p = some w.fp → p = w.page
  unused : ∀ k, s.isPublic k = true → ∀ p, s.filePage k p ≠ some w.fp
  /-- The cached page it is from is not being read into. -/
  cached : ∀ a, w.addr? = some a →
    s.cache.pages a = ⟨some w.page, some w.fp, some w.content, .detached⟩ ∧
      a ∉ s.cache.loads.map (·.1)

/-- **The cached pages of a partition can be relied on.** -/
structure Coherent (opts : KvOptions) (s : CachedPartition) : Prop where
  /-- File pages and segments are handed out in order. -/
  order : s.pinned.InOrder opts
  /-- Every replaced mapping has a number. -/
  held : s.pinned.tables.length ≤ s.gen
  /-- The slots of the partition's mappings can be relied on. -/
  cache : Swizzling.Coherent s.filePage (fun k ↦ s.isRegistered k = true) s.cache
  /-- Reads go through the partition's mappings. -/
  loads : ∀ x ∈ s.cache.loads, s.isRegistered x.2 = true
  /-- A task has a copy of the data mapping. -/
  idle : s.part.task = none ↔ s.phase = .idle
  /-- Until it is registered the copy means what the published mapping means. -/
  copy : s.phase ≠ .registered → s.phase ≠ .idle → s.filePage (s.gen + 1) = s.filePage s.gen
  /-- A converted pointer stood for the right file page. -/
  converted : ∀ chunk changed converted, s.phase = .copying chunk changed converted →
    ∀ x ∈ converted, s.filePage s.gen x.1 = some x.2
  /-- So do the file pages in the slots of the copy, and its pointers are within the table. -/
  copied : s.phase = .copied → ∀ p,
    (∀ f, s.cache.slots (s.gen + 1) p = some (.file f) → s.filePage (s.gen + 1) p = some f) ∧
      ∀ a, s.cache.slots (s.gen + 1) p = some (.pointer a) → p < (s.tbl (s.gen + 1)).length
  writing : s.writes ≠ [] → s.phase = .registered
  /-- Page writes go where nothing else is. -/
  dataWrites : ∀ w ∈ s.writes, w.cls = .data → s.WriteOk w
  segmentWrites : ∀ w ∈ s.writes, w.cls = .segment → ∀ m, s.part.publishedSegments = some m →
    m.allocator.maxFpId ≤ w.fp
  apart : s.writes.Pairwise Apart

theorem coherent_fresh (opts : KvOptions) (branch : BranchName) (term : ℕ) :
    (fresh branch term).Coherent opts where
  order := Pinned.inOrder_fresh opts branch term
  held := le_rfl
  cache := Swizzling.coherent_empty _ _
  loads _ h := absurd h (by simp [fresh, empty])
  idle := by simp [fresh, Pinned.fresh, Partition.fresh]
  copy _ h := absurd rfl h
  converted _ _ _ h := absurd h (by simp [fresh])
  copied h := absurd h (by simp [fresh])
  writing h := absurd rfl h
  dataWrites _ h := absurd h (by simp [fresh])
  segmentWrites _ h := absurd h (by simp [fresh])
  apart := .nil

/-- A write is framed by the mappings, and by what is cached for it. -/
theorem WriteOk.frame {w : PageWrite} (h : s.WriteOk w) (hgen : s'.gen = s.gen)
    (hown : s'.filePage (s.gen + 1) = s.filePage (s.gen + 1))
    (hpub : ∀ k, s'.isPublic k = true → s.isPublic k = true ∧ s'.filePage k = s.filePage k)
    (hbare : s'.cache.slots (s.gen + 1) w.page = none)
    (hcached : ∀ a, w.addr? = some a → s'.cache.pages a = s.cache.pages a ∧
      a ∉ s'.cache.loads.map (·.1)) : s'.WriteOk w where
  own := by rw [hgen, hown]; exact h.own
  bare := by rw [hgen]; exact hbare
  only p hp := by
    rw [hgen, hown] at hp
    exact h.only p hp
  unused k hk p hp := by
    obtain ⟨hk', heq⟩ := hpub k hk
    exact h.unused k hk' p (heq ▸ hp)
  cached a ha := by
    obtain ⟨hpage, hloads⟩ := hcached a ha
    exact ⟨hpage.trans (h.cached a ha).1, hloads⟩

/-! ### The condition -/

/-- **The copy and the cache agree.** When the copy is registered, every cached page it points to is
one the published mapping still points to; when a read fails, no mapping but the one it went through
points to its page. Ids keep all their bits in the lists of free ones. -/
def Current (s : CachedPartition) (e : CacheEvent) : Prop :=
  s.part.Small ∧
    match e with
    | .register => ∀ p < (s.tbl (s.gen + 1)).length, s.cache.isSwizzled (s.gen + 1) p = true →
        s.cache.slots s.gen p = s.cache.slots (s.gen + 1) p
    | .loadFails a k => ∀ k' < s.gen + 2, ∀ p < (s.tbl k').length,
        s.isRegistered k' = true ∧ k' ≠ k → s.cache.slots k' p ≠ some (.pointer a)
    | _ => True

instance decidableCurrent (e : CacheEvent) : Decidable (Current s e) :=
  @instDecidableAnd _ _ inferInstance <| match e with
    | .register | .loadFails .. => by
      dsimp only
      infer_instance
    | .begin | .copyChunk | .endCopy | .step _ | .write .. | .writeSegment .. | .complete _
    | .fail .. | .load .. | .loaded .. | .evict _ | .manifestFails _ | .commit | .abort
    | .release => .isTrue trivial

theorem Current.smallTables {e : CacheEvent} (h : Current s e) (e' : PinEvent) :
    SmallTables s.pinned e' := h.1

/-! ### Events of the page cache -/

/-- Setting a slot of the published mapping leaves the copy where it is. -/
theorem touch_eq_iff (phase : CopyPhase) (page? : Option ℕ) :
    (phase.touch page? = .registered ↔ phase = .registered) ∧
      (phase.touch page? = .copied ↔ phase = .copied) ∧
      (phase.touch page? = .idle ↔ phase = .idle) ∧
      ∀ chunk changed converted, phase.touch page? = .copying chunk changed converted →
        ∃ changed', phase = .copying chunk changed' converted := by
  cases phase with
  | copying chunk changed converted =>
    refine ⟨by simp [touch], by simp [touch], by simp [touch], ?_⟩
    intro chunk₁ changed₁ converted₁ heq
    obtain ⟨rfl, -, rfl⟩ := copying.inj heq
    exact ⟨changed, rfl⟩
  | idle | copied | registered =>
    refine ⟨Iff.rfl, Iff.rfl, Iff.rfl, fun chunk changed converted heq ↦ ?_⟩
    simp [touch] at heq

/-- **An event of the page cache** keeps the partition coherent if it keeps the cache coherent, and
leaves alone the pages that are being written and the slots of a copy that is not registered. -/
theorem Coherent.setCache (h : s.Coherent opts) {cache : PageCache} {phase : CopyPhase}
    (hphase : ∃ page?, phase = s.phase.touch page?)
    (hcache : Swizzling.Coherent s.filePage (fun k ↦ s.isRegistered k = true) cache)
    (hloads : ∀ x ∈ cache.loads, s.isRegistered x.2 = true)
    (hown : s.phase ≠ .registered → cache.slots (s.gen + 1) = s.cache.slots (s.gen + 1))
    (hbare : ∀ w ∈ s.writes, w.cls = .data → cache.slots (s.gen + 1) w.page = none)
    (hpages : ∀ a, (s.cache.pages a).status = .detached → a ∉ s.cache.loads.map (·.1) →
      cache.pages a = s.cache.pages a ∧ a ∉ cache.loads.map (·.1)) :
    ({ s with cache := cache, phase := phase } : CachedPartition).Coherent opts := by
  obtain ⟨page?, rfl⟩ := hphase
  obtain ⟨hreg, hcopied, hidle, hcopying⟩ := touch_eq_iff s.phase page?
  have hregistered : ∀ k, ({ s with cache := cache, phase := s.phase.touch page? } :
      CachedPartition).isRegistered k = s.isRegistered k := by
    intro k
    show (s.isPublic k || decide (k = s.gen + 1 ∧ s.phase.touch page? = .registered)) = _
    rw [isRegistered]
    simp only [hreg]
  refine
    { __ := h
      cache := hcache.mono (fun k hk ↦ hregistered k ▸ hk) fun _ _ ↦ rfl
      loads := fun x hx ↦ (hregistered x.2).trans (hloads x hx)
      idle := h.idle.trans hidle.symm
      copy := fun hnr hni ↦ h.copy (fun hr ↦ hnr (hreg.2 hr)) fun hi ↦ hni (hidle.2 hi)
      converted := fun chunk changed converted heq ↦ ?_
      copied := fun heq p ↦ ?_
      writing := fun hne ↦ hreg.2 (h.writing hne)
      dataWrites := fun w hw hcls ↦ ?_
      apart := h.apart }
  · obtain ⟨changed', heq'⟩ := hcopying chunk changed converted heq
    exact h.converted chunk changed' converted heq'
  · have heq' : s.phase = .copied := hcopied.1 heq
    rw [hown (by simp [heq'])]
    exact h.copied heq' p
  · have hok := h.dataWrites w hw hcls
    refine hok.frame rfl rfl (fun k hk ↦ ⟨hk, rfl⟩) (hbare w hw hcls) fun a ha ↦ ?_
    obtain ⟨hpage, hfree⟩ := hok.cached a ha
    exact hpages a (by rw [hpage]) hfree

/-- The slot of a page that is being written has no pointer yet. -/
theorem Coherent.slot_eq_none (h : s.Coherent opts) {w : PageWrite} (hw : w ∈ s.writes)
    (hcls : w.cls = .data) : s.cache.slots (s.gen + 1) w.page = none :=
  (h.dataWrites w hw hcls).bare

/-- Only a registered task's mapping is one of the partition's mappings. -/
theorem own_ne (hk : s.isRegistered k = true) (hphase : s.phase ≠ .registered) : s.gen + 1 ≠ k := by
  rcases isRegistered_iff.1 hk with hpub | ⟨-, hreg⟩
  · exact (ne_own hpub).symm
  · exact absurd hreg hphase

theorem mem_writing {w : PageWrite} (hw : w ∈ s.writes) (hcls : w.cls = .data) :
    w.page ∈ s.writing :=
  mem_map.2 ⟨w, mem_filter.2 ⟨hw, decide_eq_true hcls⟩, rfl⟩

theorem touch_none (phase : CopyPhase) : phase.touch none = phase := by
  cases phase <;> rfl

theorem exists_touch (c : Prop) [Decidable c] (phase : CopyPhase) (page? : Option ℕ) :
    ∃ page₁, (if c then phase.touch page? else phase) = phase.touch page₁ := by
  split
  · exact ⟨page?, rfl⟩
  · exact ⟨none, (touch_none phase).symm⟩

theorem Coherent.load (h : s.Coherent opts) (hfp : s.cache.toFile s.filePage k page = some fp)
    (hk : s.isRegistered k = true) (hnew : k = s.gen + 1 → page ∉ s.writing)
    (ha : (s.cache.pages a).status = .free) :
    ({ s with
        cache := s.cache.startLoad k page a fp
        phase := if k = s.gen then s.phase.touch (some page) else s.phase } :
      CachedPartition).Coherent opts := by
  have hT : s.filePage k page = some fp := (h.cache.toFile_eq hk page).symm.trans hfp
  refine h.setCache (exists_touch _ _ _) (h.cache.startLoad ha hT) ?_ (fun hphase ↦ ?_)
    (fun w hw hcls ↦ ?_) fun b hb hload ↦ ?_
  · intro x hx
    rcases mem_cons.1 hx with rfl | hx
    · exact hk
    · exact h.loads x hx
  · exact update_of_ne (own_ne hk hphase) _ _
  · show update s.cache.slots k _ (s.gen + 1) w.page = none
    by_cases hkg : s.gen + 1 = k
    · have hne : w.page ≠ page := fun heq ↦ hnew hkg.symm (heq ▸ mem_writing hw hcls)
      rw [← hkg, update_self, update_of_ne hne]
      exact h.slot_eq_none hw hcls
    · rw [update_of_ne hkg]
      exact h.slot_eq_none hw hcls
  · have hne : b ≠ a := fun heq ↦ by simp [heq, ha] at hb
    refine ⟨update_of_ne hne _ _, fun hmem ↦ ?_⟩
    rcases mem_cons.1 hmem with heq | hmem
    · exact hne heq
    · exact hload hmem

theorem Coherent.loaded (h : s.Coherent opts) (hmem : (a, k) ∈ s.cache.loads) :
    ({ s with cache := s.cache.finishLoad a k } : CachedPartition).Coherent opts := by
  refine h.setCache ⟨none, (touch_none _).symm⟩ (h.cache.finishLoad hmem)
    (fun x hx ↦ h.loads x (mem_of_mem_erase hx)) (fun _ ↦ rfl)
    (fun w hw hcls ↦ h.slot_eq_none hw hcls) fun b hb hload ↦ ?_
  have hne : b ≠ a := fun heq ↦ hload (heq ▸ mem_map.2 ⟨_, hmem, rfl⟩)
  refine ⟨update_of_ne hne _ _, fun hmem' ↦ hload ?_⟩
  exact (erase_sublist.map _).subset hmem'

/-- A pointer of one of the partition's mappings is within its table. -/
theorem Coherent.lt_length (h : s.Coherent opts) (hk : s.isRegistered k = true)
    (hs : s.cache.slots k page = some (.pointer a)) : page < (s.tbl k).length := by
  obtain ⟨-, f, -, hT, -⟩ := h.cache.slot k hk page _ hs
  exact lt_length_of_filePage hT

theorem isRegistered_lt (hk : s.isRegistered k = true) : k < s.gen + 2 := by
  rcases isRegistered_iff.1 hk with hpub | ⟨rfl, -⟩
  · have := (isPublic_iff.1 hpub).2
    omega
  · omega

/-- A slot of the task's mapping without a pointer stays as it is. -/
theorem unswizzled_eq_none {a : ℕ} (hs : s.cache.slots k page = none) :
    s.cache.unswizzled a k page = none := by
  rw [unswizzled, if_neg (by simp [hs]), hs]

/-- **A read fails**, and no mapping but the one it went through points to its page. -/
theorem Coherent.loadFails (h : s.Coherent opts) (hmem : (a, k) ∈ s.cache.loads)
    (hcur : Current s (.loadFails a k)) :
    ({ s with
        cache := s.cache.failLoad a k
        phase := if k = s.gen then s.phase.touch (s.pointedFor a) else s.phase } :
      CachedPartition).Coherent opts := by
  have hk : s.isRegistered k = true := h.loads _ hmem
  refine h.setCache (exists_touch _ _ _) (h.cache.failLoad hmem fun k' hk' hne p hs ↦ ?_)
    (fun x hx ↦ h.loads x (mem_of_mem_erase hx)) (fun hphase ↦ ?_) (fun w hw hcls ↦ ?_)
    fun b hb hload ↦ ?_
  · exact hcur.2 k' (isRegistered_lt hk') p (h.lt_length hk' hs) ⟨hk', hne⟩ hs
  · exact update_of_ne (own_ne hk hphase) _ _
  · show update s.cache.slots k _ (s.gen + 1) w.page = none
    by_cases hkg : s.gen + 1 = k
    · rw [← hkg, update_self]
      exact unswizzled_eq_none (h.slot_eq_none hw hcls)
    · rw [update_of_ne hkg]
      exact h.slot_eq_none hw hcls
  · have hne : b ≠ a := fun heq ↦ hload (heq ▸ mem_map.2 ⟨_, hmem, rfl⟩)
    refine ⟨update_of_ne hne _ _, fun hmem' ↦ hload ?_⟩
    exact (erase_sublist.map _).subset hmem'

/-- **A cached page is recycled.** -/
theorem Coherent.evict (h : s.Coherent opts) (ha : (s.cache.pages a).status = .active) :
    ({ s with
        cache := s.cache.recycle s.isRegistered a
        phase := s.phase.touch (s.pointedFor a) } : CachedPartition).Coherent opts := by
  refine h.setCache ⟨_, rfl⟩ (h.cache.recycle (fun _ hk ↦ hk) ha) h.loads (fun hphase ↦ ?_)
    (fun w hw hcls ↦ ?_) fun b hb hload ↦ ?_
  · exact if_neg fun hk ↦ own_ne hk hphase rfl
  · show (if s.isRegistered (s.gen + 1) = true then _ else _ : ℕ → Option (Slot ℕ ℕ)) w.page = none
    split
    · exact unswizzled_eq_none (h.slot_eq_none hw hcls)
    · exact h.slot_eq_none hw hcls
  · have hne : b ≠ a := fun heq ↦ by simp [heq, ha] at hb
    exact ⟨update_of_ne hne _ _, hload⟩

/-! ### Copying the data mapping -/

theorem Coherent.writes_eq_nil (h : s.Coherent opts) (hphase : s.phase ≠ .registered) :
    s.writes = [] := by
  by_contra hne
  exact hphase (h.writing hne)

/-- Without a registered task the partition's mappings are those anyone can read through. -/
theorem isRegistered_eq_isPublic (hphase : s.phase ≠ .registered) (k : ℕ) :
    s.isRegistered k = s.isPublic k := by
  rw [isRegistered, decide_eq_false fun hk ↦ hphase hk.2, Bool.or_false]

/-- The slots of the published mapping when the task's are set. -/
theorem setSlots_gen (slots : ℕ → Option (Slot ℕ ℕ)) :
    (s.cache.setSlots (s.gen + 1) slots).slots s.gen = s.cache.slots s.gen :=
  update_of_ne (Nat.lt_succ_self _).ne _ _

theorem setSlots_own (slots : ℕ → Option (Slot ℕ ℕ)) :
    (s.cache.setSlots (s.gen + 1) slots).slots (s.gen + 1) = slots :=
  update_self _ _ _

/-- **The copy becomes one of the partition's mappings**, if the slots it has can be relied on. -/
theorem Coherent.registered (h : s.Coherent opts) (hphase : s.phase ≠ .registered)
    (hidle : s.phase ≠ .idle)
    (hfile : ∀ p f, s.cache.slots (s.gen + 1) p = some (.file f) →
      s.filePage (s.gen + 1) p = some f)
    (hptr : ∀ p a, s.cache.slots (s.gen + 1) p = some (.pointer a) →
      s.cache.slots s.gen p = some (.pointer a)) :
    ({ s with phase := .registered } : CachedPartition).Coherent opts := by
  have hadd := h.cache.add_copy (isRegistered_of_isPublic isPublic_gen) (h.copy hphase hidle)
    hfile hptr
  have hnil := h.writes_eq_nil hphase
  have hsub : ∀ k, ({ s with phase := .registered } : CachedPartition).isRegistered k = true →
      s.isRegistered k = true ∨ k = s.gen + 1 := fun k hk ↦
    (isRegistered_iff.1 hk).imp isRegistered_of_isPublic And.left
  exact
    { __ := h
      cache := hadd.mono hsub fun _ _ ↦ rfl
      loads := fun x hx ↦ isRegistered_of_isPublic <|
        (isRegistered_eq_isPublic hphase x.2).symm.trans (h.loads x hx)
      idle := ⟨fun hnone ↦ absurd (h.idle.1 hnone) hidle, by simp⟩
      copy := absurd rfl
      converted := by simp
      copied := by simp
      writing := fun _ ↦ rfl
      dataWrites := by simp [hnil]
      segmentWrites := by simp [hnil]
      apart := h.apart }

variable {chunk : ℕ} {changed : List ℕ} {converted : List (ℕ × ℕ)}

/-- A converted pointer stands for the page it was found at. -/
theorem Coherent.detachedIn (h : s.Coherent opts) {x : ℕ × ℕ} (hx : x ∈ s.detachedIn chunk) :
    s.filePage s.gen x.1 = some x.2 := by
  obtain ⟨p, -, hp⟩ := mem_filterMap.1 hx
  obtain ⟨-, hp⟩ := ite_none_right_eq_some.1 hp
  split at hp
  · next a hs =>
    obtain ⟨-, f, hf, hT, -⟩ :=
      h.cache.slot s.gen (isRegistered_of_isPublic isPublic_gen) p _ hs
    obtain ⟨-, hp⟩ := ite_none_right_eq_some.1 hp
    rw [hf] at hp
    cases hp
    exact hT
  · cases hp

theorem Coherent.copyChunk (h : s.Coherent opts)
    (hrun : CacheEvent.copyChunk.run opts s = some s') : s'.Coherent opts := by
  obtain ⟨chunk, changed, converted, hphase, rfl⟩ := CacheEvent.copyChunk_ok hrun
  have hnr : s.phase ≠ .registered := by simp [hphase]
  have hni : s.phase ≠ .idle := by simp [hphase]
  have hnil := h.writes_eq_nil hnr
  have hreg : ∀ k, ({ s with
      phase := .copying (chunk + 1) changed (converted ++ s.detachedIn chunk) } :
      CachedPartition).isRegistered k = s.isRegistered k := fun k ↦
    (isRegistered_eq_isPublic (by simp) k).trans (isRegistered_eq_isPublic hnr k).symm
  refine
    { __ := h
      cache := h.cache.mono (fun k hk ↦ hreg k ▸ hk) fun _ _ ↦ rfl
      loads := fun x hx ↦ (hreg x.2).trans (h.loads x hx)
      idle := ⟨fun hnone ↦ absurd (h.idle.1 hnone) hni, by simp⟩
      copy := fun _ _ ↦ h.copy hnr hni
      converted := fun chunk₁ changed₁ converted₁ heq x hx ↦ ?_
      copied := by simp
      writing := absurd hnil
      dataWrites := by simp [hnil]
      segmentWrites := by simp [hnil]
      apart := h.apart }
  obtain ⟨-, -, rfl⟩ := copying.inj heq
  rcases mem_append.1 hx with hx | hx
  · exact h.converted _ _ _ hphase x hx
  · exact h.detachedIn hx

/-- A pointer of the finished copy is one of the published mapping. -/
theorem copiedSlots_pointer (hs : s.copiedSlots changed converted page = some (.pointer a)) :
    s.cache.slots s.gen page = some (.pointer a) := by
  unfold copiedSlots at hs
  split at hs
  · next b hb =>
    rw [hb]
    split at hs
    · exact hs
    · cases hlook : converted.lookup page with
      | none => simpa [hlook] using hs
      | some f => simp [hlook] at hs
  · exact hs

/-- A file page of the finished copy is the right one. -/
theorem Coherent.copiedSlots_file (h : s.Coherent opts)
    (hphase : s.phase = .copying chunk changed converted)
    (hs : s.copiedSlots changed converted page = some (.file fp)) :
    s.filePage s.gen page = some fp := by
  unfold copiedSlots at hs
  split at hs
  · split at hs
    · cases hs
    · cases hlook : converted.lookup page with
      | none => simp [hlook] at hs
      | some f =>
        obtain rfl : f = fp := by simpa [hlook] using hs
        obtain ⟨pre, post, heq, -⟩ := lookup_eq_some_iff.1 hlook
        exact h.converted _ _ _ hphase (page, f) (by simp [heq])
  · exact h.cache.slot s.gen (isRegistered_of_isPublic isPublic_gen) page _ hs

theorem Coherent.endCopy (h : s.Coherent opts) (hrun : CacheEvent.endCopy.run opts s = some s') :
    s'.Coherent opts := by
  obtain ⟨chunk, changed, converted, hphase, rfl⟩ := CacheEvent.endCopy_ok hrun
  have hnr : s.phase ≠ .registered := by simp [hphase]
  have hni : s.phase ≠ .idle := by simp [hphase]
  have hnil := h.writes_eq_nil hnr
  have hcopy := h.copy hnr hni
  let s₁ : CachedPartition :=
    { s with
      cache := s.cache.setSlots (s.gen + 1) (s.copiedSlots changed converted)
      phase := .copied }
  have hfile : ∀ p f, s₁.cache.slots (s.gen + 1) p = some (.file f) →
      s.filePage (s.gen + 1) p = some f := by
    intro p f hs
    rw [setSlots_own] at hs
    rw [hcopy]
    exact h.copiedSlots_file hphase hs
  have hptr : ∀ p a, s₁.cache.slots (s.gen + 1) p = some (.pointer a) →
      s₁.cache.slots s.gen p = some (.pointer a) := by
    intro p a hs
    rw [setSlots_own] at hs
    rw [setSlots_gen]
    exact copiedSlots_pointer hs
  have hreg : ∀ k, s₁.isRegistered k = s.isRegistered k := fun k ↦
    (isRegistered_eq_isPublic (by simp [s₁]) k).trans (isRegistered_eq_isPublic hnr k).symm
  have hcopied : s₁.Coherent opts :=
    { __ := h
      cache := (h.cache.setSlots (fun hk ↦ own_ne hk hnr rfl) _).mono (fun k hk ↦ hreg k ▸ hk)
        fun _ _ ↦ rfl
      loads := fun x hx ↦ (hreg x.2).trans (h.loads x hx)
      idle := ⟨fun hnone ↦ absurd (h.idle.1 hnone) hni, by simp [s₁]⟩
      copy := fun _ _ ↦ hcopy
      converted := by simp [s₁]
      copied := fun _ p ↦ ⟨hfile p, fun a hs ↦ by
        have hgen := hptr p a hs
        rw [setSlots_gen] at hgen
        obtain ⟨-, f, -, hT, -⟩ :=
          h.cache.slot s.gen (isRegistered_of_isPublic isPublic_gen) p _ hgen
        have hT' : s.filePage (s.gen + 1) p = some f := by rw [hcopy]; exact hT
        exact lt_length_of_filePage hT'⟩
      writing := absurd hnil
      dataWrites := by simp [s₁, hnil]
      segmentWrites := by simp [s₁, hnil]
      apart := h.apart }
  split
  · exact hcopied
  · exact hcopied.registered (by simp [s₁]) (by simp [s₁]) hfile hptr

/-- **The copy is registered**, and all it points to is still pointed to by the published mapping.
-/
theorem Coherent.register (h : s.Coherent opts) (hphase : s.phase = .copied)
    (hcur : Current s .register) :
    ({ s with phase := .registered } : CachedPartition).Coherent opts := by
  refine h.registered (by simp [hphase]) (by simp [hphase]) (fun p ↦ (h.copied hphase p).1)
    fun p a hs ↦ ?_
  rw [hcur.2 p ((h.copied hphase p).2 a hs) (by simp [isSwizzled, hs])]
  exact hs

theorem Coherent.begin (h : s.Coherent opts) (hcur : Current s .begin)
    (hrun : CacheEvent.begin.run opts s = some s') : s'.Coherent opts := by
  obtain ⟨p, hp, rfl⟩ := map_eq_some_iff.1 hrun
  have horder := h.order.event (hcur.smallTables _) hp
  obtain ⟨hnone, rfl⟩ := ite_some_none_eq_some.1 hp
  have hidle : s.phase = .idle := h.idle.1 hnone
  have hnr : s.phase ≠ .registered := by simp [hidle]
  have hnil := h.writes_eq_nil hnr
  have hpub := publishedMapper_makeCowRoot opts h.order.loaded
  have hseg := publishedSegments_makeCowRoot opts h.order.loaded
  obtain ⟨t, m?, sm?, ht, hmap, hcow, -⟩ := makeCowRoot_spec opts s.part
  have hm? : (s.part.makeCowRoot opts).publishedMapper = m? := by
    rw [publishedMapper, hmap]
    rfl
  let s₁ : CachedPartition :=
    { s with
      pinned := { s.pinned with partition := s.part.makeCowRoot opts, returned := [] }
      cache := s.cache.setSlots (s.gen + 1) fun _ ↦ none
      phase := .copying 0 [] [] }
  have hbare : ∀ page, s₁.cache.slots (s.gen + 1) page = none := fun page ↦ by
    rw [setSlots_own]
  -- the copy is the published mapping, or an empty one
  have hcopy : s₁.filePage (s.gen + 1) = s₁.filePage s.gen := by
    funext page
    rw [show s₁.filePage (s.gen + 1) page = t.cow.mapper.toFilePage page from
        congrFun (filePage_own ht) page,
      show s₁.filePage s.gen page = denote m? page from (filePage_gen page).trans (by rw [← hm?]),
      hcow]
    cases m? with
    | none => exact PageMapper.toFilePage_empty _ _
    | some m => rfl
  have hreg : ∀ k, s₁.isRegistered k = s.isRegistered k := fun k ↦
    (isRegistered_eq_isPublic (by simp [s₁]) k).trans (isRegistered_eq_isPublic hnr k).symm
  have hstart : s₁.Coherent opts :=
    { order := horder
      held := h.held
      cache := (h.cache.setSlots (fun hk ↦ own_ne hk hnr rfl) _).mono (fun k hk ↦ hreg k ▸ hk)
        fun k hk ↦ filePage_congr rfl rfl hpub fun heq ↦ own_ne (hreg k ▸ hk) hnr heq.symm
      loads := fun x hx ↦ (hreg x.2).trans (h.loads x hx)
      idle := ⟨fun hnone' ↦ absurd (ht.symm.trans hnone') (by simp),
        by simp [s₁]⟩
      copy := fun _ _ ↦ hcopy
      converted := fun _ _ _ heq x hx ↦ by
        obtain ⟨-, -, rfl⟩ := copying.inj heq
        cases hx
      copied := by simp [s₁]
      writing := absurd hnil
      dataWrites := by simp [s₁, hnil]
      segmentWrites := by simp [s₁, hnil]
      apart := h.apart }
  split
  · exact hstart
  · exact hstart.registered (by simp [s₁]) (by simp [s₁])
      (fun page f hs ↦ absurd ((hbare page).symm.trans hs) (by simp))
      fun page b hs ↦ absurd ((hbare page).symm.trans hs) (by simp)

end CachedPartition

end EloqStore
