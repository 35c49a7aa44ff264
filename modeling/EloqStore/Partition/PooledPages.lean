import EloqStore.Foundation.Accounts
import EloqStore.Partition.WellFormed
import EloqStore.Storage.FreeList

/-!
# The file pages of a pooled partition

Without append mode a file page that a write replaces is reused, once no reader can look at it any
more. The page is first put on the list of the mapping the write replaces; that mapping is released
when its last reader and every older mapping are gone, and only then do its pages enter the pool.

This file follows every file page through that cycle, for any interleaving of one writer with
readers. `Pinned` adds to a partition the tables of the replaced mappings that readers still hold.
Runs start from a fresh partition. With append mode a commit leaves no list of pages, so there is no
release: a replaced mapping stays among the tables, which only asks for more.

**The pool the pages return to is the published one**, while a running write works on a copy of it
made when it started, and a commit publishes that copy. `returned` keeps what has come back since
the copy was made: it is in the published pool only, and a commit drops it (`lost`). So the
accounting of this file is exact in every run whose commits all find `returned` empty, and whatever
the run a page some live mapping uses is never in the pool.
-/

namespace EloqStore

open List Option PageMapper EloqStore.Partition Transition WriteTask Accounts

/-! ### What an allocation does to the accounts -/

variable {tbl : MappingTbl} {fps : List ℕ} {pending : List (List ℕ)} {tables : List MappingTbl}

/-- The pooled file pages of an allocator, next one first. -/
def FilePageAllocator.freeIds (a : FilePageAllocator) : List ℕ :=
  match a.kind with
  | .append _ _ => []
  | .pooled ids => ids

def FilePageAllocator.IsPooled (a : FilePageAllocator) : Prop := ∃ ids, a.kind = .pooled ids

namespace FilePageAllocator

variable {a : FilePageAllocator}

theorem IsPooled.allocate (h : a.IsPooled) : a.allocate.2.IsPooled := by
  obtain ⟨ids, hk⟩ := h
  cases ids with
  | nil => exact ⟨[], by simp [FilePageAllocator.allocate, hk]⟩
  | cons fp rest => exact ⟨rest, by simp [FilePageAllocator.allocate, hk]⟩

/-- **What a pool hands out** is the pool's next page, or a new one when the pool is empty. -/
theorem IsPooled.allocate_cases (h : a.IsPooled) :
    (a.freeIds = a.allocate.1 :: a.allocate.2.freeIds ∧ a.allocate.2.maxFpId = a.maxFpId) ∨
      (a.freeIds = [] ∧ a.allocate.1 = a.maxFpId ∧ a.allocate.2.freeIds = [] ∧
        a.allocate.2.maxFpId = a.maxFpId + 1) := by
  obtain ⟨ids, hk⟩ := h
  cases ids with
  | nil =>
    have halloc : a.allocate = (a.maxFpId, { a with maxFpId := a.maxFpId + 1 }) := by
      simp only [FilePageAllocator.allocate, hk]
    refine .inr ⟨by rw [freeIds, hk], by rw [halloc], ?_, by rw [halloc]⟩
    rw [halloc, freeIds, hk]
  | cons fp rest =>
    have halloc : a.allocate = (fp, { a with kind := .pooled rest }) := by
      simp only [FilePageAllocator.allocate, hk]
    refine .inl ⟨?_, by rw [halloc]⟩
    rw [halloc, freeIds, hk]
    rfl

/-- The page handed out leaves the pool, or is accounted for from now on. -/
theorem IsPooled.accounts_allocate {ι : Type*} {f : ι → Option ℕ} {held : List ℕ}
    (hp : a.IsPooled) (h : Accounts f (held ++ a.freeIds) a.maxFpId) :
    Accounts f (a.allocate.1 :: (held ++ a.allocate.2.freeIds)) a.allocate.2.maxFpId := by
  rcases hp.allocate_cases with ⟨hids, hmax⟩ | ⟨hids, hfp, hids', hmax⟩
  · rw [hmax]
    rw [hids] at h
    exact h.perm perm_middle
  · rw [hfp, hids', hmax]
    rw [hids] at h
    exact h.grow

/-- All ids have no more than the 32 bits that a pool keeps of them. -/
def fits32 (a : FilePageAllocator) : Bool :=
  match a.kind with
  | .append _ _ => true
  | .pooled _ => decide (a.maxFpId ≤ 2 ^ 32)

theorem IsPooled.maxFpId_le (hp : a.IsPooled) (h : a.fits32 = true) : a.maxFpId ≤ 2 ^ 32 := by
  obtain ⟨ids, hk⟩ := hp
  simpa [fits32, hk] using h

theorem map_mod_of_lt (h : ∀ fp ∈ fps, fp < 2 ^ 32) : fps.map (· % 2 ^ 32) = fps :=
  (List.map_congr_left fun fp hfp ↦ Nat.mod_eq_of_lt (h fp hfp)).trans (List.map_id' fps)

theorem IsPooled.freeToPool (hp : a.IsPooled) (hfps : ∀ fp ∈ fps, fp < 2 ^ 32) :
    (freeToPool a fps).IsPooled ∧
      (freeToPool a fps).freeIds = fps.reverse ++ a.freeIds := by
  obtain ⟨ids, hk⟩ := hp
  have heq : Partition.freeToPool a fps = { a with kind := .pooled (fps.reverse ++ ids) } := by
    simp only [Partition.freeToPool, hk, map_mod_of_lt hfps]
  rw [heq, freeIds, freeIds, hk]
  exact ⟨⟨_, rfl⟩, rfl⟩

end FilePageAllocator

/-- Every file page below the mapper's maximum is mapped once, or listed once: in `held`, which
collects what is neither mapped nor free, or in the mapper's pool. -/
def PageMapper.Accounted (m : PageMapper) (held : List ℕ) : Prop :=
  Accounts m.toFilePage (held ++ m.allocator.freeIds) m.allocator.maxFpId

namespace PageMapper

variable {m : PageMapper} {ids held : List ℕ}

theorem Accounted.perm {held' : List ℕ} (h : m.Accounted held) (hp : held.Perm held') :
    m.Accounted held' :=
  Accounts.perm h (hp.append_right _)

/-- **Reserving an id** maps and unmaps nothing. -/
theorem Accounted.getPage (h : m.Accounted held) (hfree : m.FreeIds ids) :
    m.getPage.2.Accounted held := by
  obtain ⟨-, -, hnone⟩ := hfree.getPage
  rw [Accounted, getPage_allocator]
  refine congr h fun q ↦ ?_
  rw [toFilePage_getPage]
  split
  · next hq => rw [hq, hnone]
  · rfl

/-- **Freeing an id** gives up its file page. -/
theorem Accounted.freePage (h : m.Accounted held) (p : ℕ) :
    (m.freePage p).Accounted ((m.toFilePage p).toList ++ held) := by
  rw [Accounted, freePage_allocator, append_assoc]
  exact unassign h fun q ↦ m.toFilePage_freePage p q

/-- What the id chosen for an allocation was mapped to. -/
theorem FreeIds.toFilePage_choosePage (h : m.FreeIds ids) (page? : Option ℕ) :
    m.toFilePage (choosePage m page?).1 = page?.bind m.toFilePage := by
  cases page? with
  | some p => rfl
  | none =>
    exact h.getPage.2.2

theorem FreeIds.allocated (h : m.FreeIds ids) {page? : Option ℕ}
    (hpage : ∀ p, page? = some p → p ∉ ids) :
    ∃ rest, (allocated m page?).FreeIds rest ∧ rest ⊆ ids := by
  have hchoose : ∃ rest, (choosePage m page?).2.FreeIds rest ∧
      (choosePage m page?).1 ∉ rest ∧ rest ⊆ ids := by
    cases page? with
    | some p => exact ⟨ids, h, hpage p rfl, Subset.refl _⟩
    | none =>
      obtain ⟨hrest, hp, -⟩ := h.getPage
      exact ⟨_, hrest, hp, fun _ ↦ mem_of_mem_tail⟩
  obtain ⟨rest, hrest, hp, hsub⟩ := hchoose
  have hrest' : ({ (choosePage m page?).2 with
      allocator := m.allocator.allocate.2 } : PageMapper).FreeIds rest :=
    hrest.of_slots rfl fun _ _ ↦ rfl
  exact ⟨rest, hrest'.updateMapping hp _, hsub⟩

/-- **An allocation** gives up the file page of the id it is for. -/
theorem Accounted.allocated (h : m.Accounted held) (hpool : m.allocator.IsPooled)
    (hfree : m.FreeIds ids) (page? : Option ℕ) :
    (allocated m page?).Accounted ((page?.bind m.toFilePage).toList ++ held) := by
  have hcell := hpool.accounts_allocate h
  rw [Accounted, allocated_allocator, append_assoc,
    ← hfree.toFilePage_choosePage page?]
  exact hcell.assign fun q ↦ toFilePage_allocated m page? q

/-- What is accounted for as listed is below the maximum. -/
theorem Accounted.lt_of_mem (h : m.Accounted (fps ++ held)) {fp : ℕ} (hfp : fp ∈ fps) :
    fp < m.allocator.maxFpId :=
  (lt_iff h fp).2 (.inr (mem_append_left _ (mem_append_left _ hfp)))

theorem Accounted.freeToPool (h : m.Accounted (fps ++ held)) (hpool : m.allocator.IsPooled)
    (hfps : ∀ fp ∈ fps, fp < 2 ^ 32) :
    ({ m with allocator := freeToPool m.allocator fps } : PageMapper).Accounted held := by
  obtain ⟨-, hids⟩ := hpool.freeToPool hfps
  show Accounts m.toFilePage (held ++ (Partition.freeToPool m.allocator fps).freeIds)
    (Partition.freeToPool m.allocator fps).maxFpId
  rw [hids, Sound.freeToPool_maxFpId]
  refine Accounts.perm h ?_
  calc (fps ++ held ++ m.allocator.freeIds).Perm (held ++ fps ++ m.allocator.freeIds) :=
        perm_append_comm.append_right _
    _ = held ++ (fps ++ m.allocator.freeIds) := append_assoc _ _ _
    Perm _ (held ++ (fps.reverse ++ m.allocator.freeIds)) :=
        (fps.reverse_perm.symm.append_right _).append_left _

end PageMapper

/-! ### A partition and the mappings readers still hold -/

/-- The published data mapper; a stub has none. -/
def Partition.publishedMapper (s : Partition) : Option PageMapper := s.mappers.bind (·.1)

variable (opts : KvOptions) (t : WriteTask)

/-- A root that is cached, or cannot be loaded, is found as it is. -/
theorem Partition.findRoot_eq {s : Partition} (h : s.entry = none → s.manifest = none) :
    s.findRoot opts = s := by
  unfold findRoot
  split
  · rfl
  · next hentry => rw [h hentry]

theorem Partition.publishedMapper_makeCowRoot {s : Partition}
    (h : s.entry = none → s.manifest = none) :
    (s.makeCowRoot opts).publishedMapper = s.publishedMapper := by
  obtain ⟨hmap, -⟩ := makeCowRoot_frame opts s
  rw [publishedMapper, hmap, findRoot_eq opts h, publishedMapper]
  cases s.mappers <;> rfl

theorem Partition.publishedMapper_freeMappingSnapshot {s : Partition} {rest : List (List ℕ)}
    (hpend : s.pendingFree = fps :: rest) :
    s.freeMappingSnapshot.publishedMapper = s.publishedMapper.map fun m ↦
      { m with allocator := freeToPool m.allocator fps } := by
  simp only [freeMappingSnapshot, hpend, publishedMapper, mappers]
  cases s.entry with
  | none => rfl
  | some root => rfl

/-- **A partition with the mappings that are still alive.** -/
structure Pinned where
  partition : Partition
  /-- The tables of the replaced mappings that have not been released, oldest first; each one's
  list of given-up file pages is at the same place of the partition's `pendingFree`. -/
  tables : List MappingTbl := []
  /-- What has come back to the published pool since the running task copied it. -/
  returned : List ℕ := []
  /-- What had come back to a pool that a commit replaced. -/
  lost : List ℕ := []
deriving DecidableEq, Repr

/-- A partition that has never been written. -/
def Pinned.fresh (branch : BranchName) (term : ℕ) : Pinned :=
  { partition := .fresh branch term }

/-- What the tree code asks a task to do: it writes pages it has reserved and pages that are mapped,
and frees pages that are mapped. -/
def WriteTask.proper : TaskStep → Bool
  | .allocatePage (some page) => t.reserved.contains page || (t.cow.mapper.toFilePage page).isSome
  | .freePage page => (t.cow.mapper.toFilePage page).isSome
  | _ => true

def WriteTask.givesUp : TaskStep → Bool
  | .allocatePage (some page) | .freePage page => (t.cow.mapper.toFilePage page).isSome
  | _ => false

/-- A step the running task can take. A task that creates the partition builds its trees on empty
ones: it writes every page once and gives up none. -/
def Pinned.takes (s : Pinned) (a : TaskStep) : Bool :=
  match s.partition.task with
  | none => false
  | some t => t.proper a && (s.partition.publishedMapper.isSome || !t.givesUp a)

/-- What can happen to a loaded partition. -/
inductive PinEvent
  /-- A write starts (`MakeCowRoot`). -/
  | begin
  /-- The running write takes a step. -/
  | step (a : TaskStep)
  | commit
  | abort
  /-- The last reader of the oldest replaced mapping leaves. -/
  | release
deriving DecidableEq, Repr

/-- One event. A mapping is released after all older ones: each keeps the next one alive. -/
def PinEvent.run (s : Pinned) : PinEvent → Option Pinned
  | .begin =>
    if s.partition.task = none then
      some { s with partition := s.partition.makeCowRoot opts, returned := [] }
    else none
  | .step a =>
    if s.takes a then
      (s.partition.taskStep opts a).toOption.map fun partition ↦ { s with partition := partition }
    else none
  | .commit =>
    (s.partition.commit opts).toOption.map fun partition ↦
      { partition := partition
        tables := s.tables ++ [(s.partition.publishedMapper.map (·.tbl)).getD []]
        returned := []
        lost := s.lost ++ s.returned }
  | .abort =>
    if s.partition.task = none then none
    else some { s with partition := s.partition.abort, returned := [] }
  | .release =>
    match s.partition.pendingFree with
    | [] => none
    | fps :: _ =>
      some { s with
        partition := s.partition.freeMappingSnapshot
        tables := s.tables.tail
        returned := if s.partition.task = none then s.returned else s.returned ++ fps }

/-- **The ids keep all their bits**: the running task has at most `2 ^ 29` logical pages, so that
the link to the next free id has room for it, and a published pool is of file pages below `2 ^ 32`.
-/
def Partition.Small (s : Partition) : Prop :=
  (∀ t ∈ s.task, t.cow.mapper.tbl.length ≤ 2 ^ 29) ∧ ∀ m ∈ s.publishedMapper, m.allocator.fits32

instance (s : Partition) : Decidable s.Small := inferInstanceAs (Decidable (_ ∧ _))

def SmallTables (s : Pinned) (_ : PinEvent) : Prop := s.partition.Small

instance (s : Pinned) (e : PinEvent) : Decidable (SmallTables s e) :=
  inferInstanceAs (Decidable s.partition.Small)

/-- The runs of a pooled partition. -/
abbrev PinRuns (G : Pinned → PinEvent → Prop) : Pinned → Pinned → Prop :=
  Transition.Reach (fun s e s' ↦ PinEvent.run opts s e = some s') G

theorem PinEvent.step_ok {opts : KvOptions} {s s' : Pinned} {a : TaskStep}
    (h : (step a).run opts s = some s') : s.takes a = true ∧
      ∃ p', s.partition.taskStep opts a = .ok p' ∧ s' = { s with partition := p' } := by
  obtain ⟨htakes, h⟩ := ite_none_right_eq_some.1 h
  obtain ⟨p', hp', rfl⟩ := map_eq_some_iff.1 h
  exact ⟨htakes, p', ok_of_toOption hp', rfl⟩

theorem PinEvent.release_ok {opts : KvOptions} {s s' : Pinned} (h : release.run opts s = some s') :
    ∃ fps rest, s.partition.pendingFree = fps :: rest ∧ s' =
      { s with
        partition := s.partition.freeMappingSnapshot
        tables := s.tables.tail
        returned := if s.partition.task = none then s.returned else s.returned ++ fps } := by
  rw [PinEvent.run] at h
  split at h
  · cases h
  · next fps rest hpend => exact ⟨fps, rest, hpend, (some.inj h).symm⟩

/-! ### Where a file page is -/

namespace Pinned

variable (s : Pinned)

/-- The tables of all live mappings: replaced, published, and the running task's. -/
def liveTables : List MappingTbl :=
  s.tables ++ (s.partition.publishedMapper.map (·.tbl)).toList ++
    (s.partition.task.map (·.cow.mapper.tbl)).toList

/-- The file pages some live mapping uses. -/
def mappedPages : List ℕ := s.liveTables.flatMap fun tbl ↦ tbl.mapped.map (·.1)

/-- The file pages that wait on a live mapping. -/
def pendingPages : List ℕ :=
  s.partition.pendingFree.flatten ++ (s.partition.task.map (·.toFreeFilePages)).getD []

/-- The mapper in use: the running task's, or the published one. -/
def currentMapper : Option PageMapper :=
  (s.partition.task.map (·.cow.mapper)).or s.partition.publishedMapper

/-- The file pages free to be handed out. -/
def poolPages : List ℕ :=
  (s.currentMapper.map (·.allocator.freeIds)).getD [] ++ s.returned

/-- The maximum of the allocator in use. -/
def maxFilePageId : ℕ := (s.currentMapper.map (·.allocator.maxFpId)).getD 0

/-- **A file page is in exactly one place**: used by a live mapping and not given up, given up and
waiting on one, or free. -/
def InOnePlace (fp : ℕ) : Prop :=
  (fp ∈ s.mappedPages ∧ fp ∉ s.pendingPages ∧ fp ∉ s.poolPages) ∨
    (fp ∈ s.pendingPages ∧ fp ∉ s.poolPages) ∨
    (fp ∉ s.mappedPages ∧ fp ∉ s.pendingPages ∧ fp ∈ s.poolPages)

instance (fp : ℕ) : Decidable (s.InOnePlace fp) := inferInstanceAs (Decidable (_ ∨ _ ∨ _))

variable {s}

theorem mem_mappedPages {fp : ℕ} :
    fp ∈ s.mappedPages ↔ ∃ tbl ∈ s.liveTables, ∃ page, tbl.toFilePage page = some fp := by
  simp only [mappedPages, List.mem_flatMap, List.mem_map, Prod.exists, exists_eq_right,
    exists_and_right, MappingTbl.mem_mapped]

end Pinned

/-! ### The invariant -/

/-- The published mapping uses the file page. -/
def Partition.Publishes (s : Partition) (fp : ℕ) : Prop :=
  ∃ page, denote s.publishedMapper page = some fp

/-- **Every replaced mapping is covered**: a file page it uses is used by the published mapping too
(`R`), or waits on this mapping or on a later one, which this one keeps alive. -/
def CoveredBy (R : ℕ → Prop) : List MappingTbl → List (List ℕ) → Prop
  | [], [] => True
  | tbl :: tables, fps :: rest =>
    (∀ page fp, tbl.toFilePage page = some fp → R fp ∨ fp ∈ (fps :: rest).flatten) ∧
      CoveredBy R tables rest
  | [], _ :: _ => False
  | _ :: _, [] => False

theorem CoveredBy.of_mem {R : ℕ → Prop} (h : CoveredBy R tables pending) (htbl : tbl ∈ tables)
    {page fp : ℕ} (hfp : tbl.toFilePage page = some fp) : R fp ∨ fp ∈ pending.flatten := by
  induction tables generalizing pending with
  | nil => cases htbl
  | cons first tables ih =>
    cases pending with
    | nil => exact h.elim
    | cons fps rest =>
      rcases mem_cons.1 htbl with rfl | htbl
      · exact h.1 page fp hfp
      · exact (ih h.2 htbl).imp id fun hmem ↦ mem_append_right fps hmem

/-- A commit adds the mapping it replaces, with what it gives up. -/
theorem CoveredBy.concat {R R' : ℕ → Prop} (h : CoveredBy R tables pending)
    (hR : ∀ fp, R fp → R' fp ∨ fp ∈ fps) (htbl : ∀ page fp, tbl.toFilePage page = some fp → R fp) :
    CoveredBy R' (tables ++ [tbl]) (pending ++ [fps]) := by
  induction tables generalizing pending with
  | nil =>
    cases pending with
    | nil => exact ⟨fun page fp hfp ↦ by simpa using hR fp (htbl page fp hfp), trivial⟩
    | cons _ _ => exact h.elim
  | cons first tables ih =>
    cases pending with
    | nil => exact h.elim
    | cons old rest =>
      refine ⟨fun page fp hfp ↦ ?_, ih h.2⟩
      have hflat : (old :: (rest ++ [fps])).flatten = (old :: rest).flatten ++ fps := by simp
      show R' fp ∨ fp ∈ (old :: (rest ++ [fps])).flatten
      rw [hflat, mem_append]
      rcases h.1 page fp hfp with hpub | hmem
      · exact (hR fp hpub).imp id .inr
      · exact .inr (.inl hmem)

theorem CoveredBy.mono {R R' : ℕ → Prop} (h : CoveredBy R tables pending)
    (hR : ∀ fp, R fp → R' fp) : CoveredBy R' tables pending := by
  induction tables generalizing pending with
  | nil => cases pending <;> exact h
  | cons first tables ih =>
    cases pending with
    | nil => exact h.elim
    | cons old rest =>
      exact ⟨fun page fp hfp ↦ (h.1 page fp hfp).imp (hR fp) id, ih h.2⟩

namespace Pinned

/-- A running task accounts for every file page below its own maximum. -/
structure TaskAccounted (s : Pinned) (t : WriteTask) : Prop where
  entry : s.partition.entry.isSome
  pooled : t.cow.mapper.allocator.IsPooled
  /-- Its free logical ids are in order, and the ids it has reserved are not among them. -/
  free : ∃ ids, t.cow.mapper.FreeIds ids ∧ ∀ p ∈ t.reserved, p ∉ ids
  accounted : t.cow.mapper.Accounted
    (s.partition.pendingFree.flatten ++ t.toFreeFilePages ++ s.returned ++ s.lost)
  /-- A file page the published mapping uses is still used, or has been given up. -/
  kept : ∀ fp, s.partition.Publishes fp →
    (∃ page, t.cow.mapper.toFilePage page = some fp) ∨ fp ∈ t.toFreeFilePages

/-- **The accounts of a pooled partition.** -/
structure Accounted (s : Pinned) : Prop where
  loaded : s.partition.entry = none → s.partition.manifest = none
  /-- Only a running task has a copy of the pool. -/
  idle : s.partition.task = none → s.returned = []
  /-- The published file pages are accounted for. -/
  published : ∀ m, s.partition.publishedMapper = some m → m.allocator.IsPooled ∧
    (∃ ids, m.FreeIds ids) ∧ m.Accounted (s.partition.pendingFree.flatten ++ s.lost)
  stub : s.partition.publishedMapper = none → s.partition.pendingFree = [] ∧ s.lost = [] ∧
    s.returned = []
  covered : CoveredBy s.partition.Publishes s.tables s.partition.pendingFree
  task : ∀ t, s.partition.task = some t → s.TaskAccounted t

/-- A partition that has never been written is accounted for. -/
theorem accounted_fresh (branch : BranchName) (term : ℕ) :
    (Pinned.fresh branch term).Accounted where
  loaded _ := rfl
  idle _ := rfl
  published _ h := absurd h (by simp [fresh, Partition.publishedMapper, Partition.mappers,
    Partition.fresh])
  stub _ := ⟨rfl, rfl, rfl⟩
  covered := trivial
  task _ h := absurd h (by simp [fresh, Partition.fresh])

end Pinned

/-! ### What each event does to the accounts -/

namespace Pinned

variable {opts} {s : Pinned} {t} {t' : WriteTask} {a : TaskStep} {p' : Partition}

/-- A task's accounts read what is published, and nothing else of the partition. -/
private theorem TaskAccounted.congr (h : s.TaskAccounted t)
    (hmap : p'.mappers = s.partition.mappers)
    (hpend : p'.pendingFree = s.partition.pendingFree) :
    ({ s with partition := p' } : Pinned).TaskAccounted t := by
  have hpub : p'.publishedMapper = s.partition.publishedMapper := congrArg (·.bind (·.1)) hmap
  refine ⟨?_, h.pooled, h.free, ?_, ?_⟩
  · show p'.entry.isSome
    rw [← isSome_mappers, hmap, isSome_mappers]
    exact h.entry
  · show t.cow.mapper.Accounted (p'.pendingFree.flatten ++ _ ++ _ ++ _)
    rw [hpend]
    exact h.accounted
  · rintro fp ⟨page, hpage⟩
    exact h.kept fp ⟨page, by rwa [← hpub]⟩

theorem Accounted.begin (h : s.Accounted) (hpool : opts.dataAppendMode = false) :
    ({ s with partition := s.partition.makeCowRoot opts, returned := [] } : Pinned).Accounted := by
  obtain ⟨-, -, hman, hpend, -, hlists⟩ := makeCowRoot_frame opts s.partition
  obtain ⟨t, m?, sm?, ht, hmap', hcow, -, -, -, -⟩ := makeCowRoot_spec opts s.partition
  obtain ⟨hfree, hres⟩ := hlists t ht
  have hpub := publishedMapper_makeCowRoot opts h.loaded
  have hm? : s.partition.publishedMapper = m? := by
    rw [← hpub, publishedMapper, hmap']
    rfl
  have hpubs : ∀ fp, (s.partition.makeCowRoot opts).Publishes fp ↔ s.partition.Publishes fp := by
    intro fp
    rw [Publishes, hpub]
    rfl
  have hentry : (s.partition.makeCowRoot opts).entry.isSome := isSome_entry hmap'
  refine ⟨fun hnone ↦ ?_, fun hnone ↦ ?_, fun m hm ↦ ?_, fun hnone ↦ ?_, ?_, fun t₁ ht₁ ↦ ?_⟩
  · rw [isSome_iff_ne_none] at hentry
    exact absurd hnone hentry
  · exact rfl
  · have := h.published m (hpub ▸ hm)
    rwa [← hpend] at this
  · obtain ⟨hp, hl, -⟩ := h.stub (hpub ▸ hnone)
    exact ⟨hpend.trans hp, hl, rfl⟩
  · show CoveredBy _ s.tables (s.partition.makeCowRoot opts).pendingFree
    rw [hpend]
    exact h.covered.mono fun fp ↦ (hpubs fp).2
  · cases ht.symm.trans ht₁
    cases hm : m? with
    | some m =>
      -- the task's mapper is the published one
      obtain ⟨hpooled, ⟨ids, hids⟩, hacc⟩ := h.published m (hm?.trans hm)
      obtain rfl : t.cow.mapper = m := by rw [hcow, hm]; rfl
      refine ⟨hentry, hpooled, ⟨ids, hids, by simp [hres]⟩, ?_, fun fp hfp ↦ .inl ?_⟩
      · simpa [hpend, hfree] using hacc
      · obtain ⟨page, hpage⟩ := (hpubs fp).1 hfp
        rw [hm?, hm] at hpage
        exact ⟨page, hpage⟩
    | none =>
      obtain ⟨hp, hl, -⟩ := h.stub (hm?.trans hm)
      have hmapper : t.cow.mapper = .empty (newAllocator opts) := by rw [hcow, hm]; rfl
      have hkind : (newAllocator opts).kind = .pooled [] := by simp [newAllocator, hpool]
      refine ⟨hentry, ?_, ⟨[], ?_, by simp⟩, ?_, fun fp hfp ↦ ?_⟩
      · rw [hmapper]
        exact ⟨[], hkind⟩
      · rw [hmapper]
        exact freeIds_empty _
      · have hids : (newAllocator opts).freeIds = [] := by rw [FilePageAllocator.freeIds, hkind]
        rw [hmapper, hpend, hp, hfree, hl]
        show Accounts _ ([] ++ (newAllocator opts).freeIds) 0
        rw [hids]
        exact zero.congr fun q ↦ rfl
      · obtain ⟨page, hpage⟩ := (hpubs fp).1 hfp
        rw [hm?, hm] at hpage
        cases hpage

private theorem givenUp_eq (hpool : opts.dataAppendMode = false) (m : PageMapper)
    (page? : Option ℕ) :
    givenUp opts m page? = (page?.bind m.toFilePage).toList := by
  simp [givenUp, hpool]

/-- An assignment keeps what the published mapping uses, or gives it up. -/
private theorem TaskAccounted.kept_of (h : s.TaskAccounted t) {m' : PageMapper} {q : ℕ}
    {v : Option ℕ} {up : List ℕ}
    (hm' : ∀ page, m'.toFilePage page = if page = q then v else t.cow.mapper.toFilePage page)
    (hup : ∀ fp, t.cow.mapper.toFilePage q = some fp → fp ∈ up) (fp : ℕ)
    (hfp : s.partition.Publishes fp) :
    (∃ page, m'.toFilePage page = some fp) ∨ fp ∈ t.toFreeFilePages ++ up := by
  rcases h.kept fp hfp with ⟨page, hpage⟩ | hmem
  · by_cases hq : page = q
    · exact .inr (mem_append_right _ (hup fp (hq ▸ hpage)))
    · exact .inl ⟨page, by rw [hm', if_neg hq, hpage]⟩
  · exact .inr (mem_append_left _ hmem)

/-- Moving what a step gives up to its place in the list. -/
private theorem perm_up (up a b c d : List ℕ) :
    (up ++ (a ++ b ++ c ++ d)).Perm (a ++ (b ++ up) ++ c ++ d) := by
  have h : (up ++ (a ++ b)).Perm (a ++ b ++ up) := perm_append_comm
  calc (up ++ (a ++ b ++ c ++ d)) = up ++ (a ++ b) ++ (c ++ d) := by simp
    Perm _ (a ++ b ++ up ++ (c ++ d)) := h.append_right _
    _ = a ++ (b ++ up) ++ c ++ d := by simp

private theorem notMem_of_proper {ids : List ℕ} {page? : Option ℕ}
    (hids : t.cow.mapper.FreeIds ids) (hres : ∀ p ∈ t.reserved, p ∉ ids)
    (h : t.proper (.allocatePage page?) = true) (p : ℕ) (hp : page? = some p) : p ∉ ids := by
  obtain rfl := hp
  intro hmem
  rcases Bool.or_eq_true_iff.1 h with hr | hm
  · exact hres p (contains_iff_mem.1 hr) hmem
  · rw [hids.toFilePage_eq_none hmem] at hm
    cases hm

theorem TaskAccounted.step (h : s.TaskAccounted t) (hpool : opts.dataAppendMode = false)
    (ht : s.partition.task = some t) (hproper : t.proper a = true)
    (hsmall : SmallTables s (.step a)) (hstep : s.partition.taskStep opts a = .ok p') :
    ∃ t', p'.task = some t' ∧ ({ s with partition := p' } : Pinned).TaskAccounted t' := by
  obtain ⟨hmap, -, hpend, -⟩ := taskStep_frame hstep
  obtain ⟨t', ht', hc⟩ := taskStep_change ht hstep
  obtain ⟨ids, hids, hres⟩ := h.free
  refine ⟨t', ht', .congr ?_ hmap hpend⟩
  cases hc.data with
  | same hm _ hf hr =>
    exact ⟨h.entry, hm ▸ h.pooled, hm ▸ hr ▸ h.free, hm ▸ hf ▸ h.accounted, hm ▸ hf ▸ h.kept⟩
  | getPage heq =>
    subst heq
    obtain ⟨hrest, hnew, hnone⟩ := hids.getPage
    refine ⟨h.entry, ?_, ⟨_, hrest, fun p hp ↦ ?_⟩, h.accounted.getPage hids, fun fp hfp ↦ ?_⟩
    · show t.cow.mapper.getPage.2.allocator.IsPooled
      rw [getPage_allocator]
      exact h.pooled
    · rcases mem_cons.1 hp with rfl | hp
      · exact hnew
      · exact fun hmem ↦ hres p hp (mem_of_mem_tail hmem)
    · refine (h.kept fp hfp).imp_left ?_
      rintro ⟨page, hpage⟩
      refine ⟨page, ?_⟩
      have hne : page ≠ t.cow.mapper.getPage.1 := fun heq ↦ by
        rw [heq, hnone] at hpage
        cases hpage
      exact (t.cow.mapper.toFilePage_getPage page).trans ((if_neg hne).trans hpage)
  | allocatePage page? hm _ hup hreserved =>
    obtain ⟨rest, hrest, hsub⟩ := hids.allocated (notMem_of_proper hids hres hproper)
    rw [givenUp_eq hpool] at hup
    refine ⟨h.entry, ?_, ⟨rest, hm ▸ hrest, fun p hp hmem ↦ ?_⟩, ?_, fun q hq ↦ ?_⟩
    · rw [hm, allocated_allocator]
      exact h.pooled.allocate
    · rw [hreserved] at hp
      exact hres p (mem_of_mem_filter hp) (hsub hmem)
    · rw [hm, hup]
      exact (h.accounted.allocated h.pooled hids page?).perm (perm_up _ _ _ _ _)
    · rw [hm, hup]
      refine h.kept_of (toFilePage_allocated t.cow.mapper page?) (fun n hn ↦ ?_) q hq
      rw [hids.toFilePage_choosePage] at hn
      exact mem_toList.2 hn
  | freePage page heq =>
    subst heq
    obtain ⟨fp, hfp⟩ := isSome_iff_exists.1 hproper
    have hlt : page < t.cow.mapper.tbl.length := by
      by_contra hge
      rw [toFilePage, MappingTbl.toFilePage, getElem?_eq_none (by omega)] at hfp
      cases hfp
    have hnot : page ∉ ids := fun hmem ↦ by
      rw [hids.toFilePage_eq_none hmem] at hfp
      cases hfp
    refine ⟨h.entry, h.pooled, ⟨page :: ids, hids.freePage hnot hlt (hsmall.1 t ht),
      fun p hp hmem ↦ ?_⟩, ?_, fun q hq ↦ ?_⟩
    · obtain ⟨hp, hne⟩ := mem_filter.1 hp
      rcases mem_cons.1 hmem with heq | hmem
      · exact absurd heq (by simpa using hne)
      · exact hres p hp hmem
    · show (t.cow.mapper.freePage page).Accounted (_ ++ (t.toFreeFilePages ++
        givenUp opts t.cow.mapper (some page)) ++ _ ++ _)
      rw [givenUp_eq hpool]
      exact (h.accounted.freePage page).perm (perm_up _ _ _ _ _)
    · show (∃ p, (t.cow.mapper.freePage page).toFilePage p = some q) ∨
        q ∈ t.toFreeFilePages ++ givenUp opts t.cow.mapper (some page)
      rw [givenUp_eq hpool]
      exact h.kept_of (t.cow.mapper.toFilePage_freePage page)
        (fun n hn ↦ mem_toList.2 hn) q hq
  | updateStat _ _ happ => simp [hpool] at happ

theorem Accounted.step (h : s.Accounted) (hpool : opts.dataAppendMode = false)
    (htakes : s.takes a = true) (hsmall : SmallTables s (.step a))
    (hstep : s.partition.taskStep opts a = .ok p') :
    ({ s with partition := p' } : Pinned).Accounted := by
  obtain ⟨t, ht, -⟩ := taskStep_ok hstep
  have hproper : t.proper a = true := by
    rw [takes, ht] at htakes
    exact (Bool.and_eq_true_iff.1 htakes).1
  obtain ⟨t', ht', htask⟩ := (h.task t ht).step hpool ht hproper hsmall hstep
  obtain ⟨hmap, hman, hpend, -⟩ := taskStep_frame hstep
  have hpub : p'.publishedMapper = s.partition.publishedMapper := congrArg (·.bind (·.1)) hmap
  refine ⟨fun hnone ↦ ?_, fun hnone ↦ ?_, fun m hm ↦ ?_, fun hnone ↦ ?_, ?_, fun t₁ ht₁ ↦ ?_⟩
  · exact absurd hnone (isSome_iff_ne_none.1 htask.entry)
  · cases ht'.symm.trans hnone
  · show _ ∧ _ ∧ m.Accounted (p'.pendingFree.flatten ++ s.lost)
    rw [hpend]
    exact h.published m (hpub ▸ hm)
  · obtain ⟨hp, hl, hr⟩ := h.stub (hpub ▸ hnone)
    exact ⟨hpend.trans hp, hl, hr⟩
  · show CoveredBy _ s.tables p'.pendingFree
    rw [hpend]
    refine h.covered.mono fun fp hfp ↦ ?_
    obtain ⟨page, hpage⟩ := hfp
    exact ⟨page, by rwa [hpub]⟩
  · cases ht'.symm.trans ht₁
    exact htask

/-- **A commit** publishes the task's pool; what has come back to the replaced one is lost. -/
theorem Accounted.commit (h : s.Accounted) (hpool : opts.dataAppendMode = false) {s' : Pinned}
    (hrun : PinEvent.commit.run opts s = some s') : s'.Accounted := by
  obtain ⟨p', hcommit, rfl⟩ := map_eq_some_iff.1 hrun
  obtain ⟨t, ht, -, hp'⟩ := commit_ok (ok_of_toOption hcommit)
  have htask := h.task t ht
  obtain ⟨m?, sm?, hmap⟩ := exists_mappers htask.entry
  have hframe := updateMeta_spec opts ht hmap
  rw [← hp'] at hframe
  have hpend : p'.pendingFree = s.partition.pendingFree ++ [t.toFreeFilePages] := by
    rw [hframe.pending, hpool]
    rfl
  have hpub : p'.publishedMapper = some t.cow.mapper := by
    rw [publishedMapper, hframe.mappers]
    rfl
  refine ⟨fun hnone ↦ ?_, fun _ ↦ rfl, fun m hm ↦ ?_, fun hnone ↦ ?_, ?_, fun t₁ ht₁ ↦ ?_⟩
  · have hsome : p'.entry.isSome := isSome_entry hframe.mappers
    exact absurd hnone (isSome_iff_ne_none.1 hsome)
  · cases hpub.symm.trans hm
    obtain ⟨ids, hids, -⟩ := htask.free
    refine ⟨htask.pooled, ⟨ids, hids⟩, ?_⟩
    have hflat : p'.pendingFree.flatten = s.partition.pendingFree.flatten ++ t.toFreeFilePages := by
      rw [hpend]
      simp
    rw [hflat]
    refine htask.accounted.perm ?_
    rw [append_assoc (_ ++ _) s.returned]
    exact perm_append_comm.append_left _
  · cases hpub.symm.trans hnone
  · show CoveredBy _ _ p'.pendingFree
    rw [hpend]
    refine h.covered.concat (fun fp hfp ↦ ?_) fun page fp hfp ↦ ?_
    · refine (htask.kept fp hfp).imp_left ?_
      rintro ⟨page, hpage⟩
      exact ⟨page, by rw [hpub]; exact hpage⟩
    · cases hm : s.partition.publishedMapper with
      | none =>
        rw [hm] at hfp
        cases hfp
      | some m =>
        rw [hm] at hfp
        exact ⟨page, by rw [hm]; exact hfp⟩
  · cases hframe.idle.symm.trans ht₁

/-- **An abort** drops the task's pool. -/
theorem Accounted.abort (h : s.Accounted) :
    ({ s with partition := s.partition.abort, returned := [] } : Pinned).Accounted where
  __ := h
  idle _ := rfl
  stub hnone := ⟨(h.stub hnone).1, (h.stub hnone).2.1, rfl⟩
  task t ht := absurd ht (by simp [Partition.abort])

/-- What waits on the oldest replaced mapping fits in a pool. -/
theorem Accounted.pending_lt (h : s.Accounted) {m : PageMapper} {rest : List (List ℕ)}
    (hsmall : s.partition.Small) (hm : s.partition.publishedMapper = some m)
    (hpend : s.partition.pendingFree = fps :: rest) : ∀ fp ∈ fps, fp < 2 ^ 32 := by
  intro fp hfp
  obtain ⟨hpooled, -, hacc⟩ := h.published m hm
  rw [hpend, flatten_cons, append_assoc] at hacc
  exact (hacc.lt_of_mem hfp).trans_le (hpooled.maxFpId_le (hsmall.2 m hm))

/-- **A release** puts the pages of the oldest replaced mapping into the published pool. -/
theorem Accounted.release (h : s.Accounted) {s' : Pinned} (hsmall : s.partition.Small)
    (hrun : PinEvent.release.run opts s = some s') : s'.Accounted := by
  obtain ⟨fps, rest, hpend, rfl⟩ := PinEvent.release_ok hrun
  obtain ⟨m, hm⟩ : ∃ m, s.partition.publishedMapper = some m := by
    by_contra hno
    have hnone : s.partition.publishedMapper = none :=
      eq_none_iff_forall_not_mem.2 fun m hm ↦ hno ⟨m, hm⟩
    rw [(h.stub hnone).1] at hpend
    cases hpend
  obtain ⟨root, hroot, hmapper⟩ : ∃ root, s.partition.entry = some root ∧ root.mapper = some m := by
    rw [publishedMapper, mappers, bind_map] at hm
    obtain ⟨root, hroot, hmapper⟩ := bind_eq_some_iff.1 hm
    exact ⟨root, hroot, hmapper⟩
  have hfree : s.partition.freeMappingSnapshot = { s.partition with
      entry := some { root with
        mapper := some { m with allocator := freeToPool m.allocator fps } }
      pendingFree := rest } := by
    simp only [freeMappingSnapshot, hpend, hroot, hmapper, map_some]
  obtain ⟨hpooled, hids, hacc⟩ := h.published m hm
  have hpub : s.partition.freeMappingSnapshot.publishedMapper =
      some { m with allocator := freeToPool m.allocator fps } := by
    rw [hfree]
    rfl
  have hpubs : ∀ fp, s.partition.freeMappingSnapshot.Publishes fp ↔ s.partition.Publishes fp := by
    intro fp
    rw [Publishes, hpub, Publishes, hm]
    rfl
  rw [hpend, flatten_cons, append_assoc] at hacc
  have hfps := h.pending_lt hsmall hm hpend
  refine ⟨fun hnone ↦ ?_, fun hnone ↦ ?_, fun m' hm' ↦ ?_, fun hnone ↦ ?_, ?_, fun t ht ↦ ?_⟩
  · rw [hfree] at hnone
    cases hnone
  · have hidle : s.partition.task = none := by rwa [hfree] at hnone
    rw [if_pos hidle, h.idle hidle]
  · cases hpub.symm.trans hm'
    obtain ⟨ids, hids⟩ := hids
    refine ⟨(hpooled.freeToPool hfps).1, ⟨ids, hids.of_slots rfl fun _ _ ↦ rfl⟩, ?_⟩
    rw [hfree]
    exact hacc.freeToPool hpooled hfps
  · cases hpub.symm.trans hnone
  · have hcov := h.covered
    rw [hpend] at hcov
    rw [hfree] at hpubs ⊢
    cases htab : s.tables with
    | nil =>
      rw [htab] at hcov
      exact hcov.elim
    | cons tbl tables =>
      rw [htab] at hcov
      exact hcov.2.mono fun fp ↦ (hpubs fp).2
  · have ht' : s.partition.task = some t := by rwa [hfree] at ht
    have htask := h.task t ht'
    have hret : (if s.partition.task = none then s.returned else s.returned ++ fps) =
        s.returned ++ fps := if_neg (by simp [ht'])
    refine ⟨by simp [hfree], htask.pooled, htask.free, ?_, fun fp hfp ↦ ?_⟩
    · show t.cow.mapper.Accounted (s.partition.freeMappingSnapshot.pendingFree.flatten ++
        t.toFreeFilePages ++ (if s.partition.task = none then s.returned else s.returned ++ fps) ++
        s.lost)
      have hold := htask.accounted
      rw [hpend, flatten_cons] at hold
      rw [hret, hfree]
      refine hold.perm (Perm.append_right _ ?_)
      -- the released pages move from the front to the end
      calc (fps ++ rest.flatten ++ t.toFreeFilePages ++ s.returned) =
            fps ++ (rest.flatten ++ t.toFreeFilePages ++ s.returned) := by simp
        Perm _ (rest.flatten ++ t.toFreeFilePages ++ s.returned ++ fps) :=
            perm_append_comm
        _ = rest.flatten ++ t.toFreeFilePages ++ (s.returned ++ fps) := by simp
    · exact htask.kept fp ((hpubs fp).1 hfp)

/-- **An event keeps the accounts.** -/
theorem Accounted.event (h : s.Accounted) (hpool : opts.dataAppendMode = false) {e : PinEvent}
    {s' : Pinned} (hsmall : SmallTables s e) (hrun : e.run opts s = some s') : s'.Accounted := by
  cases e with
  | begin =>
    obtain ⟨-, rfl⟩ := ite_some_none_eq_some.1 hrun
    exact h.begin hpool
  | step a =>
    obtain ⟨htakes, p', hstep, rfl⟩ := PinEvent.step_ok hrun
    exact h.step hpool htakes hsmall hstep
  | commit => exact h.commit hpool hrun
  | abort =>
    obtain ⟨-, ⟨⟩⟩ := ite_none_left_eq_some.1 hrun
    exact h.abort
  | release => exact h.release hsmall hrun

/-- **Every run keeps the accounts.** -/
theorem accounted_of_run (hpool : opts.dataAppendMode = false) {s₀ : Pinned} (h₀ : s₀.Accounted)
    (hrun : PinRuns opts SmallTables s₀ s) : s.Accounted :=
  hrun.invariant Accounted h₀ fun h hsmall hstep ↦ h.event hpool hsmall hstep

/-! ### Where the accounts put a page -/

variable {m : PageMapper} {fp : ℕ}

private theorem perm_pool (a b c d : List ℕ) : (a ++ b ++ c ++ d).Perm (a ++ (d ++ b) ++ c) := by
  calc (a ++ b ++ c ++ d) = a ++ (b ++ c ++ d) := by simp
    Perm _ (a ++ (d ++ (b ++ c))) := perm_append_comm.append_left _
    _ = a ++ (d ++ b) ++ c := by simp

section

variable (h : s.Accounted) (hm : s.currentMapper = some m)

include h hm

/-- The mapper in use accounts for everything but the lost pages. -/
theorem Accounted.current :
    Accounts m.toFilePage (s.pendingPages ++ s.poolPages ++ s.lost) m.allocator.maxFpId := by
  have hpool : s.poolPages = m.allocator.freeIds ++ s.returned := by
    rw [poolPages, hm]
    rfl
  rw [hpool]
  cases ht : s.partition.task with
  | some t =>
    obtain rfl : t.cow.mapper = m := by simpa [currentMapper, ht] using hm
    have hpend : s.pendingPages = s.partition.pendingFree.flatten ++ t.toFreeFilePages := by
      rw [pendingPages, ht]
      rfl
    rw [hpend]
    exact perm (h.task t ht).accounted (perm_pool _ _ _ _)
  | none =>
    have hpub : s.partition.publishedMapper = some m := by simpa [currentMapper, ht] using hm
    have hpend : s.pendingPages = s.partition.pendingFree.flatten := by simp [pendingPages, ht]
    rw [hpend, h.idle ht, append_nil]
    obtain ⟨-, -, hacc⟩ := h.published m hpub
    refine perm hacc ?_
    rw [append_assoc, append_assoc]
    exact perm_append_comm.append_left _

/-- What the published mapping uses, the mapper in use still uses, or it waits. -/
theorem Accounted.current_of_publishes (hfp : s.partition.Publishes fp) :
    (∃ page, m.toFilePage page = some fp) ∨ fp ∈ s.pendingPages := by
  cases ht : s.partition.task with
  | some t =>
    obtain rfl : t.cow.mapper = m := by simpa [currentMapper, ht] using hm
    refine ((h.task t ht).kept fp hfp).imp_right fun hmem ↦ mem_append_right _ ?_
    rw [ht]
    exact hmem
  | none =>
    have hpub : s.partition.publishedMapper = some m := by simpa [currentMapper, ht] using hm
    obtain ⟨page, hpage⟩ := hfp
    rw [hpub] at hpage
    exact .inl ⟨page, hpage⟩

/-- **What any live mapping uses**, the mapper in use still uses, or it waits. -/
theorem Accounted.current_of_mapped (hfp : fp ∈ s.mappedPages) :
    (∃ page, m.toFilePage page = some fp) ∨ fp ∈ s.pendingPages := by
  obtain ⟨tbl, htbl, page, hpage⟩ := mem_mappedPages.1 hfp
  rcases mem_append.1 htbl with htbl | htbl
  · rcases mem_append.1 htbl with htbl | htbl
    · rcases h.covered.of_mem htbl hpage with hpub | hmem
      · exact h.current_of_publishes hm hpub
      · exact .inr (mem_append_left _ hmem)
    · obtain ⟨m', hm', rfl⟩ := map_eq_some_iff.1 (mem_toList.1 htbl)
      exact h.current_of_publishes hm ⟨page, by rw [hm']; exact hpage⟩
  · obtain ⟨t, ht, rfl⟩ := map_eq_some_iff.1 (mem_toList.1 htbl)
    obtain rfl : t.cow.mapper = m := by simpa [currentMapper, ht] using hm
    exact .inl ⟨page, hpage⟩

end

theorem mem_mappedPages_of_current (hm : s.currentMapper = some m) {page : ℕ}
    (hpage : m.toFilePage page = some fp) : fp ∈ s.mappedPages := by
  refine mem_mappedPages.2 ⟨m.tbl, ?_, page, hpage⟩
  cases ht : s.partition.task with
  | some t =>
    obtain rfl : t.cow.mapper = m := by simpa [currentMapper, ht] using hm
    exact mem_append_right _ (by simp [ht])
  | none =>
    have hpub : s.partition.publishedMapper = some m := by simpa [currentMapper, ht] using hm
    exact mem_append_left _ (mem_append_right _ (by simp [hpub]))

theorem Accounted.inOnePlace (h : s.Accounted) (hlt : fp < s.maxFilePageId) (hlost : fp ∉ s.lost) :
    s.InOnePlace fp := by
  obtain ⟨m, hm⟩ : ∃ m, s.currentMapper = some m := by
    cases hm : s.currentMapper with
    | none => simp [maxFilePageId, hm] at hlt
    | some m => exact ⟨m, rfl⟩
  have hacc := h.current hm
  have hmax : s.maxFilePageId = m.allocator.maxFpId := by
    rw [maxFilePageId, hm]
    rfl
  have hdisjoint : fp ∈ s.pendingPages → fp ∉ s.poolPages := fun hp hf ↦
    (nodup_append.1 (nodup_append.1 hacc.nodup).1).2.2 fp hp fp hf rfl
  rcases (hacc.lt_iff fp).1 (hmax ▸ hlt) with ⟨page, hpage⟩ | hmem
  · have hnot := hacc.notMem hpage
    simp only [mem_append, not_or] at hnot
    exact .inl ⟨mem_mappedPages_of_current hm hpage, hnot.1.1, hnot.1.2⟩
  · rcases mem_append.1 ((mem_append.1 hmem).resolve_right hlost) with hp | hf
    · exact .inr (.inl ⟨hp, hdisjoint hp⟩)
    · refine .inr (.inr ⟨fun hmapped ↦ ?_, fun hp ↦ hdisjoint hp hf, hf⟩)
      rcases h.current_of_mapped hm hmapped with ⟨page, hpage⟩ | hp
      · exact hacc.notMem hpage hmem
      · exact hdisjoint hp hf

/-- **A page a live mapping uses is never handed out.** -/
theorem Accounted.allocate_notMem (h : s.Accounted) (ht : s.partition.task = some t) :
    t.cow.mapper.allocator.allocate.1 ∉ s.mappedPages := by
  intro hmapped
  have hm : s.currentMapper = some t.cow.mapper := by simp [currentMapper, ht]
  have htask := h.task t ht
  have hacc := htask.pooled.accounts_allocate htask.accounted
  rcases h.current_of_mapped hm hmapped with ⟨page, hpage⟩ | hp
  · exact hacc.notMem hpage mem_cons_self
  · have hpend : s.pendingPages = s.partition.pendingFree.flatten ++ t.toFreeFilePages := by
      rw [pendingPages, ht]
      rfl
    rw [hpend] at hp
    refine (nodup_cons.1 hacc.nodup).1 (mem_append_left _ ?_)
    exact mem_append_left _ (mem_append_left _ hp)

end Pinned

/-! ### Runs -/

/-- **In no run is a file page handed out while a live mapping uses it**, whatever comes back when.
-/
theorem handedOut_notMem_mappedPages {opts : KvOptions} (hpool : opts.dataAppendMode = false)
    {s₀ s : Pinned} (h₀ : s₀.Accounted) (hrun : PinRuns opts SmallTables s₀ s) {t : WriteTask}
    (ht : s.partition.task = some t) : t.cow.mapper.allocator.allocate.1 ∉ s.mappedPages :=
  (Pinned.accounted_of_run hpool h₀ hrun).allocate_notMem ht

/-- No page has come back to the published pool between the start of a write and its commit. -/
def Undisturbed (s : Pinned) (e : PinEvent) : Prop :=
  SmallTables s e ∧ (e = .commit → s.returned = [])

instance (s : Pinned) (e : PinEvent) : Decidable (Undisturbed s e) :=
  inferInstanceAs (Decidable (s.partition.Small ∧ (_ → _)))

/-- **Every file page of a pooled partition is in exactly one place**, and none in use is handed
out, in every run whose commits are undisturbed. -/
theorem pooledPages_inOnePlace {opts : KvOptions} (hpool : opts.dataAppendMode = false)
    {s₀ s : Pinned} (h₀ : s₀.Accounted) (hlost₀ : s₀.lost = [])
    (hrun : PinRuns opts Undisturbed s₀ s) :
    (∀ fp < s.maxFilePageId, s.InOnePlace fp) ∧ (s.pendingPages ++ s.poolPages).Nodup ∧
      ∀ t, s.partition.task = some t → t.cow.mapper.allocator.allocate.1 ∉ s.mappedPages := by
  have hinv : s.Accounted ∧ s.lost = [] := by
    refine hrun.invariant (fun s ↦ s.Accounted ∧ s.lost = []) ⟨h₀, hlost₀⟩ ?_
    rintro s e s' ⟨h, hlost⟩ ⟨hsmall, hcommit⟩ hstep
    refine ⟨h.event hpool hsmall hstep, ?_⟩
    -- only a commit adds to what is lost
    cases e with
    | begin =>
      obtain ⟨-, rfl⟩ := ite_some_none_eq_some.1 hstep
      exact hlost
    | step a =>
      obtain ⟨-, p', -, rfl⟩ := PinEvent.step_ok hstep
      exact hlost
    | commit =>
      obtain ⟨p', -, rfl⟩ := map_eq_some_iff.1 hstep
      rw [hlost, hcommit rfl]
      rfl
    | abort =>
      obtain ⟨-, ⟨⟩⟩ := ite_none_left_eq_some.1 hstep
      exact hlost
    | release =>
      obtain ⟨fps, rest, -, rfl⟩ := PinEvent.release_ok hstep
      exact hlost
  obtain ⟨h, hlost⟩ := hinv
  refine ⟨fun fp hlt ↦ h.inOnePlace hlt (by simp [hlost]), ?_, fun t ht ↦ h.allocate_notMem ht⟩
  cases hm : s.currentMapper with
  | some m => exact (nodup_append.1 (h.current hm).nodup).1
  | none =>
    have htask : s.partition.task = none := by
      cases ht : s.partition.task with
      | none => rfl
      | some t => simp [Pinned.currentMapper, ht] at hm
    have hpub : s.partition.publishedMapper = none := by
      simpa [Pinned.currentMapper, htask] using hm
    obtain ⟨hp, -, hr⟩ := h.stub hpub
    simp [Pinned.pendingPages, Pinned.poolPages, hp, htask, hm, hr]

def pooledOptions : KvOptions := ⟨false, 4, 1, 1000000, 2, 1, false, "", ""⟩

/-- A write that creates a leaf and a root, and one that rewrites the leaf. -/
private def twoWrites : List PinEvent :=
  [.begin, .step .getPage, .step (.allocatePage (some 0)), .step (.allocatePage none),
    .step (.setRoots (some 1) none 0), .commit, .release,
    .begin, .step (.allocatePage (some 0)), .commit]

/-- The reader of the first mapping leaves before the third write starts. -/
theorem pooledPages_inOnePlace_three_writes : ∃ s : Pinned, s.maxFilePageId = 3 ∧
    s.poolPages = [] ∧ (∀ fp < s.maxFilePageId, s.InOnePlace fp) ∧
      (s.pendingPages ++ s.poolPages).Nodup ∧
      ∀ t, s.partition.task = some t → t.cow.mapper.allocator.allocate.1 ∉ s.mappedPages := by
  obtain ⟨s, hrun, hmax, hpool⟩ : ∃ s, PinRuns pooledOptions Undisturbed (Pinned.fresh "main" 0) s ∧
      s.maxFilePageId = 3 ∧ s.poolPages = [] :=
    exists_reach_of_exec
      (twoWrites ++ [.release, .begin, .step (.allocatePage (some 0)), .commit])
      (by decide +kernel)
  exact ⟨s, hmax, hpool,
    pooledPages_inOnePlace rfl (Pinned.accounted_fresh "main" 0) rfl hrun⟩

/-- Page `0` has come back during the third write, which is handed a page that no mapping uses. -/
theorem handedOut_notMem_mappedPages_returned : ∃ (s : Pinned) (t : WriteTask),
    s.returned = [0] ∧ t.cow.mapper.allocator.allocate.1 ∉ s.mappedPages := by
  obtain ⟨s, hrun, hret, htask⟩ : ∃ s, PinRuns pooledOptions SmallTables (Pinned.fresh "main" 0) s ∧
      s.returned = [0] ∧ s.partition.task.isSome = true :=
    exists_reach_of_exec (twoWrites ++ [.begin, .release]) (by decide +kernel)
  obtain ⟨t, ht⟩ := isSome_iff_exists.1 htask
  exact ⟨s, t, hret, handedOut_notMem_mappedPages rfl (Pinned.accounted_fresh "main" 0) hrun ht⟩

/-- **A page is lost** when the reader of the first mapping leaves after the third write has
started: page `0` returns to the pool that the commit replaces. -/
theorem pooledPage_lost : ∃ s : Pinned,
    PinRuns pooledOptions SmallTables (Pinned.fresh "main" 0) s ∧ s.partition.task = none ∧
      0 < s.maxFilePageId ∧ 0 ∉ s.mappedPages ∧ 0 ∉ s.pendingPages ∧ 0 ∉ s.poolPages := by
  exact exists_reach_of_exec (twoWrites ++ [.begin, .release,
    .step (.allocatePage (some 0)), .commit]) (by decide +kernel)

end EloqStore
