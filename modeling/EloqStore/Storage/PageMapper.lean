import EloqStore.Types

/-!
# Mapping tables, file-page allocators and page mappers

A `PageMapper` owns a mapping table, the list of free logical ids threaded through that table, and
the allocator of file pages. Data pages use an append allocator in append mode and a pool of freed
file pages otherwise; segments always append.

A mapping table holds tagged values. A table slot is a file page, a link to the next free logical
id, or invalid; the fourth kind of the source, a pointer to a cached page, stands for the file page
that the cached page carries and is not distinguished here. `toFilePage` is what a table *denotes*:
the file page of each mapped logical id. The lemmas of this file describe every operation through
`toFilePage`, so that nothing below depends on the shape of the free list.
-/

namespace EloqStore

open List

/-- A value of a mapping table. -/
inductive MappingValue
  | filePageId (fp : ℕ)
  /-- The logical id is free; the next free one is linked. -/
  | pageId (next : ℕ)
  /-- The logical id is free and last in the free list, or not mapped yet. -/
  | invalid
deriving DecidableEq, Repr

def MappingValue.filePage? : MappingValue → Option ℕ
  | .filePageId fp => some fp
  | .pageId _ => none
  | .invalid => none

/-- The link to a free page. The source shifts the 32-bit page id left by the three tag bits in
32-bit arithmetic, so only its low 29 bits survive. -/
def encodePageId (page : ℕ) : MappingValue := .pageId (page % 2 ^ 29)

/-! ### Mapping tables -/

/-- A mapping table, indexed by logical id. -/
abbrev MappingTbl := List MappingValue

namespace MappingTbl

variable (tbl : MappingTbl)

/-- Store a value, growing the table with invalid slots as needed. -/
def put (page : ℕ) (v : MappingValue) : MappingTbl :=
  if page < tbl.length then tbl.set page v
  else tbl ++ replicate (page - tbl.length) .invalid ++ [v]

/-- The file page a logical id is mapped to. -/
def toFilePage (page : ℕ) : Option ℕ :=
  (tbl[page]?).bind MappingValue.filePage?

/-- The mapped file pages, by increasing logical id, each with its logical id. -/
def mapped : List (ℕ × ℕ) :=
  (range tbl.length).filterMap fun page ↦ (tbl.toFilePage page).map fun fp ↦ (fp, page)

@[simp] theorem toFilePage_nil (page : ℕ) : toFilePage [] page = none := rfl

/-- **What storing a value does to what the table denotes.** -/
theorem toFilePage_put (page : ℕ) (v : MappingValue) (q : ℕ) :
    (tbl.put page v).toFilePage q = if q = page then v.filePage? else tbl.toFilePage q := by
  unfold put toFilePage
  split
  · next hlt =>
    rw [getElem?_set]
    split
    · next h => simp [h.symm]
    · next h => rw [if_neg (Ne.symm h)]
  · next hge =>
    rcases Nat.lt_trichotomy q page with hq | rfl | hq
    · rw [if_neg hq.ne, append_assoc, getElem?_append]
      split
      · rfl
      · next hql =>
        have hnone : tbl[q]? = none := getElem?_eq_none (by omega)
        rw [hnone, getElem?_append_left (by simp; omega), getElem?_replicate]
        split <;> rfl
    · rw [if_pos rfl, getElem?_append_right (by simp; omega)]
      have hidx : q - (tbl ++ replicate (q - tbl.length) MappingValue.invalid).length = 0 := by
        simp
        omega
      simp only [hidx, getElem?_cons_zero, Option.bind_some]
    · rw [if_neg hq.ne', getElem?_eq_none (by simp; omega),
        getElem?_eq_none (by omega)]

theorem toFilePage_concat_invalid (q : ℕ) :
    toFilePage (tbl ++ [.invalid]) q = tbl.toFilePage q := by
  unfold toFilePage
  rw [getElem?_append]
  split
  · rfl
  · next h =>
    rw [getElem?_eq_none (not_lt.1 h)]
    rcases hq : q - tbl.length with - | n
    · rfl
    · rfl

theorem mem_mapped {tbl : MappingTbl} {fp page : ℕ} :
    (fp, page) ∈ tbl.mapped ↔ tbl.toFilePage page = some fp := by
  simp only [mapped, mem_filterMap, mem_range, Option.map_eq_some_iff, Prod.mk.injEq]
  constructor
  · rintro ⟨p, -, fp', hfp, rfl, rfl⟩
    exact hfp
  · intro h
    refine ⟨page, ?_, fp, h, rfl, rfl⟩
    by_contra hge
    rw [toFilePage, getElem?_eq_none (by omega)] at h
    cases h

/-- Every mapped file page lies below `bound`. -/
def Below (bound : ℕ) : Prop :=
  ∀ page fp, tbl.toFilePage page = some fp → fp < bound

theorem below_nil (bound : ℕ) : Below [] bound := fun page fp h ↦ by
  rw [toFilePage_nil] at h
  cases h

theorem Below.mono {tbl : MappingTbl} {b b' : ℕ} (h : tbl.Below b) (hle : b ≤ b') : tbl.Below b' :=
  fun page fp hfp ↦ (h page fp hfp).trans_le hle

theorem Below.put {tbl : MappingTbl} {b page : ℕ} {v : MappingValue} (h : tbl.Below b)
    (hv : ∀ fp, v.filePage? = some fp → fp < b) : (tbl.put page v).Below b := by
  intro q fp hfp
  rw [toFilePage_put] at hfp
  split at hfp
  · exact hv fp hfp
  · exact h q fp hfp

end MappingTbl

/-! ### Allocators -/

/-- What distinguishes the two allocators. -/
inductive AllocatorKind
  /-- Append only, with the statistics of `AppendAllocator`. -/
  | append (minFileId emptyFileCnt : ℕ)
  /-- A pool of freed file pages, next one first. -/
  | pooled (freeIds : List ℕ)
deriving DecidableEq, Repr

/-- An allocator of file pages. `maxFpId` is the smallest id never allocated. -/
structure FilePageAllocator where
  /-- Base-two logarithm of the pages of a file. -/
  shift : ℕ
  /-- The smallest file page id never allocated. -/
  maxFpId : ℕ
  kind : AllocatorKind
deriving DecidableEq, Repr

namespace FilePageAllocator

variable (a : FilePageAllocator)

/-- The file the next fresh page belongs to. -/
def currentFileId : ℕ := fileOf a.shift a.maxFpId

/-- Take a file page: the pool's next one if there is one, a fresh one otherwise. -/
def allocate : ℕ × FilePageAllocator :=
  match a.kind with
  | .append _ _ => (a.maxFpId, { a with maxFpId := a.maxFpId + 1 })
  | .pooled [] => (a.maxFpId, { a with maxFpId := a.maxFpId + 1 })
  | .pooled (fp :: rest) => (fp, { a with kind := .pooled rest })

/-- The allocator statistics a compaction records. A minimum file beyond the current one (the
partition has been emptied) moves the allocator to that file's start. -/
def updateStat (minFileId holeCnt : ℕ) : FilePageAllocator :=
  { a with
    maxFpId := if a.maxFpId < minFileId <<< a.shift then minFileId <<< a.shift else a.maxFpId
    kind := .append minFileId holeCnt }

/-- The file pages an append allocator accounts for: 64-bit arithmetic, with the empty files'
pages computed in 32 bits. -/
def spaceSize : ℕ :=
  match a.kind with
  | .append minFileId emptyFileCnt =>
    (((a.maxFpId : ℤ) - (minFileId <<< a.shift : ℕ) - (emptyFileCnt <<< a.shift % 2 ^ 32 : ℕ)) %
      2 ^ 64).toNat
  | .pooled _ => 0

def IsAppend : Prop := ∃ m e, a.kind = .append m e

@[simp] theorem allocate_shift : a.allocate.2.shift = a.shift := by
  unfold allocate
  split <;> rfl

theorem maxFpId_le_allocate : a.maxFpId ≤ a.allocate.2.maxFpId := by
  unfold allocate
  split <;> simp

theorem maxFpId_le_updateStat (m h : ℕ) : a.maxFpId ≤ (a.updateStat m h).maxFpId := by
  simp only [updateStat]
  split <;> omega

theorem fileOf_mono (shift : ℕ) {m n : ℕ} (h : m ≤ n) : fileOf shift m ≤ fileOf shift n := by
  simp only [fileOf, Nat.shiftRight_eq_div_pow]
  exact Nat.div_le_div_right h

theorem currentFileId_le_allocate : a.currentFileId ≤ a.allocate.2.currentFileId := by
  rw [currentFileId, currentFileId, allocate_shift]
  exact fileOf_mono _ a.maxFpId_le_allocate

variable {a}

theorem IsAppend.allocate (h : a.IsAppend) : a.allocate.2.IsAppend := by
  obtain ⟨m, e, hk⟩ := h
  exact ⟨m, e, by simp [FilePageAllocator.allocate, hk]⟩

theorem isAppend_updateStat (a : FilePageAllocator) (m h : ℕ) : (a.updateStat m h).IsAppend :=
  ⟨m, h, rfl⟩

/-- An append allocator hands out its maximum and moves past it. -/
theorem IsAppend.allocate_eq (h : a.IsAppend) :
    a.allocate = (a.maxFpId, { a with maxFpId := a.maxFpId + 1 }) := by
  obtain ⟨m, e, hk⟩ := h
  simp [FilePageAllocator.allocate, hk]

/-- Every pooled file page lies below the maximum. -/
def PoolBelow (a : FilePageAllocator) : Prop :=
  ∀ ids, a.kind = .pooled ids → ∀ fp ∈ ids, fp < a.maxFpId

theorem IsAppend.poolBelow (h : a.IsAppend) : a.PoolBelow := by
  intro ids hids
  obtain ⟨m, e, hk⟩ := h
  rw [hk] at hids
  cases hids

/-- **What an allocation hands out lies below the new maximum**, and the pool stays below it. -/
theorem PoolBelow.allocate (h : a.PoolBelow) :
    a.allocate.1 < a.allocate.2.maxFpId ∧ a.allocate.2.PoolBelow := by
  unfold FilePageAllocator.allocate
  split
  · next m e hk => exact ⟨Nat.lt_succ_self _, IsAppend.poolBelow ⟨m, e, hk⟩⟩
  · next hk =>
    refine ⟨Nat.lt_succ_self _, fun ids hids fp hfp ↦ ?_⟩
    simp only [hk, AllocatorKind.pooled.injEq] at hids
    simp [← hids] at hfp
  · next fp rest hk =>
    refine ⟨h _ hk fp (by simp), fun ids hids q hq ↦ ?_⟩
    simp only [AllocatorKind.pooled.injEq] at hids
    subst hids
    exact h _ hk q (mem_cons_of_mem _ hq)

end FilePageAllocator

/-! ### Page mappers -/

/-- A page mapper. -/
structure PageMapper where
  tbl : MappingTbl
  freePageHead : Option ℕ
  freePageCnt : ℕ
  allocator : FilePageAllocator
deriving DecidableEq, Repr

namespace PageMapper

def empty (allocator : FilePageAllocator) : PageMapper := ⟨[], none, 0, allocator⟩

variable (m : PageMapper)

/-- The free page after `page` in the free list. -/
def getNextFree (page : ℕ) : Option ℕ :=
  match m.tbl[page]? with
  | some (.pageId next) => some next
  | some (.filePageId fp) => some fp
  | some .invalid => none
  | none => none

/-- Reserve a logical id: the first free one, or a new one. -/
def getPage : ℕ × PageMapper :=
  match m.freePageHead with
  | none => (m.tbl.length, { m with tbl := m.tbl ++ [.invalid] })
  | some page =>
    (page, { m with
      tbl := m.tbl.put page .invalid
      freePageHead := m.getNextFree page
      freePageCnt := m.freePageCnt - 1 })

/-- Free a logical id, linking it in front of the free list. -/
def freePage (page : ℕ) : PageMapper :=
  { m with
    tbl := m.tbl.put page <| match m.freePageHead with
      | none => .invalid
      | some head => encodePageId head
    freePageHead := some page
    freePageCnt := m.freePageCnt + 1 }

/-- Map a logical id to a file page. -/
def updateMapping (page fp : ℕ) : PageMapper :=
  { m with tbl := m.tbl.put page (.filePageId fp) }

/-- The number of logical ids in use. -/
def mappingCount : ℕ := m.tbl.length - m.freePageCnt

def toFilePage (page : ℕ) : Option ℕ := m.tbl.toFilePage page

@[simp] theorem toFilePage_empty (a : FilePageAllocator) (page : ℕ) :
    (empty a).toFilePage page = none := rfl

include m

@[simp] theorem getPage_allocator : m.getPage.2.allocator = m.allocator := by
  unfold getPage
  split <;> rfl

@[simp] theorem freePage_allocator (page : ℕ) :
    (m.freePage page).allocator = m.allocator := rfl

theorem toFilePage_freePage (page q : ℕ) :
    (m.freePage page).toFilePage q = if q = page then none else m.toFilePage q := by
  simp only [toFilePage, freePage, MappingTbl.toFilePage_put]
  cases m.freePageHead <;> rfl

theorem toFilePage_updateMapping (page fp q : ℕ) :
    (m.updateMapping page fp).toFilePage q = if q = page then some fp else m.toFilePage q := by
  simp only [toFilePage, updateMapping, MappingTbl.toFilePage_put, MappingValue.filePage?]

/-- Reserving an id unmaps it, if it was mapped at all. -/
theorem toFilePage_getPage (q : ℕ) :
    m.getPage.2.toFilePage q = if q = m.getPage.1 then none else m.toFilePage q := by
  unfold getPage
  split
  · simp only [toFilePage, MappingTbl.toFilePage_concat_invalid]
    split
    · next h => rw [h, MappingTbl.toFilePage, getElem?_eq_none (le_rfl)]; rfl
    · rfl
  · simp only [toFilePage, MappingTbl.toFilePage_put, MappingValue.filePage?]

end PageMapper

end EloqStore
