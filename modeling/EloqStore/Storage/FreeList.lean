import EloqStore.Foundation.Transition
import EloqStore.Storage.PageMapper

/-!
# The free list of a page mapper

The logical ids that are not in use form a list, threaded through the mapping table: `FreePage`
stores the head of the list in the slot of the id it frees. The link is shifted by the three tag
bits in 32 bits, so an id from `2 ^ 29` on is linked as another one, and `GetPage` then hands out an
id that is in use (`hands_out_used`). In a table of at most `2 ^ 29` slots the list has every free
id once (`UsedMapper.free_list_of_clean`).
-/

namespace EloqStore

open List MappingTbl PageMapper

/-! ### The free logical ids -/

/-- The value of a free logical id's slot: a link to the next one. -/
def freeLink : Option ℕ → MappingValue
  | none => .invalid
  | some next => .pageId next

/-- The free logical ids of a mapper, first one first: each one's slot links to the next. -/
structure PageMapper.FreeIds (m : PageMapper) (ids : List ℕ) : Prop where
  /-- The list starts at the mapper's head. -/
  head : m.freePageHead = ids.head?
  nodup : ids.Nodup
  link : ∀ pre p rest, ids = pre ++ p :: rest → m.tbl[p]? = some (freeLink rest.head?)

namespace PageMapper

variable {m : PageMapper} {ids : List ℕ} {p : ℕ}

theorem FreeIds.slot (h : m.FreeIds ids) (hp : p ∈ ids) :
    ∃ next, m.tbl[p]? = some (freeLink next) := by
  obtain ⟨pre, rest, rfl⟩ := append_of_mem hp
  exact ⟨_, h.link pre p rest rfl⟩

theorem FreeIds.lt_length (h : m.FreeIds ids) (hp : p ∈ ids) : p < m.tbl.length := by
  obtain ⟨next, hslot⟩ := h.slot hp
  exact (List.getElem?_eq_some_iff.1 hslot).1

theorem FreeIds.toFilePage_eq_none (h : m.FreeIds ids) (hp : p ∈ ids) : m.toFilePage p = none := by
  obtain ⟨next, hslot⟩ := h.slot hp
  show (m.tbl[p]?).bind MappingValue.filePage? = none
  rw [hslot]
  cases next <;> rfl

theorem freeIds_empty (a : FilePageAllocator) : (PageMapper.empty a).FreeIds [] where
  head := rfl
  nodup := nodup_nil
  link _ _ _ h := absurd h (by simp)

theorem FreeIds.of_slots {m' : PageMapper} (h : m.FreeIds ids)
    (hhead : m'.freePageHead = m.freePageHead)
    (hslots : ∀ q ∈ ids, m'.tbl[q]? = m.tbl[q]?) : m'.FreeIds ids where
  head := hhead.trans h.head
  nodup := h.nodup
  link pre q rest heq := (hslots q (by simp [heq])).trans (h.link pre q rest heq)

variable {tbl : MappingTbl} {v : MappingValue}

theorem getElem?_put_of_ne {q : ℕ} (v : MappingValue) (hne : q ≠ p) (hq : q < tbl.length) :
    (tbl.put p v)[q]? = tbl[q]? := by
  unfold put
  split
  · exact getElem?_set_ne (Ne.symm hne)
  · rw [append_assoc, getElem?_append_left hq]

theorem getElem?_put_self (v : MappingValue) (hp : p < tbl.length) :
    (tbl.put p v)[p]? = some v := by
  rw [put, if_pos hp, getElem?_set_self hp]

theorem length_put (hp : p < tbl.length) : (tbl.put p v).length = tbl.length := by
  rw [put, if_pos hp, length_set]

theorem FreeIds.updateMapping (h : m.FreeIds ids) (hp : p ∉ ids) (fp : ℕ) :
    (m.updateMapping p fp).FreeIds ids :=
  h.of_slots rfl fun _ hq ↦
    getElem?_put_of_ne _ (fun heq ↦ hp (heq ▸ hq)) (h.lt_length hq)

/-- **Freeing an id** that is not free puts it in front, as long as the link to the old head keeps
all its bits. -/
theorem FreeIds.freePage (h : m.FreeIds ids) (hp : p ∉ ids) (hlt : p < m.tbl.length)
    (hsmall : m.tbl.length ≤ 2 ^ 29) : (m.freePage p).FreeIds (p :: ids) := by
  have htbl : (m.freePage p).tbl = m.tbl.put p (freeLink ids.head?) := by
    cases hhead : ids.head? with
    | none =>
      simp only [PageMapper.freePage, h.head, hhead]
      rfl
    | some q =>
      have hq : q < m.tbl.length := h.lt_length (List.mem_of_mem_head? hhead)
      simp only [PageMapper.freePage, h.head, hhead, encodePageId, freeLink]
      rw [Nat.mod_eq_of_lt (by omega)]
  refine ⟨rfl, List.nodup_cons.2 ⟨hp, h.nodup⟩, fun pre q rest heq ↦ ?_⟩
  rw [htbl]
  rcases List.cons_eq_append_iff.1 heq with ⟨rfl, htail⟩ | ⟨pre', rfl, htail⟩
  · obtain ⟨rfl, rfl⟩ := List.cons.inj htail
    exact getElem?_put_self _ hlt
  · have hq : q ∈ ids := by simp [htail]
    have hne : q ≠ p := fun hqp ↦ hp (hqp ▸ hq)
    rw [getElem?_put_of_ne _ hne (h.lt_length hq)]
    exact h.link pre' q rest htail

/-- **Reserving an id** takes the first free one, or one past the table. -/
theorem FreeIds.getPage_cases (h : m.FreeIds ids) :
    ids = [] ∧ m.getPage = (m.tbl.length, { m with tbl := m.tbl ++ [.invalid] }) ∨
      ∃ p rest, ids = p :: rest ∧ m.getPage = (p, { m with
        tbl := m.tbl.put p .invalid
        freePageHead := rest.head?
        freePageCnt := m.freePageCnt - 1 }) := by
  cases ids with
  | nil =>
    have hhead : m.freePageHead = none := h.head
    exact .inl ⟨rfl, by simp only [getPage, hhead]⟩
  | cons p rest =>
    have hhead : m.freePageHead = some p := h.head
    have hslot : m.tbl[p]? = some (freeLink rest.head?) := h.link [] p rest rfl
    have hnext : m.getNextFree p = rest.head? := by
      rw [getNextFree, hslot]
      cases rest.head? <;> rfl
    exact .inr ⟨p, rest, rfl, by simp only [getPage, hhead, hnext]⟩

/-- The id that is reserved is not mapped, and the others stay free. -/
theorem FreeIds.getPage (h : m.FreeIds ids) :
    m.getPage.2.FreeIds ids.tail ∧ m.getPage.1 ∉ ids.tail ∧ m.toFilePage m.getPage.1 = none := by
  rcases h.getPage_cases with ⟨rfl, hget⟩ | ⟨p, rest, rfl, hget⟩
  · rw [hget]
    refine ⟨⟨h.head, nodup_nil, by simp⟩, by simp, ?_⟩
    show (m.tbl[m.tbl.length]?).bind _ = none
    rw [getElem?_eq_none (le_rfl)]
    rfl
  · obtain ⟨hp, hrest⟩ := nodup_cons.1 h.nodup
    rw [hget]
    refine ⟨⟨rfl, hrest, fun pre q tail heq ↦ ?_⟩, hp, h.toFilePage_eq_none mem_cons_self⟩
    have hq : q ∈ rest := by
      rw [show rest = _ from heq]
      simp
    have hne : q ≠ p := fun hqp ↦ hp (hqp ▸ hq)
    exact (getElem?_put_of_ne _ hne (h.lt_length (mem_cons_of_mem _ hq))).trans
      (h.link (p :: pre) q tail (congrArg (p :: ·) heq))

end PageMapper

/-- A call of a page mapper. -/
inductive MapperCall
  | getPage
  | freePage (page : ℕ)
  | updateMapping (page fp : ℕ)
deriving DecidableEq, Repr

/-- A page mapper and the logical ids its users have. -/
structure UsedMapper where
  mapper : PageMapper
  /-- The ids that were handed out and not freed since. -/
  inUse : List ℕ

namespace MapperCall

def run (s : UsedMapper) : MapperCall → UsedMapper
  | .getPage => ⟨s.mapper.getPage.2, s.mapper.getPage.1 :: s.inUse⟩
  | .freePage page => ⟨s.mapper.freePage page, s.inUse.erase page⟩
  | .updateMapping page fp => ⟨s.mapper.updateMapping page fp, s.inUse⟩

/-- Only ids in use are freed and mapped. -/
def OfUser (s : UsedMapper) : MapperCall → Prop
  | .getPage => True
  | .freePage page | .updateMapping page _ => page ∈ s.inUse

/-- **The condition on a call**: it is about an id in use, and the table does not grow beyond
`2 ^ 29` slots. -/
def Clean (s : UsedMapper) (c : MapperCall) : Prop :=
  c.OfUser s ∧ (c = .getPage → s.mapper.freePageHead = none → s.mapper.tbl.length < 2 ^ 29)

instance (s : UsedMapper) : (c : MapperCall) → Decidable (c.OfUser s)
  | .getPage => inferInstanceAs (Decidable True)
  | .freePage page | .updateMapping page _ => inferInstanceAs (Decidable (page ∈ s.inUse))

instance (s : UsedMapper) (c : MapperCall) : Decidable (c.Clean s) :=
  inferInstanceAs (Decidable (_ ∧ _))

end MapperCall

/-- The states a new mapper reaches by calls that meet the guard. -/
def MapperRuns (G : UsedMapper → MapperCall → Prop) (a : FilePageAllocator) (s : UsedMapper) :
    Prop :=
  Transition.Reach (fun s c t ↦ some (c.run s) = some t) G ⟨.empty a, []⟩ s

namespace UsedMapper

open PageMapper

variable {s : UsedMapper} {page : ℕ}

/-- **The free list is in order**: it has what the users do not have. -/
structure Linked (s : UsedMapper) (free : List ℕ) : Prop where
  links : s.mapper.FreeIds free
  ids : (free ++ s.inUse).Perm (List.range s.mapper.tbl.length)
  count : s.mapper.freePageCnt = free.length
  room : s.mapper.tbl.length ≤ 2 ^ 29

namespace Linked

variable {free : List ℕ}

variable (h : s.Linked free)

include h

theorem nodup : (free ++ s.inUse).Nodup := h.ids.nodup_iff.2 nodup_range

theorem lt_length (hpage : page ∈ s.inUse) : page < s.mapper.tbl.length :=
  mem_range.1 (h.ids.mem_iff.1 (mem_append_right _ hpage))

theorem notMem (hpage : page ∈ s.inUse) : page ∉ free := fun hmem ↦
  (nodup_append.1 h.nodup).2.2 page hmem page hpage rfl

/-- An id is taken from the list, or the table grows. -/
theorem getPage (hroom : s.mapper.freePageHead = none → s.mapper.tbl.length < 2 ^ 29) :
    s.mapper.getPage.1 ∉ s.inUse ∧ (MapperCall.getPage.run s).Linked free.tail := by
  obtain ⟨hlinks, -⟩ := h.links.getPage
  rw [MapperCall.run]
  rcases h.links.getPage_cases with ⟨rfl, hget⟩ | ⟨page, rest, rfl, hget⟩
  · rw [hget] at hlinks ⊢
    refine ⟨fun hmem ↦ lt_irrefl _ (h.lt_length hmem), hlinks, ?_, h.count, ?_⟩
    · rw [length_append, length_singleton, range_succ]
      exact (h.ids.cons _).trans (perm_append_singleton _ _).symm
    · rw [length_append, length_singleton]
      exact hroom h.links.head
  · have hlt := h.links.lt_length mem_cons_self
    rw [hget] at hlinks ⊢
    refine ⟨fun hmem ↦ h.notMem hmem mem_cons_self, hlinks, ?_, by simp [h.count], ?_⟩
    · rw [length_put hlt]
      exact perm_middle.trans h.ids
    · rw [length_put hlt]
      exact h.room

theorem freePage (hpage : page ∈ s.inUse) :
    ((MapperCall.freePage page).run s).Linked (page :: free) := by
  have hlt := h.lt_length hpage
  refine ⟨h.links.freePage (h.notMem hpage) hlt h.room, ?_, congrArg (· + 1) h.count, ?_⟩
  · have hperm := (perm_cons_erase hpage).append_left free
    rw [MapperCall.run, PageMapper.freePage, length_put hlt]
    exact (perm_middle.symm.trans hperm.symm).trans h.ids
  · rw [MapperCall.run, PageMapper.freePage, length_put hlt]
    exact h.room

theorem updateMapping (hpage : page ∈ s.inUse) (fp : ℕ) :
    ((MapperCall.updateMapping page fp).run s).Linked free := by
  have hlt := h.lt_length hpage
  refine ⟨h.links.updateMapping (h.notMem hpage) fp, ?_, h.count, ?_⟩
  · rw [MapperCall.run, PageMapper.updateMapping, length_put hlt]
    exact h.ids
  · rw [MapperCall.run, PageMapper.updateMapping, length_put hlt]
    exact h.room

end Linked

/-- **What the users of a mapper rely on.** -/
structure Sound (s : UsedMapper) : Prop where
  /-- An id that is in use is not handed out. -/
  fresh : s.mapper.getPage.1 ∉ s.inUse
  /-- The free list from the head has each free id once, and its length is the counter. -/
  free : ∃ free, s.mapper.FreeIds free ∧
    (∀ page, page ∈ free ↔ page < s.mapper.tbl.length ∧ page ∉ s.inUse) ∧
      free.length = s.mapper.freePageCnt
  /-- `MappingCount` is the number of ids in use. -/
  count : s.inUse.Nodup ∧ s.mapper.mappingCount = s.inUse.length

theorem Linked.sound {free : List ℕ} (h : s.Linked free) : s.Sound := by
  have hlen := h.ids.length_eq
  rw [length_append, length_range] at hlen
  refine ⟨?_, ⟨free, h.links, fun page ↦ ⟨fun hmem ↦ ?_, fun ⟨hlt, hnot⟩ ↦ ?_⟩, h.count.symm⟩,
    (nodup_append.1 h.nodup).2.1, ?_⟩
  · rcases h.links.getPage_cases with ⟨-, hget⟩ | ⟨page, rest, rfl, hget⟩
    · rw [hget]
      exact fun hmem ↦ lt_irrefl _ (h.lt_length hmem)
    · rw [hget]
      exact fun hmem ↦ h.notMem hmem mem_cons_self
  · exact ⟨h.links.lt_length hmem, fun huse ↦ h.notMem huse hmem⟩
  · exact (mem_append.1 (h.ids.mem_iff.2 (mem_range.2 hlt))).resolve_right hnot
  · rw [mappingCount, h.count]
    omega

/-- **The free list of a mapper**: in every run of calls about ids in use, on a table of at most
`2 ^ 29` slots, no id in use is handed out, the free list has each free id once, and the counters
are right. -/
theorem free_list_of_clean (a : FilePageAllocator) (h : MapperRuns MapperCall.Clean a s) :
    s.Sound := by
  have hnew : Linked ⟨.empty a, []⟩ [] := ⟨freeIds_empty a, .refl _, rfl, Nat.zero_le _⟩
  obtain ⟨free, hfree⟩ : ∃ free, s.Linked free := by
    refine h.invariant (fun s : UsedMapper ↦ ∃ free, s.Linked free) ⟨[], hnew⟩ ?_
    rintro s c t ⟨free, hs⟩ ⟨huser, hroom⟩ hstep
    cases hstep
    cases c with
    | getPage => exact ⟨_, (hs.getPage (hroom rfl)).2⟩
    | freePage page => exact ⟨_, hs.freePage huser⟩
    | updateMapping page fp => exact ⟨_, hs.updateMapping huser fp⟩
  exact hfree.sound

/-- Two ids are handed out and the first is freed: it is the free list. -/
theorem free_list_of_clean_freed :
    ∃ s, MapperRuns MapperCall.Clean ⟨0, 0, .pooled []⟩ s ∧ s.mapper.freePageHead = some 0 ∧
      s.Sound :=
  Transition.exists_reach_and_of_exec (fun hrun ↦ free_list_of_clean _ hrun)
    [.getPage, .getPage, .freePage 0] (by decide +kernel)

theorem runs_getPage (G : UsedMapper → MapperCall → Prop) (hG : ∀ s, G s .getPage)
    (a : FilePageAllocator) (n : ℕ) :
    MapperRuns G a ⟨⟨List.replicate n .invalid, none, 0, a⟩, (List.range n).reverse⟩ := by
  induction n with
  | zero => exact .start
  | succ n ih =>
    refine ih.step (hG _) ?_
    simp [MapperCall.run, getPage, replicate_succ', range_succ]

/-- The last id and then id 5 are freed, and 5 is handed out again. The link from 5 to the last id
is one to 0, if the last id is lost in 29 bits. -/
theorem exists_used {last : ℕ} (hlast : 5 < last) (hlost : last % 2 ^ 29 = 0) :
    ∃ s, MapperRuns MapperCall.OfUser ⟨0, 0, .pooled []⟩ s ∧ s.mapper.getPage.1 ∈ s.inUse := by
  let m : PageMapper := ⟨replicate (last + 1) .invalid, none, 0, ⟨0, 0, .pooled []⟩⟩
  have hlen : last < m.tbl.length := by simp [m]
  have hfive : 5 ∈ (range (last + 1)).reverse.erase last :=
    (mem_erase_of_ne hlast.ne).2 (by simp; omega)
  have hrun : MapperRuns MapperCall.OfUser ⟨0, 0, .pooled []⟩
      ⟨((m.freePage last).freePage 5).getPage.2,
        5 :: ((range (last + 1)).reverse.erase last).erase 5⟩ :=
    ((Transition.Reach.step (a := MapperCall.freePage last)
      (runs_getPage MapperCall.OfUser (fun _ ↦ trivial) ⟨0, 0, .pooled []⟩ (last + 1))
      (by simp [MapperCall.OfUser]) rfl).step (a := MapperCall.freePage 5) hfive rfl).step
      (a := MapperCall.getPage) trivial rfl
  have hnext : ((m.freePage last).freePage 5).getNextFree 5 = some 0 := by
    have hlt : 5 < (m.freePage last).tbl.length := by
      rw [freePage, length_put hlen]
      omega
    have hslot : ((m.freePage last).freePage 5).tbl[5]? = some (encodePageId last) :=
      getElem?_put_self _ hlt
    rw [getNextFree, hslot]
    exact congrArg some hlost
  have hhead : (((m.freePage last).freePage 5).getPage.2).freePageHead = some 0 := hnext
  have hfst : (((m.freePage last).freePage 5).getPage.2).getPage.1 = 0 := by
    rw [getPage, hhead]
  have hzero : 0 ∈ ((range (last + 1)).reverse.erase last).erase 5 :=
    (mem_erase_of_ne (by decide)).2 ((mem_erase_of_ne (by omega)).2 (by simp))
  exact ⟨_, hrun, mem_cons_of_mem _ (hfst ▸ hzero)⟩

/-- **An id in use is handed out.** -/
theorem hands_out_used :
    ∃ s, MapperRuns MapperCall.OfUser ⟨0, 0, .pooled []⟩ s ∧ s.mapper.getPage.1 ∈ s.inUse :=
  exists_used (by decide) (Nat.mod_self (2 ^ 29))

end UsedMapper

end EloqStore
