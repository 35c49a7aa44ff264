import EloqStore.Foundation.Swizzling

/-!
# Cached pages that are being moved

A cached page carries the place of its page. A page is **moved** by giving the cached page its new
place at once, before anything is there and while the mappings that point to it still mean the old
place. A list of the cached pages that have been moved, with the places they had, allows the moves
to be taken back (`restore`).

While pages are being moved the live mappings cannot rely on the cache as it is, but on the cache
with the moves taken back: the statement to keep is `Coherent T live (c.restore moved)`. An
operation on a page that has not been moved commutes with `restore`, so what it does to a coherent
cache is known from the operation itself.
-/

namespace Swizzling

open Function List

variable {M A P F C : Type*}

namespace Cache

variable [DecidableEq A] (c : Cache M A P F C)

/-- A cached page gets another place. -/
def setPlace (a : A) (f : Option F) : Cache M A P F C :=
  { c with pages := Function.update c.pages a { c.pages a with filePageId := f } }

/-- The moves are taken back, the oldest one first. -/
def restore : List (A × Option F) → Cache M A P F C
  | [] => c
  | x :: moved => (restore moved).setPlace x.1 x.2

variable {c} {moved : List (A × Option F)} {m : M} {p : P} {a : A} {f : F}

@[simp] theorem restore_slots : (c.restore moved).slots = c.slots := by
  induction moved with
  | nil => rfl
  | cons x moved ih => exact ih

@[simp] theorem restore_loads : (c.restore moved).loads = c.loads := by
  induction moved with
  | nil => rfl
  | cons x moved ih => exact ih

@[simp] theorem restore_disk : (c.restore moved).disk = c.disk := by
  induction moved with
  | nil => rfl
  | cons x moved ih => exact ih

theorem restore_page (c : Cache M A P F C) (moved : List (A × Option F)) (a : A) :
    ∃ f, (c.restore moved).pages a = { c.pages a with filePageId := f } := by
  induction moved with
  | nil => exact ⟨_, rfl⟩
  | cons x moved ih =>
    by_cases hax : a = x.1
    · subst hax
      obtain ⟨f, hf⟩ := ih
      refine ⟨x.2, ?_⟩
      show update (c.restore moved).pages x.1 _ x.1 = _
      rw [update_self, hf]
    · show ∃ f, update (c.restore moved).pages x.1 _ a = _
      rw [update_of_ne hax]
      exact ih

@[simp] theorem restore_status (a : A) :
    ((c.restore moved).pages a).status = (c.pages a).status := by
  obtain ⟨f, hf⟩ := c.restore_page moved a
  rw [hf]

@[simp] theorem restore_pageId (a : A) :
    ((c.restore moved).pages a).pageId = (c.pages a).pageId := by
  obtain ⟨f, hf⟩ := c.restore_page moved a
  rw [hf]

theorem restore_page_of_notMem (ha : a ∉ moved.map (·.1)) :
    (c.restore moved).pages a = c.pages a := by
  induction moved with
  | nil => rfl
  | cons x moved ih =>
    rw [map_cons, mem_cons, not_or] at ha
    show update (c.restore moved).pages x.1 _ a = _
    rw [update_of_ne ha.1, ih ha.2]

/-- To the page that has been written nothing happens if it is on the active list already. -/
theorem finishWrite_of_active [DecidableEq M] [DecidableEq P] (h : (c.pages a).status = .active) :
    c.finishWrite m p a = c.setSlots m (update (c.slots m) p <|
      match c.slots m p with
      | some (.pointer b) => some (.pointer b)
      | _ => some (.pointer a)) := by
  have hpage : { c.pages a with status := .active } = c.pages a := by
    rw [← h]
  rw [finishWrite, hpage, update_eq_self]
  rfl

/-- What is not about pages can change before or after. -/
theorem restore_mk (slots : M → P → Option (Slot A F)) (loads : List (A × M))
    (disk : F → Option C) :
    (⟨c.pages, slots, loads, disk⟩ : Cache M A P F C).restore moved =
      ⟨(c.restore moved).pages, slots, loads, disk⟩ := by
  induction moved with
  | nil => rfl
  | cons x moved ih =>
    rw [restore, ih]
    rfl

theorem restore_update (ha : a ∉ moved.map (·.1)) (pg : CachedPage P F C)
    (slots : M → P → Option (Slot A F)) (loads : List (A × M)) (disk : F → Option C) :
    (⟨update c.pages a pg, slots, loads, disk⟩ : Cache M A P F C).restore moved =
      ⟨update (c.restore moved).pages a pg, slots, loads, disk⟩ := by
  induction moved with
  | nil => rfl
  | cons x moved ih =>
    rw [map_cons, mem_cons, not_or] at ha
    rw [restore, ih ha.2]
    simp only [setPlace, restore, update_of_ne (Ne.symm ha.1)]
    rw [update_comm ha.1]

theorem restore_setPlace (ha : a ∉ moved.map (·.1)) (f : Option F) :
    (c.setPlace a f).restore moved = (c.restore moved).setPlace a f := by
  simp only [setPlace, restore_update ha, restore_page_of_notMem ha, restore_slots, restore_loads,
    restore_disk]

/-- **A move that is taken back** leaves nothing behind. -/
theorem restore_cons_setPlace (ha : a ∉ moved.map (·.1)) (f : Option F) :
    (c.setPlace a f).restore ((a, (c.pages a).filePageId) :: moved) = c.restore moved := by
  have hback : ((c.restore moved).setPlace a f).setPlace a ((c.restore moved).pages a).filePageId =
      c.restore moved := by
    simp only [setPlace, update_self, update_idem, update_eq_self]
  rw [restore, restore_setPlace ha]
  rwa [restore_page_of_notMem ha] at hback

variable [DecidableEq M] [DecidableEq P]

theorem restore_startLoad (ha : a ∉ moved.map (·.1)) :
    (c.startLoad m p a f).restore moved = (c.restore moved).startLoad m p a f := by
  simp only [startLoad, restore_update ha, restore_page_of_notMem ha, restore_slots, restore_loads,
    restore_disk]

omit [DecidableEq P] in
theorem restore_finishLoad (ha : a ∉ moved.map (·.1)) :
    (c.finishLoad a m).restore moved = (c.restore moved).finishLoad a m := by
  simp only [finishLoad, restore_update ha, restore_page_of_notMem ha, restore_slots,
    restore_loads, restore_disk]

theorem restore_setSlot : (c.setSlot m p).restore moved = (c.restore moved).setSlot m p := by
  simp only [setSlot, restore_mk, restore_slots, restore_loads, restore_disk]

omit [DecidableEq P] in
theorem restore_setSlots (slots : P → Option (Slot A F)) :
    (c.setSlots m slots).restore moved = (c.restore moved).setSlots m slots := by
  simp only [setSlots, restore_mk, restore_slots, restore_loads, restore_disk]

variable [DecidableEq F]

omit [DecidableEq M] [DecidableEq P] in
theorem restore_putDisk (v : Option C) :
    (c.putDisk f v).restore moved = (c.restore moved).putDisk f v := by
  simp only [putDisk, restore_mk, restore_slots, restore_loads, restore_disk]

omit [DecidableEq M] in
theorem restore_unswizzled (ha : a ∉ moved.map (·.1)) :
    (c.restore moved).unswizzled a = c.unswizzled a := by
  funext m p
  simp only [unswizzled, restore_page_of_notMem ha, restore_slots]

theorem restore_failLoad (ha : a ∉ moved.map (·.1)) :
    (c.failLoad a m).restore moved = (c.restore moved).failLoad a m := by
  simp only [failLoad, restore_update ha, restore_page_of_notMem ha, restore_unswizzled ha,
    restore_slots, restore_loads, restore_disk]

omit [DecidableEq M] in
theorem restore_recycle (ha : a ∉ moved.map (·.1)) (registered : M → Bool) :
    (c.recycle registered a).restore moved = (c.restore moved).recycle registered a := by
  simp only [recycle, restore_update ha, restore_page_of_notMem ha, restore_unswizzled ha,
    restore_slots, restore_loads, restore_disk]

end Cache

end Swizzling
