import Mathlib.Data.List.Nodup

/-!
# Cached pages behind the slots of mappings

A **mapping** sends logical pages to places on disk. One of its slots may hold, instead of the
place, a pointer to a cached copy of the page, which then carries the place. A mapping is made by
copying another one, pointers included, so several mappings can point to one cached page; when the
page is recycled, the pointers to it are replaced by the place in every mapping that is registered.

`T m p` is what mapping `m` means page `p` to be, and `Coherent T live c` says that the slots of the
live mappings can be relied on: every pointer is to a cached page that still is that page, with the
content of its place. In a coherent cache a read gives what is on disk at `T m p`, cached or not
(`Coherent.read_eq`). The other results say which operation keeps a cache coherent, and what it
takes: a page can be **recycled** if every live mapping is registered, and a failed read can be
**given up** if no other live mapping points to its page.
-/

namespace Swizzling

open Function List Option

/-- Where a cached page is. -/
inductive Status
  | free
  /-- On no list: it is being read or written. -/
  | detached
  | active
deriving DecidableEq, Repr

/-- A cached page. -/
structure CachedPage (P F C : Type*) where
  pageId : Option P := none
  filePageId : Option F := none
  content : Option C := none
  status : Status := .free

/-- What a slot holds instead of what the mapping was made with. -/
inductive Slot (A F : Type*)
  | pointer (a : A)
  /-- A place that has replaced a pointer. -/
  | file (f : F)
deriving DecidableEq

/-- A page cache with the slots of all mappings, and the disk behind it. -/
structure Cache (M A P F C : Type*) where
  pages : A → CachedPage P F C
  /-- The slots that do not hold what the mapping was made with. -/
  slots : M → P → Option (Slot A F)
  /-- The reads in progress, each with the mapping it goes through. -/
  loads : List (A × M)
  disk : F → Option C

variable {M A P F C : Type*}

/-- Nothing is cached and nothing is on disk. -/
def Cache.empty : Cache M A P F C :=
  ⟨fun _ ↦ {}, fun _ _ ↦ none, [], fun _ ↦ none⟩

/-! ### Operations -/

namespace Cache

section Read

variable (c : Cache M A P F C)

def toFile (T : M → P → Option F) (m : M) (p : P) : Option F :=
  match c.slots m p with
  | some (.pointer a) => (c.pages a).filePageId
  | some (.file f) => some f
  | none => T m p

def isSwizzled (m : M) (p : P) : Bool :=
  match c.slots m p with
  | some (.pointer _) => true
  | _ => false

/-- **What a read of a page through a mapping gives.** A page that is still being read is waited
for. -/
def read (T : M → P → Option F) (m : M) (p : P) : Option C :=
  match c.slots m p with
  | some (.pointer a) =>
    if (c.pages a).status = .detached then (c.pages a).filePageId.bind c.disk
    else (c.pages a).content
  | some (.file f) => c.disk f
  | none => (T m p).bind c.disk

end Read

variable [DecidableEq M] [DecidableEq A] [DecidableEq P] [DecidableEq F]
variable (c : Cache M A P F C)

/-- Whether a page is being read can be told from the reads in progress. -/
instance decidableMemLoads (a : A) (m : M) : Decidable ((a, m) ∈ c.loads) := inferInstance

/-- The slots of a mapping after the pointer to a cached page has been replaced by its place. -/
def unswizzled (a : A) (m : M) : P → Option (Slot A F) := fun p ↦
  if (c.pages a).pageId = some p ∧ c.slots m p = some (.pointer a) then
    (c.pages a).filePageId.map .file
  else c.slots m p

/-- Start to read a page through a mapping into a free cached page. -/
def startLoad (m : M) (p : P) (a : A) (f : F) : Cache M A P F C :=
  { c with
    pages := Function.update c.pages a
      { c.pages a with pageId := some p, filePageId := some f, status := .detached }
    slots := Function.update c.slots m (Function.update (c.slots m) p (some (.pointer a)))
    loads := (a, m) :: c.loads }

def finishLoad (a : A) (m : M) : Cache M A P F C :=
  { c with
    pages := Function.update c.pages a
      { c.pages a with content := (c.pages a).filePageId.bind c.disk, status := .active }
    loads := c.loads.erase (a, m) }

/-- The read has failed and its page is not freed yet: **only the mapping it went through** is
changed back. -/
def dropLoad (a : A) (m : M) : Cache M A P F C :=
  { c with
    slots := Function.update c.slots m (c.unswizzled a m)
    loads := c.loads.erase (a, m) }

/-- The read has failed: **only the mapping it went through** is changed back. -/
def failLoad (a : A) (m : M) : Cache M A P F C :=
  { c with
    pages := Function.update c.pages a { c.pages a with status := .free }
    slots := Function.update c.slots m (c.unswizzled a m)
    loads := c.loads.erase (a, m) }

/-- Recycle a cached page: the **registered** mappings are changed back. The bytes stay. -/
def recycle (registered : M → Bool) (a : A) : Cache M A P F C :=
  { c with
    pages := Function.update c.pages a { content := (c.pages a).content }
    slots := fun m ↦ if registered m then c.unswizzled a m else c.slots m }

/-- A mapping is made to mean something else for a page. -/
def setSlot (m : M) (p : P) : Cache M A P F C :=
  { c with slots := Function.update c.slots m (Function.update (c.slots m) p none) }

/-- Take a free cached page for a page that is to be written. -/
def startWrite (p : P) (a : A) (f : F) (v : C) : Cache M A P F C :=
  { c with pages := Function.update c.pages a ⟨some p, some f, some v, .detached⟩ }

/-- A place on disk gets a content. -/
def putDisk (f : F) (v : Option C) : Cache M A P F C :=
  { c with disk := Function.update c.disk f v }

/-- A page has been written: the mapping gets a pointer to the cached page, unless it has one. -/
def finishWrite (m : M) (p : P) (a : A) : Cache M A P F C :=
  { c with
    pages := Function.update c.pages a { c.pages a with status := .active }
    slots := Function.update c.slots m <| Function.update (c.slots m) p <|
      match c.slots m p with
      | some (.pointer b) => some (.pointer b)
      | _ => some (.pointer a) }

/-- A page could not be written: its cached page is freed. -/
def failWrite (a : A) : Cache M A P F C :=
  { c with pages := Function.update c.pages a { c.pages a with status := .free } }

/-- A mapping gets all its slots anew. -/
def setSlots (m : M) (slots : P → Option (Slot A F)) : Cache M A P F C :=
  { c with slots := Function.update c.slots m slots }

omit [DecidableEq A] [DecidableEq F] in
theorem slots_of_setSlot {c : Cache M A P F C} {m m' : M} {p p' : P} {s : Slot A F}
    (h : (c.setSlot m p).slots m' p' = some s) : c.slots m' p' = some s := by
  by_cases hm : m' = m
  · subst hm
    by_cases hp : p' = p
    · simp [setSlot, hp] at h
    · simpa [setSlot, hp] using h
  · simpa [setSlot, hm] using h

omit [DecidableEq A] [DecidableEq F] in
theorem slots_update_of_ne {c : Cache M A P F C} {m m' : M} {p p' : P} {v : Option (Slot A F)}
    (h : ¬ (m' = m ∧ p' = p)) :
    update c.slots m (update (c.slots m) p v) m' p' = c.slots m' p' := by
  by_cases hm : m' = m
  · rw [hm, update_self, update_of_ne fun hp ↦ h ⟨hm, hp⟩]
  · rw [update_of_ne hm]

section Unswizzled

omit [DecidableEq M]
variable {c : Cache M A P F C} {m : M} {p : P} {a b : A}

theorem unswizzled_of_ne (hs : c.slots m p = some (.pointer b)) (hb : b ≠ a) :
    c.unswizzled a m p = some (.pointer b) := by
  rw [unswizzled, if_neg fun hcond ↦ ?_, hs]
  exact hb (Slot.pointer.inj (some.inj (hs.symm.trans hcond.2)))

theorem slots_of_unswizzled (hs : c.unswizzled a m p = some (.pointer b)) :
    c.slots m p = some (.pointer b) := by
  rw [unswizzled] at hs
  split at hs
  · cases hf : (c.pages a).filePageId <;> simp [hf] at hs
  · exact hs

end Unswizzled

end Cache

/-! ### Coherence -/

/-- A slot can be relied on: a pointer is to a cached page that is that page, and has been read or
is being read. -/
def Cache.SlotOk (c : Cache M A P F C) (T : P → Option F) (p : P) : Slot A F → Prop
  | .pointer a => (c.pages a).pageId = some p ∧ (∃ f, (c.pages a).filePageId = some f ∧
      T p = some f ∧ ((c.pages a).status = .active ∧ (c.pages a).content = c.disk f ∨
        (c.pages a).status = .detached ∧ a ∈ c.loads.map (·.1)))
  | .file f => T p = some f

/-- **The slots of the live mappings can be relied on.** -/
structure Coherent (T : M → P → Option F) (live : M → Prop) (c : Cache M A P F C) : Prop where
  slot : ∀ m, live m → ∀ p s, c.slots m p = some s → c.SlotOk (T m) p s
  load : ∀ x ∈ c.loads, (c.pages x.1).status = .detached
  nodup : (c.loads.map (·.1)).Nodup

open Cache

theorem coherent_empty (T : M → P → Option F) (live : M → Prop) :
    Coherent T live (empty : Cache M A P F C) where
  slot _ _ _ _ h := absurd h (by simp [empty])
  load _ h := absurd h (by simp [empty])
  nodup := by simp [empty]

namespace Coherent

variable {T T' : M → P → Option F} {live live' : M → Prop} {c : Cache M A P F C} {m : M} {p : P}
  {a : A} {f : F}

section

variable (h : Coherent T live c) (hm : live m)

include h hm

/-- **In a coherent cache a read gives what is on disk.** -/
theorem read_eq (p : P) :
    c.read T m p = (T m p).bind c.disk := by
  unfold Cache.read
  split
  · next a hs =>
    obtain ⟨-, f, hf, hT, hstate⟩ := h.slot m hm p _ hs
    rcases hstate with ⟨hact, hcont⟩ | ⟨hdet, -⟩
    · rw [if_neg (by simp [hact]), hcont, hT]
      rfl
    · rw [if_pos hdet, hf, hT]
  · next f hs =>
    have hT : T m p = some f := h.slot m hm p _ hs
    rw [hT]
    rfl
  · rfl

theorem toFile_eq (p : P) : c.toFile T m p = T m p := by
  unfold toFile
  split
  · next a hs =>
    obtain ⟨-, f, hf, hT, -⟩ := h.slot m hm p _ hs
    rw [hf, hT]
  · next f hs => exact (h.slot m hm p _ hs).symm
  · rfl

theorem status_ne_free (hs : c.slots m p = some (.pointer a)) : (c.pages a).status ≠ .free := by
  obtain ⟨-, f, -, -, ⟨hact, -⟩ | ⟨hdet, -⟩⟩ := h.slot m hm p _ hs
  · simp [hact]
  · simp [hdet]

/-- A page that is being written, and not read, is not pointed to. -/
theorem slot_ne_pointer (hdet : (c.pages a).status = .detached) (ha : a ∉ c.loads.map (·.1))
    (p : P) : c.slots m p ≠ some (.pointer a) := by
  intro hs
  obtain ⟨-, f, -, -, ⟨hact, -⟩ | ⟨-, hmem⟩⟩ := h.slot m hm p _ hs
  · rw [hdet] at hact
    cases hact
  · exact ha hmem

end

theorem mono (h : Coherent T live c) (hlive : ∀ m, live' m → live m)
    (hT : ∀ m, live' m → T' m = T m) : Coherent T' live' c where
  slot m hm p s hs := hT m hm ▸ h.slot m (hlive m hm) p s hs
  __ := h

/-- A slot that can be relied on stays so when neither its cached page nor its place changes. -/
private theorem slotOk_frame {c' : Cache M A P F C} {t : P → Option F} {s : Slot A F}
    (h : c.SlotOk t p s) (hpages : ∀ b, s = .pointer b → c'.pages b = c.pages b)
    (hloads : ∀ b, s = .pointer b → b ∈ c.loads.map (·.1) → b ∈ c'.loads.map (·.1))
    (hdisk : ∀ b g, s = .pointer b → t p = some g → c'.disk g = c.disk g) : c'.SlotOk t p s := by
  cases s with
  | file g => exact h
  | pointer b =>
    obtain ⟨hid, g, hg, hT, hstate⟩ := h
    rw [SlotOk, hpages b rfl]
    refine ⟨hid, g, hg, hT, hstate.imp (fun hact ↦ ⟨hact.1, ?_⟩) fun hdet ↦ ⟨hdet.1, ?_⟩⟩
    · rw [hact.2, hdisk b g rfl hT]
    · exact hloads b rfl hdet.2

section

variable (h : Coherent T live c)

include h

private theorem notMem_loads (ha : (c.pages a).status ≠ .detached) :
    a ∉ c.loads.map (·.1) := by
  intro hmem
  obtain ⟨x, hx, rfl⟩ := mem_map.1 hmem
  exact ha (h.load x hx)

/-- Changing a page that is neither pointed to nor being read. -/
theorem update_page [DecidableEq A] (pg : CachedPage P F C)
    (hslot : ∀ m, live m → ∀ p, c.slots m p ≠ some (.pointer a)) (ha : a ∉ c.loads.map (·.1)) :
    Coherent T live { c with pages := update c.pages a pg } where
  slot m hm p s hs := by
    refine slotOk_frame (h.slot m hm p s hs) (fun b hb ↦ ?_) (fun _ _ hmem ↦ hmem)
      fun _ _ _ _ ↦ rfl
    have hne : b ≠ a := fun hba ↦ hslot m hm p (hba ▸ hb ▸ hs)
    exact update_of_ne hne _ _
  load x hx := by
    have hne : x.1 ≠ a := fun hxa ↦ ha (mem_map.2 ⟨x, hx, hxa⟩)
    show (update c.pages a pg x.1).status = .detached
    rw [update_of_ne hne]
    exact h.load x hx
  nodup := h.nodup

/-- **Making a mapping mean something else** for one page. -/
theorem setSlot [DecidableEq M] [DecidableEq P]
    (hT : ∀ m' p', (m' ≠ m ∨ p' ≠ p) → T' m' p' = T m' p') :
    Coherent T' live (c.setSlot m p) where
  slot m' hm p' s hs := by
    by_cases hhere : m' = m ∧ p' = p
    · obtain ⟨rfl, rfl⟩ := hhere
      simp [setSlot] at hs
    · have hne : m' ≠ m ∨ p' ≠ p := by
        by_contra hcon
        push Not at hcon
        exact hhere hcon
      have hok := h.slot m' hm p' s (slots_of_setSlot hs)
      cases s with
      | file g => exact (hT m' p' hne).trans hok
      | pointer b =>
        obtain ⟨hid, g, hg, hTg, hstate⟩ := hok
        exact ⟨hid, g, hg, (hT m' p' hne).trans hTg, hstate⟩
  __ := h

/-- Taking a free page for a page that is to be written. -/
theorem startWrite [DecidableEq A] (ha : (c.pages a).status = .free) (p : P) (f : F) (v : C) :
    Coherent T live (c.startWrite p a f v) :=
  h.update_page _ (fun _ hm _ hs ↦ h.status_ne_free hm hs ha) (h.notMem_loads (by simp [ha]))

/-- **A place that no live mapping points past** gets a content. -/
theorem putDisk [DecidableEq F] (v : Option C)
    (hf : ∀ m, live m → ∀ p, T m p = some f → ∀ a, c.slots m p ≠ some (.pointer a)) :
    Coherent T live (c.putDisk f v) where
  slot m hm p s hs := by
    refine slotOk_frame (h.slot m hm p s hs) (fun _ _ ↦ rfl) (fun _ _ hmem ↦ hmem)
      fun b g hb hT ↦ ?_
    have hne : g ≠ f := fun hgf ↦ hf m hm p (hgf ▸ hT) b (hb ▸ hs)
    exact update_of_ne hne _ _
  __ := h

/-- **A page that has been written** at its place. -/
theorem finishWrite [DecidableEq M] [DecidableEq A] [DecidableEq P] {v : C}
    (hpage : c.pages a = ⟨some p, some f, some v, .detached⟩) (ha : a ∉ c.loads.map (·.1))
    (hT : T m p = some f) (hdisk : c.disk f = some v) : Coherent T live (c.finishWrite m p a) where
  slot m' hm p' s hs := by
    have hcases : s = .pointer a ∧ m' = m ∧ p' = p ∨ c.slots m' p' = some s := by
      by_cases hhere : m' = m ∧ p' = p
      · obtain ⟨rfl, rfl⟩ := hhere
        simp only [finishWrite, update_self] at hs
        split at hs
        · next b hb => exact .inr (hb.trans hs)
        · exact .inl ⟨(some.inj hs).symm, rfl, rfl⟩
      · exact .inr ((slots_update_of_ne hhere).symm.trans hs)
    rcases hcases with ⟨rfl, rfl, rfl⟩ | hold
    · refine ⟨?_, f, ?_, hT, .inl ⟨?_, ?_⟩⟩ <;> simp [finishWrite, hpage, hdisk]
    · refine slotOk_frame (h.slot m' hm p' s hold) (fun b hb ↦ ?_) (fun _ _ hmem ↦ hmem)
        fun _ _ _ _ ↦ rfl
      have hne : b ≠ a := fun hba ↦
        h.slot_ne_pointer hm (by rw [hpage]) ha p' (hba ▸ hb ▸ hold)
      exact update_of_ne hne _ _
  load x hx := by
    have hne : x.1 ≠ a := fun hxa ↦ ha (mem_map.2 ⟨x, hx, hxa⟩)
    show (update c.pages a _ x.1).status = .detached
    rw [update_of_ne hne]
    exact h.load x hx
  nodup := h.nodup

theorem failWrite [DecidableEq A] (hdet : (c.pages a).status = .detached)
    (ha : a ∉ c.loads.map (·.1)) :
    Coherent T live (c.failWrite a) :=
  h.update_page _ (fun _ hm p ↦ h.slot_ne_pointer hm hdet ha p) ha

theorem setSlots [DecidableEq M] (hm : ¬ live m) (slots : P → Option (Slot A F)) :
    Coherent T live (c.setSlots m slots) where
  slot m' hm' p s hs := by
    have hne : m' ≠ m := fun heq ↦ hm (heq ▸ hm')
    have hold : c.slots m' p = some s := by simpa [Cache.setSlots, hne] using hs
    exact slotOk_frame (h.slot m' hm' p s hold) (fun _ _ ↦ rfl) (fun _ _ hmem ↦ hmem)
      fun _ _ _ _ ↦ rfl
  __ := h

end

section

variable [DecidableEq A] [DecidableEq P] (h : Coherent T live c)

include h

/-- **Starting to read** a page at its place into a free page. -/
theorem startLoad [DecidableEq M] (ha : (c.pages a).status = .free) (hT : T m p = some f) :
    Coherent T live (c.startLoad m p a f) where
  slot m' hm p' s hs := by
    by_cases hhere : m' = m ∧ p' = p
    · obtain ⟨rfl, rfl⟩ := hhere
      have hs' : s = .pointer a := by simpa [startLoad] using hs.symm
      rw [hs']
      simp [SlotOk, startLoad, hT]
    · have hold : c.slots m' p' = some s := (slots_update_of_ne hhere).symm.trans hs
      refine slotOk_frame (h.slot m' hm p' s hold) (fun b hb ↦ ?_)
        (fun _ _ hmem ↦ mem_cons_of_mem _ hmem) fun _ _ _ _ ↦ rfl
      have hne : b ≠ a := fun hba ↦ h.status_ne_free hm (hb ▸ hold) (hba ▸ ha)
      exact update_of_ne hne _ _
  load x hx := by
    show (update c.pages a _ x.1).status = .detached
    by_cases hxa : x.1 = a
    · rw [hxa, update_self]
    · rw [update_of_ne hxa]
      refine h.load x ((mem_cons.1 hx).resolve_left fun heq ↦ hxa ?_)
      rw [heq]
  nodup := nodup_cons.2 ⟨h.notMem_loads (by simp [ha]), h.nodup⟩

/-- A mapping in which a page's pointer has been replaced by its place. -/
theorem slotOk_unswizzled [DecidableEq F] (hm : live m) {s : Slot A F}
    (hs : c.unswizzled a m p = some s) : c.SlotOk (T m) p s ∧ s ≠ .pointer a := by
  unfold unswizzled at hs
  split at hs
  · next hcond =>
    obtain ⟨-, f, hf, hT, -⟩ := h.slot m hm p _ hcond.2
    rw [hf] at hs
    cases hs
    exact ⟨hT, by simp⟩
  · next hcond =>
    refine ⟨h.slot m hm p s hs, fun hsa ↦ ?_⟩
    obtain ⟨hid, -⟩ := h.slot m hm p (.pointer a) (hsa ▸ hs)
    exact hcond ⟨hid, hsa ▸ hs⟩

/-- **Recycling a page** when every live mapping is registered. -/
theorem recycle [DecidableEq F] {registered : M → Bool} (hreg : ∀ m, live m → registered m = true)
    (ha : (c.pages a).status = .active) :
    Coherent T live (c.recycle registered a) where
  slot m hm p s hs := by
    have hs' : c.unswizzled a m p = some s := by simpa [Cache.recycle, hreg m hm] using hs
    obtain ⟨hok, hsa⟩ := h.slotOk_unswizzled hm hs'
    refine slotOk_frame hok (fun b hb ↦ ?_) (fun _ _ hmem ↦ hmem) fun _ _ _ _ ↦ rfl
    exact update_of_ne (fun hba ↦ hsa (by rw [hb, hba])) _ _
  load x hx := by
    have hne : x.1 ≠ a := fun hxa ↦
      h.notMem_loads (by simp [ha]) (mem_map.2 ⟨x, hx, hxa⟩)
    show (update c.pages a _ x.1).status = .detached
    rw [update_of_ne hne]
    exact h.load x hx
  nodup := h.nodup

end

section Loads

variable [DecidableEq M] [DecidableEq A]

section

variable (h : Coherent T live c) (hmem : (a, m) ∈ c.loads)

include h hmem

/-- Of the reads in progress, only the one that ends is into its page. -/
private theorem mem_erase {x : A × M} :
    x ∈ c.loads.erase (a, m) ↔ x ∈ c.loads ∧ x.1 ≠ a := by
  have hnodup : c.loads.Nodup := h.nodup.of_map _
  rw [hnodup.mem_erase_iff]
  constructor
  · rintro ⟨hne, hx⟩
    refine ⟨hx, fun hxa ↦ hne ?_⟩
    exact inj_on_of_nodup_map h.nodup hx hmem hxa
  · rintro ⟨hx, hxa⟩
    exact ⟨fun heq ↦ hxa (by rw [heq]), hx⟩

private theorem mem_erase_map {b : A} (hb : b ∈ c.loads.map (·.1)) (hne : b ≠ a) :
    b ∈ (c.loads.erase (a, m)).map (·.1) := by
  obtain ⟨x, hx, rfl⟩ := mem_map.1 hb
  exact mem_map.2 ⟨x, (h.mem_erase hmem).2 ⟨hx, hne⟩, rfl⟩

private theorem load_erase {pg : CachedPage P F C} {x : A × M} (hx : x ∈ c.loads.erase (a, m)) :
    (update c.pages a pg x.1).status = .detached := by
  obtain ⟨hx, hxa⟩ := (h.mem_erase hmem).1 hx
  rw [update_of_ne hxa]
  exact h.load x hx

end

private theorem nodup_erase (h : Coherent T live c) (x : A × M) :
    ((c.loads.erase x).map (·.1)).Nodup :=
  h.nodup.sublist (erase_sublist.map _)

theorem finishLoad (h : Coherent T live c) (hmem : (a, m) ∈ c.loads) :
    Coherent T live (c.finishLoad a m) where
  slot m' hm p s hs := by
    by_cases hsa : s = .pointer a
    · obtain ⟨hid, f, hf, hT, -⟩ := h.slot m' hm p _ (hsa ▸ hs)
      rw [hsa]
      refine ⟨?_, f, ?_, hT, .inl ⟨?_, ?_⟩⟩ <;> simp [Cache.finishLoad, hid, hf]
    · refine slotOk_frame (h.slot m' hm p s hs) (fun b hb ↦ ?_) (fun b hb hbl ↦ ?_)
        fun _ _ _ _ ↦ rfl
      · exact update_of_ne (fun hba ↦ hsa (by rw [hb, hba])) _ _
      · exact h.mem_erase_map hmem hbl fun hba ↦ hsa (by rw [hb, hba])
  load _ hx := h.load_erase hmem hx
  nodup := h.nodup_erase _

variable [DecidableEq P] [DecidableEq F]

variable (h : Coherent T live c) (hmem : (a, m) ∈ c.loads)

include h hmem

/-- **A read that fails**, of a page that no other live mapping points to: nothing points to it any
more. -/
theorem dropLoad (halone : ∀ m', live m' → m' ≠ m → ∀ p, c.slots m' p ≠ some (.pointer a)) :
    Coherent T live (c.dropLoad a m) where
  slot m' hm p s hs := by
    have hok : c.SlotOk (T m') p s ∧ s ≠ .pointer a := by
      by_cases hm' : m' = m
      · subst hm'
        refine h.slotOk_unswizzled hm ?_
        simpa [dropLoad] using hs
      · have hold : c.slots m' p = some s := by simpa [Cache.dropLoad, hm'] using hs
        exact ⟨h.slot m' hm p s hold, fun hsa ↦ halone m' hm hm' p (hsa ▸ hold)⟩
    refine slotOk_frame hok.1 (fun _ _ ↦ rfl) (fun b hb hbl ↦ ?_) fun _ _ _ _ ↦ rfl
    exact h.mem_erase_map hmem hbl fun hba ↦ hok.2 (by rw [hb, hba])
  load _ hx := h.load _ ((h.mem_erase hmem).1 hx).1
  nodup := h.nodup_erase _

theorem notMem_dropLoad :
    a ∉ (c.dropLoad a m).loads.map (·.1) := by
  intro ha
  obtain ⟨x, hx, hxa⟩ := mem_map.1 ha
  exact ((h.mem_erase hmem).1 hx).2 hxa

/-- **A read that fails**, and its page is freed. -/
theorem failLoad (halone : ∀ m', live m' → m' ≠ m → ∀ p, c.slots m' p ≠ some (.pointer a)) :
    Coherent T live (c.failLoad a m) :=
  (h.dropLoad hmem halone).failWrite (h.load _ hmem) (h.notMem_dropLoad hmem)

end Loads

/-- **One more live mapping**, made by copying one: every pointer it has, the other one has too. -/
theorem add_copy (h : Coherent T live c) {m' : M} (hm : live m) (hT : T m' = T m)
    (hfile : ∀ p f, c.slots m' p = some (.file f) → T m' p = some f)
    (hptr : ∀ p a, c.slots m' p = some (.pointer a) → c.slots m p = some (.pointer a)) :
    Coherent T (fun k ↦ live k ∨ k = m') c where
  slot k hk p s hs := by
    rcases hk with hk | rfl
    · exact h.slot k hk p s hs
    · cases s with
      | file f => exact hfile p f hs
      | pointer a =>
        rw [hT]
        exact h.slot m hm p _ (hptr p a hs)
  __ := h

end Coherent

/-! ### Reads under way and the mappings they go through -/

/-- **A pointer to a page that is not on a list yet** is the pointer of the mapping that the page is
being read through. -/
def LoadedThrough (live : M → Prop) (c : Cache M A P F C) : Prop :=
  ∀ m, live m → ∀ p a, c.slots m p = some (.pointer a) → (c.pages a).status = .detached →
    (a, m) ∈ c.loads

namespace LoadedThrough

variable {T : M → P → Option F} {live live' : M → Prop} {c c' : Cache M A P F C} {m : M} {p : P}
  {a : A} {f : F}

theorem empty (live : M → Prop) : LoadedThrough live (empty : Cache M A P F C) :=
  fun _ _ _ _ h ↦ absurd h (by simp [Cache.empty])

/-- **Every pointer was there before**, its page was not on a list then, and its read goes on. -/
theorem frame (h : LoadedThrough live c)
    (hold : ∀ m, live' m → ∀ p b, c'.slots m p = some (.pointer b) →
      (c'.pages b).status = .detached → live m ∧ c.slots m p = some (.pointer b) ∧
        (c.pages b).status = .detached ∧ ((b, m) ∈ c.loads → (b, m) ∈ c'.loads)) :
    LoadedThrough live' c' := by
  intro m hm p b hs hdet
  obtain ⟨hm', hs', hdet', hload⟩ := hold m hm p b hs hdet
  exact hload (h m hm' p b hs' hdet')

theorem mono (h : LoadedThrough live c) (hlive : ∀ m, live' m → live m) : LoadedThrough live' c :=
  h.frame fun m hm _ _ hs hdet ↦ ⟨hlive m hm, hs, hdet, id⟩

/-- One more live mapping, with pointers to pages on the active list only. -/
theorem add_copy (h : LoadedThrough live c) {m' : M}
    (hact : ∀ p a, c.slots m' p = some (.pointer a) → (c.pages a).status = .active) :
    LoadedThrough (fun k ↦ live k ∨ k = m') c := by
  rintro k (hk | rfl) p a hs hdet
  · exact h k hk p a hs hdet
  · cases (hact p a hs).symm.trans hdet

/-- No other live mapping points to a page that is being read. -/
theorem alone (h : LoadedThrough live c) (hc : Coherent T live c) (hmem : (a, m) ∈ c.loads)
    {m' : M} (hm' : live m') (hne : m' ≠ m) (p : P) : c.slots m' p ≠ some (.pointer a) := by
  intro hs
  have hload := h m' hm' p a hs (hc.load _ hmem)
  exact hne (congrArg Prod.snd (inj_on_of_nodup_map hc.nodup hload hmem rfl))

section Pages

variable [DecidableEq A]

/-- A page that is no longer off the lists, or that nothing points to. -/
theorem update_page (h : LoadedThrough live c) (pg : CachedPage P F C)
    (hpg : pg.status = .detached → ∀ m, live m → ∀ p, c.slots m p ≠ some (.pointer a)) :
    LoadedThrough live { c with pages := update c.pages a pg } := by
  refine h.frame fun m hm p b hs hdet ↦ ⟨hm, hs, ?_, id⟩
  by_cases hba : b = a
  · subst hba
    exact absurd hs (hpg (by simpa using hdet) m hm p)
  · simpa [hba] using hdet

theorem failWrite (h : LoadedThrough live c) (a : A) : LoadedThrough live (c.failWrite a) :=
  h.update_page _ fun hdet ↦ absurd hdet (by simp)

theorem recycle [DecidableEq P] [DecidableEq F] (h : LoadedThrough live c)
    (registered : M → Bool) (a : A) : LoadedThrough live (c.recycle registered a) := by
  refine h.frame fun m hm p b hs hdet ↦ ?_
  have hba : b ≠ a := fun hba ↦ by simp [Cache.recycle, hba] at hdet
  refine ⟨hm, ?_, by simpa [Cache.recycle, hba] using hdet, id⟩
  simp only [Cache.recycle] at hs
  split at hs
  · exact slots_of_unswizzled hs
  · exact hs

end Pages

section Mappings

variable [DecidableEq M]

theorem setSlot [DecidableEq P] (h : LoadedThrough live c) (m : M) (p : P) :
    LoadedThrough live (c.setSlot m p) :=
  h.frame fun _ hm' _ _ hs hdet ↦ ⟨hm', slots_of_setSlot hs, hdet, id⟩

theorem setSlots (h : LoadedThrough live c) (hm : ¬ live m) (slots : P → Option (Slot A F)) :
    LoadedThrough live (c.setSlots m slots) := by
  refine h.frame fun m' hm' p' b hs hdet ↦ ⟨hm', ?_, hdet, id⟩
  have hne : m' ≠ m := fun heq ↦ hm (heq ▸ hm')
  simpa [Cache.setSlots, hne] using hs

variable [DecidableEq A]

/-- A page that has been written is on the active list. -/
theorem finishWrite [DecidableEq P] (h : LoadedThrough live c) (m : M) (p : P) (a : A) :
    LoadedThrough live (c.finishWrite m p a) := by
  refine h.frame fun m' hm' p' b hs hdet ↦ ?_
  have hba : b ≠ a := fun hba ↦ by simp [Cache.finishWrite, hba] at hdet
  refine ⟨hm', ?_, by simpa [Cache.finishWrite, hba] using hdet, id⟩
  by_cases hhere : m' = m ∧ p' = p
  · obtain ⟨rfl, rfl⟩ := hhere
    simp only [Cache.finishWrite, update_self] at hs
    split at hs
    · next b' hb' => rw [hb', ← hs]
    · exact absurd (Slot.pointer.inj (some.inj hs)).symm hba
  · exact (slots_update_of_ne hhere).symm.trans hs

theorem finishLoad (h : LoadedThrough live c) (a : A) (m : M) :
    LoadedThrough live (c.finishLoad a m) := by
  refine h.frame fun m' hm' p b hs hdet ↦ ?_
  have hba : b ≠ a := fun hba ↦ by simp [Cache.finishLoad, hba] at hdet
  refine ⟨hm', hs, by simpa [Cache.finishLoad, hba] using hdet, fun hmem ↦ ?_⟩
  exact (mem_erase_of_ne fun heq ↦ hba (congrArg Prod.fst heq)).2 hmem

variable [DecidableEq P] (h : LoadedThrough live c) (hc : Coherent T live c)

include h hc

/-- A read that fails, of a page that only its own mapping points to. -/
theorem dropLoad [DecidableEq F] (hmem : (a, m) ∈ c.loads) :
    LoadedThrough live (c.dropLoad a m) := by
  refine h.frame fun m' hm' p b hs hdet ↦ ?_
  have hold : c.slots m' p = some (.pointer b) ∧ b ≠ a := by
    by_cases hm : m' = m
    · subst hm
      simp only [dropLoad, update_self] at hs
      exact ⟨slots_of_unswizzled hs, fun hba ↦ (hc.slotOk_unswizzled hm' hs).2 (by rw [hba])⟩
    · have hs' : c.slots m' p = some (.pointer b) := by simpa [Cache.dropLoad, hm] using hs
      exact ⟨hs', fun hba ↦ h.alone hc hmem hm' hm p (hba ▸ hs')⟩
  refine ⟨hm', hold.1, hdet, fun hmem' ↦ ?_⟩
  exact (mem_erase_of_ne fun heq ↦ hold.2 (congrArg Prod.fst heq)).2 hmem'

theorem failLoad [DecidableEq F] (hmem : (a, m) ∈ c.loads) : LoadedThrough live (c.failLoad a m) :=
  (h.dropLoad hc hmem).failWrite a

/-- **A read that starts** goes through the mapping that gets the pointer. -/
theorem startLoad (ha : (c.pages a).status = .free) (m : M) (p : P) (f : F) :
    LoadedThrough live (c.startLoad m p a f) := by
  intro m' hm' p' b hs hdet
  by_cases hba : b = a
  · subst hba
    by_cases hm : m' = m
    · exact hm ▸ mem_cons_self
    · have hs' : c.slots m' p' = some (.pointer b) := by simpa [startLoad, hm] using hs
      exact absurd ha (hc.status_ne_free hm' hs')
  · refine mem_cons_of_mem _ (h m' hm' p' b ?_ (by simpa [Cache.startLoad, hba] using hdet))
    by_cases hhere : m' = m ∧ p' = p
    · obtain ⟨rfl, rfl⟩ := hhere
      simp only [Cache.startLoad, update_self, some.injEq,
        Slot.pointer.injEq] at hs
      exact absurd hs.symm hba
    · exact (slots_update_of_ne hhere).symm.trans hs

end Mappings

end LoadedThrough

end Swizzling
