import EloqStore.Partition.AbortedWrites

/-!
# Where the pointers of live mappings lead

A live mapping of a partition is the published one, one that readers still hold, or the copy a write
task is making. A pointer at page `p` of any of them is to be relied on: its cached page has not
been recycled, carries page `p` and the file page the mapping means, and has been read or is being
read through this very mapping (`PointersOk`).

The copy is the mapping that can lose this. While the data mapping is being copied, and then until
the segment mapping has been copied too, the copy is not one of the mappings that recycling a page
reaches. And the words that were set during the copying are taken over as they are, pointers to
pages under a read included, although the end of that read is told to the published mapping only.

`CopiedPartition` adds to `CachedPartition` the words the copy has so far (`words`), and those it is
made from (`base`): the words of the published mapping when the copying began, since what is set
later is logged aside. `Unshared` is the condition under which no pointer goes astray: it says of
each step by which the copy could get or keep a bad pointer that there is none.
-/

namespace EloqStore

open CacheEvent CachedPartition Function List Option PinEvent Swizzling.Cache Transition CopyPhase

open Swizzling (Slot Status LoadedThrough)

/-- **A partition with the copy that is being made.** -/
structure CopiedPartition where
  cached : CachedPartition
  /-- The words of the published mapping when the copying began. -/
  base : ℕ → Option (Slot ℕ ℕ) := fun _ ↦ none
  /-- The words of the copy, while it is being made. -/
  words : ℕ → Option (Slot ℕ ℕ) := fun _ ↦ none

namespace CopiedPartition

variable (x : CopiedPartition)

/-- The word that a chunk of the copy gets for a word of the source: a pointer to a page on no list
is replaced by the file page. -/
def shared : Option (Slot ℕ ℕ) → Option (Slot ℕ ℕ)
  | some (.pointer a) =>
    if (x.cached.cache.pages a).status = .detached then
      (x.cached.cache.pages a).filePageId.map .file
    else some (.pointer a)
  | word => word

/-- **The words of a copy that is not one of the partition's mappings**: while the data mapping is
being copied, and after that until the segment mapping has been copied too. -/
def copySlots : ℕ → Option (Slot ℕ ℕ) :=
  match x.cached.phase with
  | .copying _ _ _ => x.words
  | .copied => x.cached.cache.slots (x.cached.gen + 1)
  | _ => fun _ ↦ none

/-- The words of the copy after one more chunk. -/
def copyChunk : ℕ → Option (Slot ℕ ℕ) :=
  match x.cached.phase with
  | .copying chunk _ _ => fun p ↦
    if p / chunkSize = chunk ∧ p < (x.cached.tbl x.cached.gen).length then x.shared (x.base p)
    else x.words p
  | _ => x.words

end CopiedPartition

/-- One event, with what it does to the copy. -/
def CacheEvent.runCopied (opts : KvOptions) (x : CopiedPartition) (e : CacheEvent) :
    Option CopiedPartition :=
  (e.run opts x.cached).map fun s ↦
    match e with
    | .begin => { cached := s, base := x.cached.cache.slots x.cached.gen, words := fun _ ↦ none }
    | .copyChunk => { x with cached := s, words := x.copyChunk }
    | _ => { x with cached := s }

/-- The runs of a partition with the copies that are made. -/
abbrev CopiedRuns (opts : KvOptions) (G : CopiedPartition → CacheEvent → Prop) :
    CopiedPartition → CopiedPartition → Prop :=
  Transition.Reach (fun x e x' ↦ CacheEvent.runCopied opts x e = some x') G

namespace CopiedPartition

/-! ### The property and the condition -/

/-- **A pointer at page `p` of mapping `k` can be relied on.** -/
def PointerOk (s : CachedPartition) (k p a : ℕ) : Prop :=
  (s.cache.pages a).status ≠ .free ∧ (s.cache.pages a).pageId = some p ∧
    (s.cache.pages a).filePageId.isSome ∧ (s.cache.pages a).filePageId = s.filePage k p ∧
    ((s.cache.pages a).status = .active ∧
        (s.cache.pages a).content = (s.filePage k p).bind s.cache.disk ∨
      (s.cache.pages a).status = .detached ∧ (a, k) ∈ s.cache.loads)

/-- **The pointers of the live mappings can be relied on**: of the partition's mappings, which are
the published one, the replaced ones that are still held and a registered copy, and of a copy that
is not registered. -/
def PointersOk (x : CopiedPartition) : Prop :=
  (∀ k, x.cached.isRegistered k = true → ∀ p a,
      x.cached.cache.slots k p = some (.pointer a) → PointerOk x.cached k p a) ∧
    ∀ p a, x.copySlots p = some (.pointer a) → PointerOk x.cached (x.cached.gen + 1) p a

/-- The cached page a word points to. -/
def pointer? : Option (Slot ℕ ℕ) → Option ℕ
  | some (.pointer a) => some a
  | _ => none

/-- **No pointer of the copy goes astray.** A chunk is copied with the pointers that the published
mapping still has; when the copying ends, no word that was set meanwhile is a pointer to a page
under a read; and no page is recycled that a copy points to which is not one of the partition's
mappings. Ids keep all their bits in the lists of free ones. -/
def Unshared (x : CopiedPartition) (e : CacheEvent) : Prop :=
  x.cached.part.Small ∧
    match e, x.cached.phase with
    | .copyChunk, .copying chunk _ _ => ∀ p < (x.cached.tbl x.cached.gen).length,
        p / chunkSize = chunk → ∀ a ∈ pointer? (x.base p),
          x.cached.cache.slots x.cached.gen p = some (.pointer a)
    | .endCopy, .copying _ changed _ => ∀ p ∈ changed,
        ∀ a ∈ pointer? (x.cached.cache.slots x.cached.gen p),
          (x.cached.cache.pages a).status ≠ .detached
    | .evict a, _ => ∀ p < (x.cached.tbl x.cached.gen).length, x.copySlots p ≠ some (.pointer a)
    | _, _ => True

instance decidableUnshared (x : CopiedPartition) (e : CacheEvent) : Decidable (Unshared x e) := by
  unfold Unshared
  refine @instDecidableAnd _ _ inferInstance ?_
  cases x.cached.phase <;> cases e <;> dsimp only <;> infer_instance

/-! ### The invariant -/

variable {opts : KvOptions} {x x' : CopiedPartition} {s s' : CachedPartition} {e : CacheEvent}

/-- **What holds of a copy that is not one of the partition's mappings.** -/
structure CopyOk (x : CopiedPartition) : Prop where
  /-- Its pointers are pointers of the published mapping, to pages on the active list. -/
  pointer : ∀ p a, x.copySlots p = some (.pointer a) →
    x.cached.cache.slots x.cached.gen p = some (.pointer a) ∧
      (x.cached.cache.pages a).status = .active
  /-- During the copying, a page without a logged change has the word it had at the start. -/
  base : ∀ chunk changed converted, x.cached.phase = .copying chunk changed converted →
    ∀ p ∉ changed, x.base p = x.cached.cache.slots x.cached.gen p
  /-- The pointers that the finished copy will have for such pages, it has. -/
  kept : ∀ chunk changed converted, x.cached.phase = .copying chunk changed converted →
    ∀ p ∉ changed, p / chunkSize < chunk → ∀ a,
      x.cached.copiedSlots changed converted p = some (.pointer a) → x.words p = some (.pointer a)

/-- **The invariant.** -/
structure Inv (opts : KvOptions) (x : CopiedPartition) : Prop where
  coherent : x.cached.Coherent opts
  /-- A pointer to a page under a read is that of the mapping it is read through. -/
  through : LoadedThrough (fun k ↦ x.cached.isRegistered k = true) x.cached.cache
  copy : CopyOk x

/-- A coherent partition can rely on a pointer it shares with the copy. -/
theorem Inv.pointerOk_copy (h : Inv opts x) (hnr : x.cached.phase ≠ .registered)
    (hni : x.cached.phase ≠ .idle) {p a : ℕ}
    (hs : x.cached.cache.slots x.cached.gen p = some (.pointer a) ∧
      (x.cached.cache.pages a).status = .active) :
    PointerOk x.cached (x.cached.gen + 1) p a := by
  obtain ⟨hid, f, hf, hT, hstate⟩ := h.coherent.cache.slot _
    (isRegistered_of_isPublic isPublic_gen) p _ hs.1
  have hT' : x.cached.filePage (x.cached.gen + 1) p = some f := by
    rw [h.coherent.copy hnr hni]
    exact hT
  refine ⟨by simp [hs.2], hid, by simp [hf], hf.trans hT'.symm, .inl ⟨hs.2, ?_⟩⟩
  obtain ⟨-, hcont⟩ | ⟨hdet, -⟩ := hstate
  · rw [hT', hcont]
    rfl
  · cases hs.2.symm.trans hdet

variable {changed : List ℕ} {converted : List (ℕ × ℕ)}

theorem copySlots_copying {chunk : ℕ} (h : x.cached.phase = .copying chunk changed converted) :
    x.copySlots = x.words := by
  rw [copySlots, h]

theorem copySlots_copied (h : x.cached.phase = .copied) :
    x.copySlots = x.cached.cache.slots (x.cached.gen + 1) := by
  rw [copySlots, h]

theorem phase_of_copySlots {p : ℕ} {w : Slot ℕ ℕ} (h : x.copySlots p = some w) :
    x.cached.phase ≠ .registered ∧ x.cached.phase ≠ .idle := by
  rw [copySlots] at h
  constructor
  · intro heq
    simp [heq] at h
  · intro heq
    simp [heq] at h

/-- **The invariant gives the property.** -/
theorem Inv.pointersOk (h : Inv opts x) : PointersOk x := by
  refine ⟨fun k hk p a hs ↦ ?_, fun p a hs ↦ ?_⟩
  · obtain ⟨hid, f, hf, hT, hstate⟩ := h.coherent.cache.slot k hk p _ hs
    refine ⟨h.coherent.cache.status_ne_free hk hs, hid, by simp [hf], hf.trans hT.symm, ?_⟩
    obtain ⟨hact, hcont⟩ | ⟨hdet, -⟩ := hstate
    · refine .inl ⟨hact, ?_⟩
      rw [hT, hcont]
      rfl
    · exact .inr ⟨hdet, h.through k hk p a hs hdet⟩
  · obtain ⟨hnr, hni⟩ := phase_of_copySlots hs
    exact h.pointerOk_copy hnr hni (h.copy.pointer p a hs)

theorem copyOk_of_registered (h : x.cached.phase = .registered) : CopyOk x where
  pointer _ _ hs := absurd h (phase_of_copySlots hs).1
  base _ _ _ heq := absurd (h.symm.trans heq) (by simp)
  kept _ _ _ heq := absurd (h.symm.trans heq) (by simp)

theorem copyOk_of_idle (h : x.cached.phase = .idle) : CopyOk x where
  pointer _ _ hs := absurd h (phase_of_copySlots hs).2
  base _ _ _ heq := absurd (h.symm.trans heq) (by simp)
  kept _ _ _ heq := absurd (h.symm.trans heq) (by simp)

theorem inv_fresh (opts : KvOptions) (branch : BranchName) (term : ℕ) :
    Inv opts { cached := .fresh branch term } where
  coherent := coherent_fresh opts branch term
  through := LoadedThrough.empty _
  copy := copyOk_of_idle rfl

/-- **The condition of the coherent partition follows.** -/
theorem Inv.current (h : Inv opts x) (hcond : Unshared x e)
    (hrun : e.run opts x.cached = some s) : CachedPartition.Current x.cached e := by
  refine ⟨hcond.1, ?_⟩
  cases e with
  | register =>
    obtain ⟨hphase, -⟩ := ite_none_right_eq_some.1 hrun
    intro p _ hsw
    rw [isSwizzled] at hsw
    split at hsw
    · next a hs => rw [hs, (h.copy.pointer p a (copySlots_copied hphase ▸ hs)).1]
    · cases hsw
  | loadFails a k =>
    obtain ⟨hmem, -⟩ := ite_none_right_eq_some.1 hrun
    exact fun k' _ p _ hk' ↦ h.through.alone h.coherent.cache hmem hk'.1 hk'.2 p
  | _ => trivial

/-! ### Pages under a read -/

/-- The partition's mappings are at most those of before, when none is published or registered. -/
theorem isRegistered_sub {k : ℕ} (hgen : s'.gen = s.gen)
    (htab : s'.pinned.tables.length ≤ s.pinned.tables.length)
    (hphase : s'.phase = .registered → s.phase = .registered) (hk : s'.isRegistered k = true) :
    s.isRegistered k = true := by
  rw [isRegistered_iff, isPublic_iff, hgen] at hk
  rw [isRegistered_iff, isPublic_iff]
  exact hk.imp (fun hpub ↦ by omega) fun hown ↦ ⟨hown.1, hphase hown.2⟩

/-- A copy is registered whose pointers are to pages on the active list. -/
theorem through_register (h : LoadedThrough (fun k ↦ s.isRegistered k = true) s'.cache)
    (hgen : s'.gen = s.gen) (htab : s'.pinned.tables.length ≤ s.pinned.tables.length)
    (hact : ∀ p a, s'.cache.slots (s.gen + 1) p = some (.pointer a) →
      (s'.cache.pages a).status = .active) :
    LoadedThrough (fun k ↦ s'.isRegistered k = true) s'.cache := by
  refine (h.add_copy hact).mono fun k hk ↦ ?_
  rw [isRegistered_iff, isPublic_iff, hgen] at hk
  rw [isRegistered_iff, isPublic_iff]
  exact hk.imp (fun hpub ↦ .inl (by omega)) And.left

/-- The pointers of the finished copy are to pages on the active list, and pointers of the published
mapping. -/
theorem Inv.copiedSlots (h : Inv opts x) (hcond : Unshared x .endCopy)
    (hrun : endCopy.run opts x.cached = some s) {chunk : ℕ}
    (hphase : x.cached.phase = .copying chunk changed converted) {p a : ℕ}
    (hs : x.cached.copiedSlots changed converted p = some (.pointer a)) :
    x.cached.cache.slots x.cached.gen p = some (.pointer a) ∧
      (x.cached.cache.pages a).status = .active := by
  have hgen := copiedSlots_pointer hs
  have hreg := isRegistered_of_isPublic (isPublic_gen (s := x.cached))
  refine ⟨hgen, ?_⟩
  by_cases hp : p ∈ changed
  · have hdet := hcond.2
    rw [hphase] at hdet
    have hne : (x.cached.cache.pages a).status ≠ .detached := hdet p hp a (by rw [hgen]; rfl)
    obtain ⟨-, f, -, -, ⟨hact, -⟩ | ⟨hdet, -⟩⟩ := h.coherent.cache.slot _ hreg p _ hgen
    · exact hact
    · exact absurd hdet hne
  · -- the page has been copied, with the word it still has
    simp only [CacheEvent.run, hphase] at hrun
    obtain ⟨hall, hrun⟩ := ite_none_left_eq_some.1 hrun
    have hlt := h.coherent.lt_length hreg hgen
    have hchunk : p / chunkSize < chunk :=
      (Nat.div_lt_iff_lt_mul (by decide)).2 (hlt.trans_le (not_lt.1 hall))
    have hword := h.copy.kept chunk changed converted hphase p hp hchunk a hs
    exact (h.copy.pointer p a (copySlots_copying hphase ▸ hword)).2

theorem touch_registered {phase : CopyPhase} {page? : Option ℕ}
    (h : phase.touch page? = .registered) : phase = .registered :=
  (touch_eq_iff phase page?).1.1 h

theorem Inv.through_finish (h : Inv opts x) (w : PageWrite) (ok : Bool) (v : Option ℕ) :
    LoadedThrough (fun k ↦ (x.cached.finish w ok v).isRegistered k = true)
      (x.cached.finish w ok v).cache := by
  rw [finish]
  split
  · exact h.through
  · exact h.through
  · next a _ _ =>
    cases ok with
    | true => exact LoadedThrough.finishWrite h.through _ _ a
    | false => exact LoadedThrough.failWrite h.through a

/-- **A pointer to a page under a read stays that of the mapping it is read through.** -/
theorem Inv.through_event (h : Inv opts x) (hcond : Unshared x e)
    (hrun : e.run opts x.cached = some s) :
    LoadedThrough (fun k ↦ s.isRegistered k = true) s.cache := by
  have hthr := h.through
  have hcoh := h.coherent.cache
  have hdead (hnr : x.cached.phase ≠ .registered) :
      ¬x.cached.isRegistered (x.cached.gen + 1) = true := fun hk ↦ own_ne hk hnr rfl
  cases e with
  | begin =>
    obtain ⟨p, hp, rfl⟩ := map_eq_some_iff.1 hrun
    obtain ⟨hnone, rfl⟩ := ite_some_none_eq_some.1 hp
    have hidle : x.cached.phase = .idle := h.coherent.idle.1 hnone
    refine through_register (s := x.cached) (hthr.setSlots (hdead (by simp [hidle])) _) rfl le_rfl
      fun p a hs ↦ ?_
    rw [setSlots_own] at hs
    cases hs
  | copyChunk =>
    obtain ⟨chunk, changed, converted, hphase, rfl⟩ := copyChunk_ok hrun
    exact hthr.mono fun k ↦ isRegistered_sub rfl le_rfl fun heq ↦ absurd heq (by simp)
  | endCopy =>
    obtain ⟨chunk, changed, converted, hphase, rfl⟩ := endCopy_ok hrun
    refine through_register (s := x.cached) (hthr.setSlots (hdead (by simp [hphase])) _) rfl le_rfl
      fun p a hs ↦ ?_
    rw [setSlots_own] at hs
    exact (h.copiedSlots hcond hrun hphase hs).2
  | register =>
    obtain ⟨hphase, rfl⟩ := ite_some_none_eq_some.1 hrun
    exact through_register (s := x.cached) hthr rfl le_rfl fun p a hs ↦
      (h.copy.pointer p a (copySlots_copied hphase ▸ hs)).2
  | step b =>
    obtain ⟨t, -, hrun⟩ := bind_eq_some_iff.1 hrun
    obtain ⟨⟨hphase, -⟩, hrun⟩ := ite_none_right_eq_some.1 hrun
    obtain ⟨p, hp, rfl⟩ := map_eq_some_iff.1 hrun
    have htab := congrArg length (published_step hp).1
    refine .mono (?_ : LoadedThrough (fun k ↦ x.cached.isRegistered k = true) _)
      fun k ↦ isRegistered_sub rfl htab.le fun _ ↦ hphase
    cases t.slotOf b with
    | none => exact hthr
    | some page => exact hthr.setSlot _ _
  | write page? content addr? =>
    obtain ⟨t, -, hrun⟩ := bind_eq_some_iff.1 hrun
    obtain ⟨⟨hphase, -, haddr⟩, hrun⟩ := ite_none_right_eq_some.1 hrun
    obtain ⟨p, hp, rfl⟩ := map_eq_some_iff.1 hrun
    have htab := congrArg length (published_step hp).1
    refine .mono (?_ : LoadedThrough (fun k ↦ x.cached.isRegistered k = true) _)
      fun k ↦ isRegistered_sub rfl htab.le fun _ ↦ hphase
    have hset := hthr.setSlot (x.cached.gen + 1) (WriteTask.choosePage t.cow.mapper page?).1
    rw [PageWrite.issue]
    split
    · exact hset
    · next a ha =>
      refine hset.update_page _ fun _ k hk q hs ↦ ?_
      exact hcoh.status_ne_free hk (slots_of_setSlot hs) (haddr a ha)
  | writeSegment page? content =>
    obtain ⟨m, -, hrun⟩ := bind_eq_some_iff.1 hrun
    obtain ⟨hphase, hrun⟩ := ite_none_right_eq_some.1 hrun
    obtain ⟨p, hp, rfl⟩ := map_eq_some_iff.1 hrun
    have htab := congrArg length (published_step hp).1
    exact hthr.mono fun k ↦ isRegistered_sub rfl htab.le fun _ ↦ hphase
  | complete w =>
    obtain ⟨-, rfl⟩ := ite_some_none_eq_some.1 hrun
    exact h.through_finish w true _
  | fail w junk =>
    obtain ⟨-, rfl⟩ := ite_some_none_eq_some.1 hrun
    exact h.through_finish w false junk
  | load k page a =>
    obtain ⟨fp, -, hrun⟩ := bind_eq_some_iff.1 hrun
    obtain ⟨⟨-, -, ha, -⟩, rfl⟩ := ite_some_none_eq_some.1 hrun
    refine (hthr.startLoad hcoh ha k page fp).mono fun k' ↦
      isRegistered_sub rfl le_rfl fun heq ↦ ?_
    split at heq
    · exact touch_registered heq
    · exact heq
  | loaded a k =>
    obtain ⟨-, rfl⟩ := ite_some_none_eq_some.1 hrun
    exact hthr.finishLoad a k
  | loadFails a k =>
    obtain ⟨hmem, rfl⟩ := ite_some_none_eq_some.1 hrun
    refine (hthr.failLoad hcoh hmem).mono fun k' ↦
      isRegistered_sub rfl le_rfl fun heq ↦ ?_
    split at heq
    · exact touch_registered heq
    · exact heq
  | evict a =>
    obtain ⟨-, rfl⟩ := ite_some_none_eq_some.1 hrun
    exact (hthr.recycle _ a).mono fun k' ↦ isRegistered_sub rfl le_rfl touch_registered
  | manifestFails m? =>
    obtain ⟨-, rfl⟩ := ite_some_none_eq_some.1 hrun
    exact hthr
  | commit =>
    obtain ⟨⟨hphase, -⟩, hrun⟩ := ite_none_right_eq_some.1 hrun
    obtain ⟨p, hp, rfl⟩ := map_eq_some_iff.1 hrun
    obtain ⟨p', -, rfl⟩ := map_eq_some_iff.1 hp
    refine hthr.mono fun k hk ↦ ?_
    rw [isRegistered_iff, isPublic_iff] at hk ⊢
    simp only [length_append, length_singleton, reduceCtorEq, and_false, or_false] at hk
    -- the mapping that is published now was the task's
    by_cases hown : k = x.cached.gen + 1
    · exact .inr ⟨hown, hphase⟩
    · exact .inl (by omega)
  | abort =>
    obtain ⟨-, hrun⟩ := ite_none_right_eq_some.1 hrun
    obtain ⟨p, hp, rfl⟩ := map_eq_some_iff.1 hrun
    obtain ⟨-, ⟨⟩⟩ := ite_none_left_eq_some.1 hp
    exact hthr.mono fun k ↦ isRegistered_sub rfl le_rfl fun heq ↦ absurd heq (by simp)
  | release =>
    obtain ⟨-, hrun⟩ := ite_none_right_eq_some.1 hrun
    obtain ⟨p, hp, rfl⟩ := map_eq_some_iff.1 hrun
    obtain ⟨fps, rest, -, rfl⟩ := release_ok hp
    exact hthr.mono fun k ↦ isRegistered_sub rfl (by simp) id

/-! ### The copy -/

/-- **An event of the page cache** that sets no word of the published mapping but the one that is
logged, and keeps the cached pages the copy points to. -/
theorem CopyOk.touch (h : CopyOk x) {cache : PageCache} {page? : Option ℕ}
    (hset : ∀ p, page? ≠ some p →
      cache.slots x.cached.gen p = x.cached.cache.slots x.cached.gen p)
    (hkeep : ∀ p a, x.copySlots p = some (.pointer a) →
      x.cached.cache.slots x.cached.gen p = some (.pointer a) →
      (x.cached.cache.pages a).status = .active →
      cache.slots x.cached.gen p = some (.pointer a) ∧ (cache.pages a).status = .active)
    (hown : x.cached.phase ≠ .registered →
      cache.slots (x.cached.gen + 1) = x.cached.cache.slots (x.cached.gen + 1)) :
    CopyOk { x with cached := { x.cached with
      cache := cache, phase := x.cached.phase.touch page? } } := by
  have hslots : ({ x with cached := { x.cached with
      cache := cache, phase := x.cached.phase.touch page? } } : CopiedPartition).copySlots =
      x.copySlots := by
    rw [copySlots, copySlots]
    cases hphase : x.cached.phase with
    | copied => exact hown (by simp [hphase])
    | idle | copying | registered => rfl
  have hcopying : ∀ {chunk changed converted},
      x.cached.phase.touch page? = .copying chunk changed converted →
      ∃ old, x.cached.phase = .copying chunk old converted ∧ changed = page?.toList ++ old := by
    intro chunk changed converted heq
    cases hphase : x.cached.phase with
    | copying chunk₀ old converted₀ =>
      rw [hphase] at heq
      obtain ⟨rfl, rfl, rfl⟩ := copying.inj heq
      exact ⟨old, rfl, rfl⟩
    | idle | copied | registered =>
      rw [hphase] at heq
      simp [CopyPhase.touch] at heq
  -- a page without a change is not the one that is logged, and had none before
  have hchanged : ∀ {p : ℕ} {old : List ℕ}, p ∉ page?.toList ++ old → page? ≠ some p ∧ p ∉ old := by
    intro p old hp
    rw [mem_append, not_or] at hp
    exact ⟨fun heq ↦ hp.1 (by simp [heq]), hp.2⟩
  refine ⟨fun p a hs ↦ ?_, fun chunk changed converted heq p hp ↦ ?_,
    fun chunk changed converted heq p hp hlt a hs ↦ ?_⟩
  · rw [hslots] at hs
    obtain ⟨hgen, hact⟩ := h.pointer p a hs
    exact hkeep p a hs hgen hact
  · obtain ⟨old, hphase, rfl⟩ := hcopying heq
    obtain ⟨hne, hold⟩ := hchanged hp
    exact (h.base _ _ _ hphase p hold).trans (hset p hne).symm
  · obtain ⟨old, hphase, rfl⟩ := hcopying heq
    obtain ⟨hne, hold⟩ := hchanged hp
    refine h.kept _ _ _ hphase p hold hlt a ?_
    rw [← hs, copiedSlots, copiedSlots]
    simp only [hset p hne, if_neg hold, if_neg hp]

/-- The slot of another mapping, or of another page, is left alone by a read that starts. -/
theorem startLoad_slots {k page a fp : ℕ} {k' p : ℕ} (h : k' ≠ k ∨ p ≠ page) :
    (s.cache.startLoad k page a fp).slots k' p = s.cache.slots k' p := by
  show update s.cache.slots k _ k' p = _
  by_cases hk : k' = k
  · rw [hk, update_self, update_of_ne (h.resolve_left fun hne ↦ hne hk)]
  · rw [update_of_ne hk]

theorem Inv.copy_load (h : Inv opts x) {k page a : ℕ}
    (hrun : (load k page a).run opts x.cached = some s) :
    CopyOk { x with cached := s } := by
  obtain ⟨fp, hfp, hload⟩ := bind_eq_some_iff.1 hrun
  obtain ⟨⟨hk, -, ha, hsw⟩, rfl⟩ := ite_some_none_eq_some.1 hload
  have hactive : ∀ b, (x.cached.cache.pages b).status = .active →
      ((x.cached.cache.startLoad k page a fp).pages b).status = .active := by
    intro b hb
    have hne : b ≠ a := fun heq ↦ by simp [heq, ha] at hb
    show (update x.cached.cache.pages a _ b).status = _
    rw [update_of_ne hne]
    exact hb
  have hown : x.cached.phase ≠ .registered →
      (x.cached.cache.startLoad k page a fp).slots (x.cached.gen + 1) =
        x.cached.cache.slots (x.cached.gen + 1) := fun hnr ↦
    funext fun p ↦ startLoad_slots (.inl (own_ne hk hnr))
  by_cases hkg : k = x.cached.gen
  · simp only [if_pos hkg]
    refine h.copy.touch (fun p hp ↦ startLoad_slots (.inr fun heq ↦ hp (by rw [heq])))
      (fun p b _ hgen hb ↦ ⟨?_, hactive b hb⟩) hown
    -- a page that is read has no pointer in the published mapping yet
    have hne : p ≠ page := by
      rintro rfl
      rw [hkg, isSwizzled, hgen] at hsw
      cases hsw
    rw [startLoad_slots (.inr hne)]
    exact hgen
  · simp only [if_neg hkg]
    rw [← touch_none x.cached.phase]
    refine h.copy.touch (fun p _ ↦ startLoad_slots (.inl (Ne.symm hkg)))
      (fun p b _ hgen hb ↦ ⟨?_, hactive b hb⟩) hown
    rw [startLoad_slots (.inl (Ne.symm hkg))]
    exact hgen

/-- The published mapping when the pointers to a cached page are replaced: only the page that is
logged is set. -/
theorem unswizzled_gen {a p : ℕ} (hp : s.pointedFor a ≠ some p) :
    s.cache.unswizzled a s.gen p = s.cache.slots s.gen p := by
  rw [unswizzled]
  refine if_neg fun hcond ↦ hp ?_
  rw [pointedFor, hcond.1, filter_some, if_pos (decide_eq_true hcond.2)]

/-- **A read fails**: its page is on no list, so the copy does not point to it. -/
theorem Inv.copy_loadFails (h : Inv opts x) {a k : ℕ}
    (hrun : (loadFails a k).run opts x.cached = some s) : CopyOk { x with cached := s } := by
  obtain ⟨hmem, rfl⟩ := ite_some_none_eq_some.1 hrun
  have hk := h.coherent.loads _ hmem
  have hdet := h.coherent.cache.load _ hmem
  have hne : ∀ b, (x.cached.cache.pages b).status = .active → b ≠ a := fun b hb heq ↦ by
    rw [heq, hdet] at hb
    cases hb
  have hactive : ∀ b, (x.cached.cache.pages b).status = .active →
      ((x.cached.cache.failLoad a k).pages b).status = .active := by
    intro b hb
    show (update x.cached.cache.pages a _ b).status = _
    rw [update_of_ne (hne b hb)]
    exact hb
  have hother : ∀ k', k' ≠ k → (x.cached.cache.failLoad a k).slots k' = x.cached.cache.slots k' :=
    fun k' hk' ↦ update_of_ne hk' _ _
  have hown : x.cached.phase ≠ .registered →
      (x.cached.cache.failLoad a k).slots (x.cached.gen + 1) =
        x.cached.cache.slots (x.cached.gen + 1) := fun hnr ↦
    hother _ (own_ne hk hnr)
  by_cases hkg : k = x.cached.gen
  · simp only [if_pos hkg]
    have hgen : (x.cached.cache.failLoad a k).slots x.cached.gen =
        x.cached.cache.unswizzled a x.cached.gen := by
      rw [hkg]
      exact update_self _ _ _
    refine h.copy.touch (fun p hp ↦ ?_) (fun p b _ hs hb ↦ ⟨?_, hactive b hb⟩) hown
    · rw [hgen]
      exact unswizzled_gen hp
    · rw [hgen]
      exact unswizzled_of_ne hs (hne b hb)
  · simp only [if_neg hkg]
    rw [← touch_none x.cached.phase]
    have hgen := hother x.cached.gen (Ne.symm hkg)
    refine h.copy.touch (fun p _ ↦ congrFun hgen p) (fun p b _ hs hb ↦ ⟨?_, hactive b hb⟩) hown
    exact (congrFun hgen p).trans hs

/-- **A page is recycled** that the copy does not point to. -/
theorem Inv.copy_evict (h : Inv opts x) {a : ℕ} (hcond : Unshared x (.evict a))
    (hrun : (evict a).run opts x.cached = some s) : CopyOk { x with cached := s } := by
  obtain ⟨-, rfl⟩ := ite_some_none_eq_some.1 hrun
  have hreg := isRegistered_of_isPublic (isPublic_gen (s := x.cached))
  have hgen : (x.cached.cache.recycle x.cached.isRegistered a).slots x.cached.gen =
      x.cached.cache.unswizzled a x.cached.gen := if_pos hreg
  refine h.copy.touch (fun p hp ↦ ?_) (fun p b hword hs hb ↦ ?_) fun hnr ↦ ?_
  · rw [hgen]
    exact unswizzled_gen hp
  · have hne : b ≠ a := by
      rintro rfl
      exact hcond.2 p (h.coherent.lt_length hreg hs) hword
    rw [hgen]
    refine ⟨unswizzled_of_ne hs hne, ?_⟩
    show (update x.cached.cache.pages a _ b).status = _
    rw [update_of_ne hne]
    exact hb
  · exact if_neg fun hk ↦ own_ne hk hnr rfl

/-- A pointer of the published mapping to a page on no list is converted with its chunk. -/
theorem Inv.lookup_detachedIn (h : Inv opts x) {p a : ℕ}
    (hs : x.cached.cache.slots x.cached.gen p = some (.pointer a))
    (hdet : (x.cached.cache.pages a).status = .detached) :
    (x.cached.detachedIn (p / chunkSize)).lookup p ≠ none := by
  have hreg := isRegistered_of_isPublic (isPublic_gen (s := x.cached))
  obtain ⟨-, f, hf, -⟩ := h.coherent.cache.slot _ hreg p _ hs
  have hmem : (p, f) ∈ x.cached.detachedIn (p / chunkSize) := by
    refine mem_filterMap.2 ⟨p, mem_range.2 (h.coherent.lt_length hreg hs), ?_⟩
    rw [if_pos rfl, hs]
    simp only [if_pos hdet, hf, map_some]
  rw [Ne, lookup_eq_none_iff]
  intro hnone
  exact absurd (hnone _ hmem) (by simp)

/-- **A chunk is copied** with pointers that the published mapping still has. -/
theorem Inv.copy_copyChunk (h : Inv opts x) (hcond : Unshared x .copyChunk)
    (hrun : CacheEvent.copyChunk.run opts x.cached = some s) :
    CopyOk { x with cached := s, words := x.copyChunk } := by
  obtain ⟨chunk, changed, converted, hphase, rfl⟩ := copyChunk_ok hrun
  have hreg := isRegistered_of_isPublic (isPublic_gen (s := x.cached))
  have hcurrent := hcond.2
  rw [hphase] at hcurrent
  have hwords : x.copyChunk = fun p ↦
      if p / chunkSize = chunk ∧ p < (x.cached.tbl x.cached.gen).length then x.shared (x.base p)
      else x.words p := by
    rw [copyChunk, hphase]
  refine ⟨fun p a hs ↦ ?_, fun chunk₁ changed₁ converted₁ heq p hp ↦ ?_,
    fun chunk₁ changed₁ converted₁ heq p hp hlt a hs ↦ ?_⟩
  · change x.copyChunk p = some (.pointer a) at hs
    rw [hwords] at hs
    dsimp only at hs
    split at hs
    · next hin =>
      rw [shared.eq_def] at hs
      split at hs
      · next b hb =>
        split at hs
        · cases hf : (x.cached.cache.pages b).filePageId <;> simp [hf] at hs
        · next hdet =>
          obtain rfl := Slot.pointer.inj (some.inj hs)
          have hgen := hcurrent p hin.2 hin.1 b (by rw [hb]; rfl)
          obtain ⟨-, f, -, -, ⟨hact, -⟩ | ⟨hdet', -⟩⟩ := h.coherent.cache.slot _ hreg p _ hgen
          · exact ⟨hgen, hact⟩
          · exact absurd hdet' hdet
      · next hno => exact absurd hs (hno a)
    · exact h.copy.pointer p a (copySlots_copying hphase ▸ hs)
  · obtain ⟨rfl, rfl, rfl⟩ := copying.inj heq
    exact h.copy.base _ _ _ hphase p hp
  · obtain ⟨rfl, rfl, rfl⟩ := copying.inj heq
    have hgen := copiedSlots_pointer hs
    -- the pointer has not been converted, in this chunk or before
    have hlook : converted.lookup p = none ∧ (x.cached.detachedIn chunk).lookup p = none := by
      rw [CachedPartition.copiedSlots, hgen] at hs
      simp only [if_neg hp, lookup_append] at hs
      cases hl : (converted.lookup p).or ((x.cached.detachedIn chunk).lookup p) with
      | none => exact or_eq_none_iff.1 hl
      | some f => simp [hl] at hs
    rw [hwords]
    dsimp only
    split
    · next hin =>
      rw [h.copy.base _ _ _ hphase p hp, hgen, shared]
      refine if_neg fun hdet ↦ ?_
      exact h.lookup_detachedIn hgen hdet (hin.1 ▸ hlook.2)
    · next hout =>
      have hne : p / chunkSize ≠ chunk := fun heq ↦
        hout ⟨heq, h.coherent.lt_length hreg hgen⟩
      refine h.copy.kept _ _ _ hphase p hp (by omega) a ?_
      rw [CachedPartition.copiedSlots, hgen]
      simp only [if_neg hp, hlook.1, map_none, none_or]

@[simp] theorem finish_phase (s : CachedPartition) (w : PageWrite) (ok : Bool) (v : Option ℕ) :
    (s.finish w ok v).phase = s.phase := by
  rw [finish]
  split <;> rfl

/-- **The copy has no pointer of its own** after any event that meets the condition. -/
theorem Inv.copy_event (h : Inv opts x) (hcond : Unshared x e)
    (hrun : e.runCopied opts x = some x') : CopyOk x' := by
  obtain ⟨s, hs, rfl⟩ := map_eq_some_iff.1 hrun
  cases e with
  | begin =>
    obtain ⟨p, -, rfl⟩ := map_eq_some_iff.1 hs
    cases p.partition.publishedMapper.isSome with
    | false => exact copyOk_of_registered rfl
    | true =>
      refine ⟨by simp [copySlots], fun chunk changed converted _ q _ ↦ ?_,
        fun chunk changed converted heq q _ hlt ↦ ?_⟩
      · exact (congrFun (setSlots_gen _) q).symm
      · obtain ⟨rfl, -, -⟩ := copying.inj heq
        exact absurd hlt (Nat.not_lt_zero _)
  | copyChunk => exact h.copy_copyChunk hcond hs
  | endCopy =>
    obtain ⟨chunk, changed, converted, hphase, rfl⟩ := endCopy_ok hs
    cases (x.cached.part.entry.bind (·.segmentMapper)).any (!·.tbl.isEmpty) with
    | false => exact copyOk_of_registered rfl
    | true =>
      refine ⟨fun p a hp ↦ ?_, by simp,
        by simp⟩
      rw [copySlots_copied rfl] at hp
      rw [setSlots_own] at hp
      have hcopied := h.copiedSlots hcond hs hphase hp
      exact ⟨(congrFun (setSlots_gen _) p).trans hcopied.1, hcopied.2⟩
  | register =>
    obtain ⟨-, rfl⟩ := ite_some_none_eq_some.1 hs
    exact copyOk_of_registered rfl
  | step b | write page? content addr? =>
    obtain ⟨t, -, hs⟩ := bind_eq_some_iff.1 hs
    obtain ⟨⟨hphase, -⟩, hs⟩ := ite_none_right_eq_some.1 hs
    obtain ⟨p, hp, rfl⟩ := map_eq_some_iff.1 hs
    exact copyOk_of_registered hphase
  | writeSegment page? content =>
    obtain ⟨m, -, hs⟩ := bind_eq_some_iff.1 hs
    obtain ⟨hphase, hs⟩ := ite_none_right_eq_some.1 hs
    obtain ⟨p, hp, rfl⟩ := map_eq_some_iff.1 hs
    exact copyOk_of_registered hphase
  | complete w | fail w junk =>
    obtain ⟨hw, rfl⟩ := ite_some_none_eq_some.1 hs
    refine copyOk_of_registered ?_
    rw [finish_phase]
    exact h.coherent.writing (ne_nil_of_mem hw)
  | load k page a => exact h.copy_load hs
  | loaded a k =>
    obtain ⟨hmem, rfl⟩ := ite_some_none_eq_some.1 hs
    rw [← touch_none x.cached.phase]
    refine h.copy.touch (fun _ _ ↦ rfl) (fun p b _ hgen hb ↦ ⟨hgen, ?_⟩) fun _ ↦ rfl
    show (update x.cached.cache.pages a _ b).status = _
    rw [update_apply]
    split
    · rfl
    · exact hb
  | loadFails a k => exact h.copy_loadFails hs
  | evict a => exact h.copy_evict hcond hs
  | manifestFails m? =>
    obtain ⟨hphase, rfl⟩ := ite_some_none_eq_some.1 hs
    exact copyOk_of_registered hphase
  | commit | abort =>
    obtain ⟨-, hs⟩ := ite_none_right_eq_some.1 hs
    obtain ⟨p, hp, rfl⟩ := map_eq_some_iff.1 hs
    exact copyOk_of_idle rfl
  | release =>
    obtain ⟨-, hs⟩ := ite_none_right_eq_some.1 hs
    obtain ⟨p, hp, rfl⟩ := map_eq_some_iff.1 hs
    exact ⟨h.copy.pointer, h.copy.base, h.copy.kept⟩

/-! ### Runs -/

/-- **An event that meets the condition keeps the invariant.** -/
theorem Inv.event (h : Inv opts x) (hcond : Unshared x e)
    (hrun : e.runCopied opts x = some x') : Inv opts x' := by
  have hcopy := h.copy_event hcond hrun
  obtain ⟨s, hs, hx'⟩ := map_eq_some_iff.1 hrun
  have hcached : x'.cached = s := by
    rw [← hx']
    cases e <;> rfl
  refine ⟨?_, ?_, hcopy⟩
  · rw [hcached]
    exact h.coherent.event (h.current hcond hs) hs
  · rw [hcached]
    exact h.through_event hcond hs

theorem inv_of_runs {branch : BranchName} {term : ℕ}
    (hrun : CopiedRuns opts Unshared { cached := .fresh branch term } x) : Inv opts x :=
  hrun.invariant (Inv opts) (inv_fresh opts branch term) fun h hcond hstep ↦ h.event hcond hstep

/-- **Every pointer of a live mapping can be relied on**, in every run in which no pointer of the
copy goes astray: it is to a cached page that has not been recycled, with the logical page and the
file page it stands for, and with their content or under a read through that mapping. -/
theorem pointersOk_of_unshared (opts : KvOptions) (branch : BranchName) (term : ℕ)
    (x : CopiedPartition) (hrun : CopiedRuns opts Unshared { cached := .fresh branch term } x) :
    PointersOk x :=
  (inv_of_runs hrun).pointersOk

/-- A page is read through the published mapping while it is being copied, and the read is over
before the copying is. -/
theorem pointersOk_of_unshared_read : ∃ x,
    CopiedRuns segmentOptions Unshared { cached := .fresh "main" 0 } x ∧
      (x.cached.phase = .copied ∧ x.copySlots 0 = some (.pointer 2) ∧
        x.copySlots 1 = some (.pointer 1)) ∧ PointersOk x :=
  exists_reach_and_of_exec (fun hrun ↦ pointersOk_of_unshared _ _ _ _ hrun)
    (createEvents ++ [.evict 0, .begin, .load 1 0 2, .loaded 2 1, .copyChunk, .endCopy])
    (by decide +kernel)

/-- A pointer to a page on the free list cannot be relied on. -/
theorem not_pointersOk {p a : ℕ}
    (hs : x.cached.cache.slots x.cached.gen p = some (.pointer a))
    (hfree : (x.cached.cache.pages a).status = .free) : ¬PointersOk x := fun h ↦
  (h.1 _ (isRegistered_of_isPublic isPublic_gen) p a hs).1 hfree

/-- **The published mapping can point to recycled pages.** A cached page is recycled between the
copying of the data mapping and that of the segment mapping; or a page is being read through the
published mapping when its copying ends, and the read fails. Either way the copy keeps its pointer,
and is published with it. -/
theorem pointers_dangle :
    (∃ x, CopiedRuns segmentOptions (fun _ _ ↦ True) { cached := .fresh "main" 0 } x ∧
      x.cached.cache.slots x.cached.gen 0 = some (.pointer 0) ∧
      (x.cached.cache.pages 0).pageId = none ∧ ¬PointersOk x) ∧
    ∃ x, CopiedRuns segmentOptions (fun _ _ ↦ True) { cached := .fresh "main" 0 } x ∧
      x.cached.cache.slots x.cached.gen 0 = some (.pointer 2) ∧
      (x.cached.cache.pages 2).content = none ∧ ¬PointersOk x := by
  constructor
  · obtain ⟨x, hrun, hs, hid, hfree⟩ : ∃ x, CopiedRuns segmentOptions (fun _ _ ↦ True)
        { cached := .fresh "main" 0 } x ∧ x.cached.cache.slots x.cached.gen 0 = some (.pointer 0) ∧
        (x.cached.cache.pages 0).pageId = none ∧ (x.cached.cache.pages 0).status = .free :=
      exists_reach_of_exec
        (createEvents ++ [.begin, .copyChunk, .endCopy, .evict 0, .register,
          .write (some 1) 21 (some 2), .complete ⟨.data, 1, 2, 21, some 2⟩, .commit])
        (by decide +kernel)
    exact ⟨x, hrun, hs, hid, not_pointersOk hs hfree⟩
  · obtain ⟨x, hrun, hs, hcont, hfree⟩ : ∃ x, CopiedRuns segmentOptions (fun _ _ ↦ True)
        { cached := .fresh "main" 0 } x ∧ x.cached.cache.slots x.cached.gen 0 = some (.pointer 2) ∧
        (x.cached.cache.pages 2).content = none ∧ (x.cached.cache.pages 2).status = .free :=
      exists_reach_of_exec
        (createEvents ++ [.evict 0, .begin, .copyChunk, .load 1 0 2, .endCopy, .register,
          .loadFails 2 1, .write (some 1) 21 (some 3), .complete ⟨.data, 1, 2, 21, some 3⟩,
          .commit])
        (by decide +kernel)
    exact ⟨x, hrun, hs, hcont, not_pointersOk hs hfree⟩

end CopiedPartition

end EloqStore
