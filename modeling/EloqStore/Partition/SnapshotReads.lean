import EloqStore.Partition.AbortedWrites

/-!
# A reader's snapshot does not change

A reader holds the mapping it started with, while writes commit and abort, mappings are replaced and
released, and cached pages come and go. As long as it holds the mapping, **every page reads through
it as it did at the start** (`held_mapping_reads`): replaced mappings keep their file pages, and a
page write goes to a file page that no mapping anyone holds uses.
-/

namespace EloqStore

open Function List Option EloqStore.Partition PinEvent

namespace CachedPartition

variable {opts : KvOptions} {s s' : CachedPartition} {e : CacheEvent} {k : ℕ}

/-- **What an event can do to the mappings that are held and to the disk.** A commit adds the
mapping it replaces, a release takes the oldest one away. -/
theorem event_frame (hrun : e.run opts s = some s') :
    (s'.cache.disk = s.cache.disk ∨ ∃ w ∈ s.writes, w.cls = .data ∧
        ∃ v, s'.cache.disk = update s.cache.disk w.fp v) ∧
      (e ≠ .commit ∧ s'.gen = s.gen ∧
        (s'.pinned.tables = s.pinned.tables ∨ s'.pinned.tables = s.pinned.tables.tail) ∨
      s'.gen = s.gen + 1 ∧ s'.pinned.tables = s.pinned.tables ++ [s.tbl s.gen]) := by
  obtain ⟨hgen, hpinned, hstored⟩ := CacheEvent.frame hrun
  constructor
  · rcases hstored with ⟨w, hw, ok, v, rfl⟩ | ⟨hdisk, -⟩
    · unfold finish
      split
      · exact .inl rfl
      · next hcls _ => exact .inr ⟨w, hw, hcls, v, rfl⟩
      · next hcls _ => exact .inr ⟨w, hw, hcls, v, by cases ok <;> rfl⟩
    · exact .inl hdisk
  · rcases hpinned with ⟨pe, p, hp, heq, hcommit⟩ | ⟨hne, m?, heq⟩
    · rw [heq]
      cases pe with
      | commit =>
        obtain ⟨p', -, rfl⟩ := map_eq_some_iff.1 hp
        refine .inr ⟨hgen.trans (if_pos (hcommit.1 rfl)), ?_⟩
        rw [tbl, if_neg (by omega), if_pos rfl]
      | release =>
        obtain ⟨fps, rest, -, rfl⟩ := release_ok hp
        have hne : e ≠ .commit := fun he ↦ by simpa using hcommit.2 he
        exact .inl ⟨hne, hgen.trans (if_neg hne), .inr rfl⟩
      | begin =>
        obtain ⟨-, rfl⟩ := ite_some_none_eq_some.1 hp
        have hne : e ≠ .commit := fun he ↦ by simpa using hcommit.2 he
        exact .inl ⟨hne, hgen.trans (if_neg hne), .inl rfl⟩
      | step a =>
        obtain ⟨-, p', -, rfl⟩ := step_ok hp
        have hne : e ≠ .commit := fun he ↦ by simpa using hcommit.2 he
        exact .inl ⟨hne, hgen.trans (if_neg hne), .inl rfl⟩
      | abort =>
        obtain ⟨-, ⟨⟩⟩ := ite_none_left_eq_some.1 hp
        have hne : e ≠ .commit := fun he ↦ by simpa using hcommit.2 he
        exact .inl ⟨hne, hgen.trans (if_neg hne), .inl rfl⟩
    · rw [heq]
      exact .inl ⟨hne, hgen.trans (if_neg hne), .inl rfl⟩

theorem tbl_of_lt (hk : k < s.gen) :
    s.tbl k = s.pinned.tables.getD (k + s.pinned.tables.length - s.gen) [] := by
  rw [tbl, if_neg (by omega), if_neg (by omega)]

/-- **A mapping that is still held means what it meant.** -/
theorem Coherent.held_event (h : s.Coherent opts) (hrun : e.run opts s = some s') (hk : k ≤ s.gen)
    (hpub : s'.isPublic k = true) : s.isPublic k = true ∧ s'.filePage k = s.filePage k := by
  have hpub' := isPublic_iff.1 hpub
  rw [isPublic_iff]
  obtain ⟨-, ⟨hne, hgen, htab⟩ | ⟨hgen, htab⟩⟩ := event_frame hrun
  · by_cases hkg : k = s.gen
    · subst hkg
      refine ⟨by omega, ?_⟩
      rw [← (h.mappings_event hne hrun).1, hgen]
    · have hlt : k < s.gen := by omega
      rcases htab with htab | htab
      · rw [htab] at hpub'
        refine ⟨by omega, funext fun page ↦ ?_⟩
        rw [filePage, filePage, tbl_of_lt hlt, tbl_of_lt (hgen ▸ hlt), htab, hgen]
      · have hlen : s'.pinned.tables.length = s.pinned.tables.length - 1 := by
          rw [htab, length_tail]
        refine ⟨by omega, funext fun page ↦ ?_⟩
        rw [filePage, filePage, tbl_of_lt hlt, tbl_of_lt (hgen ▸ hlt), hlen, htab, hgen,
          getD_eq_getElem?_getD, getD_eq_getElem?_getD, getElem?_tail]
        congr 3
        omega
  · have hlen : s'.pinned.tables.length = s.pinned.tables.length + 1 := by
      rw [htab, length_append, length_singleton]
    refine ⟨by omega, funext fun page ↦ ?_⟩
    have hidx : k + s'.pinned.tables.length - s'.gen = k + s.pinned.tables.length - s.gen := by
      omega
    rw [filePage, filePage, tbl_of_lt (by omega), hidx, htab, getD_eq_getElem?_getD]
    by_cases hkg : k = s.gen
    · rw [hkg, Nat.add_sub_cancel_left, getElem?_concat_length]
      rfl
    · have hlt : k < s.gen := by omega
      rw [tbl_of_lt hlt, getD_eq_getElem?_getD, getElem?_append_left (by omega)]

/-- **A reader sees one state of the partition for as long as it holds its mapping**: a mapping that
was published or held then, and is held now, reads every page as it did then. -/
theorem held_mapping_reads {branch : BranchName} {term : ℕ} {s₀ : CachedPartition}
    (hrun₀ : CacheRuns opts Current (fresh branch term) s₀) (hrun : CacheRuns opts Current s₀ s)
    (hk₀ : s₀.isPublic k = true) (hk : s.isPublic k = true) (page : ℕ) :
    s.cache.read s.filePage k page = s₀.cache.read s₀.filePage k page := by
  refine (hrun.invariant (fun s ↦ s.Coherent opts ∧ k ≤ s.gen ∧ (s.isPublic k = true →
    s.cache.read s.filePage k page = s₀.cache.read s₀.filePage k page))
    ⟨coherent_of_runs hrun₀, (isPublic_iff.1 hk₀).2, fun _ ↦ rfl⟩ ?_).2.2 hk
  rintro s e s' ⟨hcoh, hle, hread⟩ hcur hstep
  obtain ⟨hdisk, hgen⟩ := event_frame hstep
  refine ⟨hcoh.event hcur hstep, by omega, fun hpub ↦ ?_⟩
  obtain ⟨hpub', hmap⟩ := hcoh.held_event hstep hle hpub
  rw [← hread hpub', hcoh.cache.read_eq (isRegistered_of_isPublic hpub') page,
    (hcoh.event hcur hstep).cache.read_eq (isRegistered_of_isPublic hpub) page, hmap]
  rcases hdisk with hdisk | ⟨w, hw, hcls, v, hdisk⟩
  · rw [hdisk]
  · -- the page that is written is used by no mapping that anyone holds
    cases hfp : s.filePage k page with
    | none => rfl
    | some fp =>
      have hne : fp ≠ w.fp := fun heq ↦
        (hcoh.dataWrites w hw hcls).unused k hpub' page (heq ▸ hfp)
      exact (congrFun hdisk fp).trans (update_of_ne hne _ _)

/-- A reader of the first state reads page 0 as it was, after a write has replaced it and a cached
page has been recycled. -/
theorem held_mapping_reads_replaced : ∃ s₀ s : CachedPartition, s.readPage 0 = some 20 ∧
    s.cache.read s.filePage 1 0 = s₀.cache.read s₀.filePage 1 0 := by
  obtain ⟨s₀, s, hrun₀, hrun, hk₀, hk, hread⟩ :
      ∃ s₀ s, CacheRuns segmentOptions Current (fresh "main" 0) s₀ ∧
        CacheRuns segmentOptions Current s₀ s ∧ s₀.isPublic 1 = true ∧ s.isPublic 1 = true ∧
        s.readPage 0 = some 20 :=
    Transition.exists_reach_reach_of_exec createEvents
      [.begin, .copyChunk, .endCopy, .register, .write (some 0) 20 (some 2),
        .complete ⟨.data, 0, 2, 20, some 2⟩, .evict 0, .commit] (by decide +kernel)
  exact ⟨s₀, s, hread, held_mapping_reads hrun₀ hrun hk₀ hk 0⟩

end CachedPartition

end EloqStore
