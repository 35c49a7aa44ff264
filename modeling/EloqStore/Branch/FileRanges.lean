import EloqStore.Types
import EloqStore.Foundation.LowerBound

/-!
# Branch file ranges

Which `(branch, term)` a file belongs to. Each partition carries a list of `BranchFileRange`s, one
per generation of writers, with the highest data file and the highest segment file the generation
has reached; a file belongs to the first range whose maximum is not below its id
(`getBranchNameAndTerm`, by binary search). Writers record the files they open with
`setBranchFileIdTerm`, which extends the last range when it is the writer's own and otherwise
opens a new one that **inherits** the other class's maximum.

A range that has never seen a segment carries the default segment maximum `0`, the same value as
one whose highest segment file is file `0`.

The second half of the file says when the two agree. `Ready` is the state a file class is in when
the writer's current file is either not recorded yet, above everything recorded, or recorded as the
last range's maximum with the writer as owner; `ready_set` and `resolve_set_self` say that a writer
in that state keeps it and finds its own file again.
-/

namespace EloqStore

open List Option

open LowerBound

/-- One generation's file-id ranges. -/
structure BranchFileRange where
  /-- The branch the generation belongs to. -/
  branchName : BranchName
  term : ℕ
  /-- The highest data file id reached so far. -/
  maxFileId : ℕ := 0
  maxSegmentFileId : ℕ := 0
deriving DecidableEq, Repr

namespace BranchFileRange

variable (r : BranchFileRange)

def maxOf : FileClass → ℕ
  | .data => r.maxFileId
  | .segment => r.maxSegmentFileId

/-- Record `fileId` as the maximum of its class. -/
def setMax (fid : TypedFileId) : BranchFileRange :=
  match fid.cls with
  | .data => { r with maxFileId := fid.fileId }
  | .segment => { r with maxSegmentFileId := fid.fileId }

/-- The owner of the generation's files. -/
def owner : Owner := ⟨r.branchName, r.term⟩

@[simp] theorem maxOf_setMax_self (c : FileClass) (f : ℕ) : (r.setMax ⟨c, f⟩).maxOf c = f := by
  cases c <;> rfl

variable {c : FileClass} {w : Owner} {f before : ℕ} {check : Bool}

theorem maxOf_setMax_of_ne {c' : FileClass} (f : ℕ) (h : c' ≠ c) :
    (r.setMax ⟨c, f⟩).maxOf c' = r.maxOf c' := by
  cases c <;> cases c' <;> first | exact absurd rfl h | rfl

@[simp] theorem owner_setMax (fid : TypedFileId) : (r.setMax fid).owner = r.owner := by
  rcases fid with ⟨⟨⟩, _⟩ <;> rfl

end BranchFileRange

/-- A partition's ranges, oldest generation first. -/
abbrev BranchFileMapping := List BranchFileRange

/-- The search for a file's range: the index of the first range whose maximum is not below the
file's id, or the length when there is none. -/
def findBranchRange (mapping : BranchFileMapping) (fid : TypedFileId) : ℕ :=
  lowerBound (fun r ↦ decide (r.maxOf fid.cls < fid.fileId)) mapping

/-- Resolve a file to the branch and term it belongs to. -/
def getBranchNameAndTerm (mapping : BranchFileMapping) (fid : TypedFileId) : Option Owner :=
  (mapping[findBranchRange mapping fid]?).map (·.owner)

/-- Whether a file belongs to a branch. -/
def fileIdInBranch (mapping : BranchFileMapping) (fid : TypedFileId) (branch : BranchName) : Bool :=
  match mapping[findBranchRange mapping fid]? with
  | none => false
  | some r => r.branchName = branch

/-- Record a file under its writer. `none` is the failure of the source's check that a generation
opens files in ascending order, which stops the process. -/
def setBranchFileIdTerm (mapping : BranchFileMapping) (fid : TypedFileId) (w : Owner) :
    Option BranchFileMapping :=
  match mapping.getLast? with
  | none => some [(BranchFileRange.mk w.branchName w.term 0 0).setMax fid]
  | some back =>
    if back.branchName = w.branchName ∧ back.term = w.term then
      if back.maxOf fid.cls ≤ fid.fileId then some (mapping.dropLast ++ [back.setMax fid]) else none
    else
      -- the new generation inherits the other class's maximum
      some (mapping ++ [(BranchFileRange.mk w.branchName w.term back.maxFileId
        back.maxSegmentFileId).setMax fid])

/-! ### What recording a file does -/

theorem setBranchFileIdTerm_nil (fid : TypedFileId) (w : Owner) :
    setBranchFileIdTerm [] fid w = some [(BranchFileRange.mk w.branchName w.term 0 0).setMax fid] :=
  rfl

/-- Recording under the last range's own generation. -/
theorem setBranchFileIdTerm_concat_own {init : BranchFileMapping} {back : BranchFileRange}
    {fid : TypedFileId} (h : back.owner = w) :
    setBranchFileIdTerm (init ++ [back]) fid w =
      if back.maxOf fid.cls ≤ fid.fileId then some (init ++ [back.setMax fid]) else none := by
  subst h
  simp [setBranchFileIdTerm, BranchFileRange.owner]

/-- Recording under a generation other than the last range's. -/
theorem setBranchFileIdTerm_concat_other {init : BranchFileMapping} {back : BranchFileRange}
    {fid : TypedFileId} (h : back.owner ≠ w) :
    setBranchFileIdTerm (init ++ [back]) fid w =
      some (init ++ [back] ++ [(BranchFileRange.mk w.branchName w.term back.maxFileId
        back.maxSegmentFileId).setMax fid]) := by
  have hne : ¬(back.branchName = w.branchName ∧ back.term = w.term) := by
    rintro ⟨hb, ht⟩
    exact h (by cases w; simp_all [BranchFileRange.owner])
  simp [setBranchFileIdTerm, hne]

/-! ### Sorted ranges -/

/-- Both maxima are non-decreasing along the list. -/
def RangesSorted (mapping : BranchFileMapping) : Prop :=
  ∀ c : FileClass, mapping.Pairwise fun r r' ↦ r.maxOf c ≤ r'.maxOf c

theorem rangesSorted_nil : RangesSorted [] := fun _ ↦ Pairwise.nil

variable {mapping mapping' : BranchFileMapping}

/-- **On sorted ranges the binary search is a linear one.** -/
theorem getBranchNameAndTerm_eq_find (h : RangesSorted mapping) (fid : TypedFileId) :
    getBranchNameAndTerm mapping fid =
      (mapping.find? fun r ↦ decide (fid.fileId ≤ r.maxOf fid.cls)).map (·.owner) := by
  rw [getBranchNameAndTerm, findBranchRange,
    getElem?_lowerBound (partitioned_of_sorted fid.fileId (h fid.cls))]
  congr 2
  funext r
  rw [← decide_not]
  exact decide_eq_decide.2 not_lt

/-- The maximum a class has reached: the last range's, `0` without ranges. -/
def lastMax (mapping : BranchFileMapping) (c : FileClass) : ℕ :=
  match mapping.getLast? with
  | none => 0
  | some back => back.maxOf c

@[simp] theorem lastMax_concat (init : BranchFileMapping) (back : BranchFileRange)
    (c : FileClass) : lastMax (init ++ [back]) c = back.maxOf c := by
  simp [lastMax]

/-- **Inversion of `setBranchFileIdTerm`.** The result always ends in a range of the writer with
the recorded maximum. Either that range extends the writer's own last range, or it is new and has
inherited the other class's maximum. -/
theorem set_cases (h : setBranchFileIdTerm mapping ⟨c, f⟩ w = some mapping') :
    ∃ init back', mapping' = init ++ [back'] ∧ back'.owner = w ∧ back'.maxOf c = f ∧
      (∀ c', c' ≠ c → back'.maxOf c' = lastMax mapping c') ∧
      ((∃ back, mapping = init ++ [back] ∧ back.owner = w ∧ back.maxOf c ≤ f) ∨
        (mapping = init ∧ ∀ back ∈ mapping.getLast?, back.owner ≠ w)) := by
  rcases eq_nil_or_concat' mapping with rfl | ⟨init, back, rfl⟩
  · rw [setBranchFileIdTerm_nil, some.injEq] at h
    subst h
    refine ⟨[], _, rfl, by rw [BranchFileRange.owner_setMax]; rfl, by simp,
      fun c' hc' ↦ ?_,
      .inr ⟨rfl, by simp⟩⟩
    rw [BranchFileRange.maxOf_setMax_of_ne _ _ hc']
    cases c' <;> rfl
  · by_cases hw : back.owner = w
    · rw [setBranchFileIdTerm_concat_own hw] at h
      obtain ⟨hle, h⟩ := ite_none_right_eq_some.1 h
      rw [some.injEq] at h
      subst h
      exact ⟨init, _, rfl, by simpa using hw, by simp,
        fun c' hc' ↦ by simp [BranchFileRange.maxOf_setMax_of_ne _ _ hc'],
        .inl ⟨back, rfl, hw, hle⟩⟩
    · rw [setBranchFileIdTerm_concat_other hw, some.injEq] at h
      subst h
      refine ⟨init ++ [back], _, rfl, by rw [BranchFileRange.owner_setMax]; rfl, by simp,
        fun c' hc' ↦ ?_, .inr ⟨rfl, by simpa using hw⟩⟩
      rw [BranchFileRange.maxOf_setMax_of_ne _ _ hc', lastMax_concat]
      cases c' <;> rfl

/-- Recording a file not below the class's last maximum never fails the check. -/
theorem exists_set (w : Owner) (h : lastMax mapping c ≤ f) :
    ∃ mapping', setBranchFileIdTerm mapping ⟨c, f⟩ w = some mapping' := by
  rcases eq_nil_or_concat' mapping with rfl | ⟨init, back, rfl⟩
  · exact ⟨_, setBranchFileIdTerm_nil _ _⟩
  · by_cases hw : back.owner = w
    · rw [lastMax_concat] at h
      exact ⟨_, by rw [setBranchFileIdTerm_concat_own hw, if_pos h]⟩
    · exact ⟨_, setBranchFileIdTerm_concat_other hw⟩

theorem maxOf_le_lastMax (hs : RangesSorted mapping) (c : FileClass) :
    ∀ r ∈ mapping, r.maxOf c ≤ lastMax mapping c := by
  rcases eq_nil_or_concat' mapping with rfl | ⟨init, back, rfl⟩
  · simp
  · intro r hr
    have hp := (pairwise_append.1 (hs c)).2.2
    rw [lastMax_concat]
    rcases mem_append.1 hr with hr | hr
    · exact hp r hr back (by simp)
    · exact (mem_singleton.1 hr ▸ le_rfl)

theorem lastMax_set (h : setBranchFileIdTerm mapping ⟨c, f⟩ w = some mapping') :
    lastMax mapping' c = f := by
  obtain ⟨init, back', rfl, -, hmax, -⟩ := set_cases h
  rw [lastMax_concat, hmax]

theorem lastMax_set_of_ne {c' : FileClass}
    (h : setBranchFileIdTerm mapping ⟨c, f⟩ w = some mapping') (hc : c' ≠ c) :
    lastMax mapping' c' = lastMax mapping c' := by
  obtain ⟨init, back', rfl, -, -, hother, -⟩ := set_cases h
  rw [lastMax_concat, hother c' hc]

section

variable (hs : RangesSorted mapping) (hle : lastMax mapping c ≤ f)
    (h : setBranchFileIdTerm mapping ⟨c, f⟩ w = some mapping')

include hs hle h

/-- Recording a file at or above the last maximum keeps the ranges sorted. -/
theorem RangesSorted.set : RangesSorted mapping' := by
  have hb := maxOf_le_lastMax hs
  obtain ⟨init, back', rfl, -, hmax, hother, hcase⟩ := set_cases h
  intro c'
  have hlast : ∀ r ∈ mapping, r.maxOf c' ≤ back'.maxOf c' := by
    intro r hr
    by_cases hc : c' = c
    · subst hc
      exact hmax ▸ (hb c' r hr).trans hle
    · exact hother c' hc ▸ hb c' r hr
  rw [pairwise_append]
  rcases hcase with ⟨back, rfl, -, -⟩ | ⟨rfl, -⟩
  · refine ⟨(pairwise_append.1 (hs c')).1, pairwise_singleton _ _, ?_⟩
    intro r hr r' hr'
    rw [mem_singleton.1 hr']
    exact hlast r (mem_append_left _ hr)
  · refine ⟨hs c', pairwise_singleton _ _, ?_⟩
    intro r hr r' hr'
    rw [mem_singleton.1 hr']
    exact hlast r hr

/-! ### Resolution is stable -/

/-- **Recording a file never changes what an already resolvable file resolves to.** -/
theorem resolve_set_of_resolved {o : Owner} {fid : TypedFileId}
    (ho : getBranchNameAndTerm mapping fid = some o) :
    getBranchNameAndTerm mapping' fid = some o := by
  have hs' := hs.set hle h
  rw [getBranchNameAndTerm_eq_find hs] at ho
  rw [getBranchNameAndTerm_eq_find hs']
  obtain ⟨init, back', rfl, hown, hmax, hother, hcase⟩ := set_cases h
  rcases hcase with ⟨back, rfl, hback, hbf⟩ | ⟨rfl, -⟩
  · -- the last range was the writer's own: only its maximum grew
    rw [find?_append] at ho ⊢
    cases hfind : init.find? fun r ↦ decide (fid.fileId ≤ r.maxOf fid.cls) with
    | some r => simpa [hfind] using ho
    | none =>
      simp only [hfind, none_or, find?_singleton] at ho ⊢
      split at ho
      · next hb =>
        have hge : back.maxOf fid.cls ≤ back'.maxOf fid.cls := by
          by_cases hc : fid.cls = c
          · rw [hc, hmax]
            exact hbf
          · exact (hother _ hc).trans (lastMax_concat _ _ _) ▸ le_rfl
        have hpos : decide (fid.fileId ≤ back'.maxOf fid.cls) = true := by
          simp only [decide_eq_true_eq] at hb ⊢
          omega
        rw [if_pos hpos]
        simp only [map_some, some.injEq] at ho ⊢
        rw [hown, ← ho, hback]
      · cases ho
  · -- a range was added after the ones that resolve the file
    cases hfind : mapping.find? fun r ↦ decide (fid.fileId ≤ r.maxOf fid.cls) with
    | some r => simpa [hfind] using ho
    | none => simp [hfind] at ho

end

/-- **A writer finds the file it has just recorded under its own name**, when no earlier range
reaches it. -/
theorem resolve_set_self (hs : RangesSorted mapping) (hlt : ∀ r ∈ mapping, r.maxOf c < f)
    (h : setBranchFileIdTerm mapping ⟨c, f⟩ w = some mapping') :
    getBranchNameAndTerm mapping' ⟨c, f⟩ = some w := by
  have hle : lastMax mapping c ≤ f := by
    rcases eq_nil_or_concat' mapping with rfl | ⟨init, back, rfl⟩
    · exact Nat.zero_le f
    · rw [lastMax_concat]
      exact (hlt back (by simp)).le
  rw [getBranchNameAndTerm_eq_find (hs.set hle h)]
  obtain ⟨init, back', rfl, hown, hmax, -, hcase⟩ := set_cases h
  have hinit : ∀ r ∈ init, r.maxOf c < f := by
    rcases hcase with ⟨back, rfl, -, -⟩ | ⟨rfl, -⟩
    · exact fun r hr ↦ hlt r (mem_append_left _ hr)
    · exact hlt
  have hnone : init.find? (fun r ↦ decide (f ≤ r.maxOf c)) = none := by
    rw [find?_eq_none]
    intro r hr
    simpa using hinit r hr
  rw [find?_append, hnone]
  simp [hmax, hown]

theorem resolve_eq_none_iff (hs : RangesSorted mapping) :
    getBranchNameAndTerm mapping ⟨c, f⟩ = none ↔ ∀ r ∈ mapping, r.maxOf c < f := by
  rw [getBranchNameAndTerm_eq_find hs]
  simp

/-! ### A writer whose current file is its own -/

/-- The state a class is in when `f` is its writer's current file: either no range reaches `f` yet,
or the last range is the writer's own, its maximum is `f`, and no earlier range reaches `f`. -/
def Ready (mapping : BranchFileMapping) (c : FileClass) (w : Owner) (f : ℕ) : Prop :=
  (∀ r ∈ mapping, r.maxOf c < f) ∨
    ∃ init back, mapping = init ++ [back] ∧ back.owner = w ∧ back.maxOf c = f ∧
      ∀ r ∈ init, r.maxOf c < f

theorem ready_nil (c : FileClass) (w : Owner) (f : ℕ) : Ready [] c w f := .inl (by simp)

namespace Ready

variable {mapping mapping' : BranchFileMapping} {c c' : FileClass} {w : Owner} {f f' : ℕ}

theorem lastMax_le (h : Ready mapping c w f) : lastMax mapping c ≤ f := by
  rcases h with h | ⟨init, back, rfl, -, rfl, -⟩
  · rcases eq_nil_or_concat' mapping with rfl | ⟨init, back, rfl⟩
    · exact Nat.zero_le f
    · rw [lastMax_concat]
      exact (h back (by simp)).le
  · simp

/-- A ready file resolves to its writer as soon as it resolves at all. -/
theorem resolve (h : Ready mapping c w f) (hs : RangesSorted mapping)
    (hne : getBranchNameAndTerm mapping ⟨c, f⟩ ≠ none) :
    getBranchNameAndTerm mapping ⟨c, f⟩ = some w := by
  rcases h with h | ⟨init, back, rfl, rfl, rfl, hinit⟩
  · exact absurd ((resolve_eq_none_iff hs).2 h) hne
  · have hnone : init.find? (fun r ↦ decide (back.maxOf c ≤ r.maxOf c)) = none := by
      rw [find?_eq_none]
      intro r hr
      simpa using hinit r hr
    rw [getBranchNameAndTerm_eq_find hs, find?_append, hnone]
    simp

/-- Recording a file no range reaches makes it the writer's ready file. -/
theorem of_set (hlt : ∀ r ∈ mapping, r.maxOf c < f)
    (h : setBranchFileIdTerm mapping ⟨c, f⟩ w = some mapping') : Ready mapping' c w f := by
  obtain ⟨init, back', rfl, hown, hmax, -, hcase⟩ := set_cases h
  refine .inr ⟨init, back', rfl, hown, hmax, ?_⟩
  rcases hcase with ⟨back, rfl, -, -⟩ | ⟨rfl, -⟩
  · exact fun r hr ↦ hlt r (mem_append_left _ hr)
  · exact hlt

theorem lt_succ (h : Ready mapping c w f) (hs : RangesSorted mapping) :
    ∀ r ∈ mapping, r.maxOf c < f + 1 := fun r hr ↦
  Nat.lt_succ_of_le ((maxOf_le_lastMax hs c r hr).trans h.lastMax_le)

/-- Moving on to a later file keeps the class ready. -/
theorem of_lt (h : Ready mapping c w f) (hs : RangesSorted mapping) (hlt : f < f') :
    Ready mapping c w f' :=
  .inl fun r hr ↦ (h.lt_succ hs r hr).trans_le hlt

/-- **Recording a file of one class leaves the other class ready.** -/
theorem set_other (h : Ready mapping c' w f') (hc : c' ≠ c)
    (hset : setBranchFileIdTerm mapping ⟨c, f⟩ w = some mapping') : Ready mapping' c' w f' := by
  obtain ⟨init, back', rfl, hown, -, hother, hcase⟩ := set_cases hset
  have hback' := hother c' hc
  rcases hcase with ⟨back, rfl, -, -⟩ | ⟨rfl, hne⟩
  · rw [lastMax_concat] at hback'
    rcases h with h | ⟨init₀, back₀, heq, -, rfl, hinit⟩
    · refine .inl fun r hr ↦ ?_
      rcases mem_append.1 hr with hr | hr
      · exact h r (mem_append_left _ hr)
      · rw [mem_singleton.1 hr, hback']
        exact h back (by simp)
    · obtain ⟨rfl, hb⟩ := append_inj' heq rfl
      obtain rfl : back = back₀ := by simpa using hb
      exact .inr ⟨init, back', rfl, hown, hback', hinit⟩
  · rcases eq_nil_or_concat' mapping with rfl | ⟨init₀, back₀, rfl⟩
    · -- the first range of all carries the other class's default maximum
      rcases Nat.eq_zero_or_pos f' with rfl | hpos
      · exact .inr ⟨[], back', rfl, hown, hback', by simp⟩
      · refine .inl fun r hr ↦ ?_
        rw [nil_append, mem_singleton] at hr
        rw [hr, hback']
        exact hpos
    · rcases h with h | ⟨init₁, back₁, heq, hown₁, -, -⟩
      · refine .inl fun r hr ↦ ?_
        rcases mem_append.1 hr with hr | hr
        · exact h r hr
        · rw [mem_singleton.1 hr, hback', lastMax_concat]
          exact h back₀ (by simp)
      · obtain ⟨-, hb⟩ := append_inj' heq rfl
        obtain rfl : back₀ = back₁ := by simpa using hb
        exact absurd hown₁ (hne back₀ (by simp))

end Ready

/-! ### Recording the files an allocation touches -/

/-- What an allocation records: the file it allocates from, when nothing resolves it yet (the check
is skipped when the caller knows it has been made), and the file it moves on to, if any. -/
def stampFiles (mapping : BranchFileMapping) (c : FileClass) (w : Owner) (check : Bool)
    (before after : ℕ) : Option BranchFileMapping :=
  (if check ∧ getBranchNameAndTerm mapping ⟨c, before⟩ = none then
      setBranchFileIdTerm mapping ⟨c, before⟩ w
    else some mapping).bind fun mapping₁ ↦
  if before ≠ after then setBranchFileIdTerm mapping₁ ⟨c, after⟩ w else some mapping₁

/-- **A class whose last maximum is not ahead of the current file** passes every check, and ends
with the file the allocation ends in, if it is there already or the current file is looked up; the
other class keeps its maximum. Nothing is said of owners here. -/
theorem stampFiles_of_lastMax {after : ℕ} (hs : RangesSorted mapping)
    (hlast : lastMax mapping c = before ∨ lastMax mapping c < before ∧ check = true)
    (hle : before ≤ after) :
    ∃ mapping', stampFiles mapping c w check before after = some mapping' ∧
      RangesSorted mapping' ∧ lastMax mapping' c = after ∧
      ∀ c', c' ≠ c → lastMax mapping' c' = lastMax mapping c' := by
  have hbefore : ∃ mapping₁, (if check ∧ getBranchNameAndTerm mapping ⟨c, before⟩ = none then
      setBranchFileIdTerm mapping ⟨c, before⟩ w else some mapping) = some mapping₁ ∧
      RangesSorted mapping₁ ∧ lastMax mapping₁ c = before ∧
      ∀ c', c' ≠ c → lastMax mapping₁ c' = lastMax mapping c' := by
    have hlast' : lastMax mapping c ≤ before := by omega
    split
    · obtain ⟨mapping₁, hset⟩ := exists_set w hlast'
      exact ⟨mapping₁, hset, hs.set hlast' hset, lastMax_set hset,
        fun c' hc ↦ lastMax_set_of_ne hset hc⟩
    · next hknown =>
      refine ⟨mapping, rfl, hs, hlast.resolve_right fun ⟨hlt, hcheck⟩ ↦ hknown ⟨hcheck, ?_⟩,
        fun _ _ ↦ rfl⟩
      exact (resolve_eq_none_iff hs).2 fun r hr ↦ (maxOf_le_lastMax hs c r hr).trans_lt hlt
  obtain ⟨mapping₁, h₁, hs₁, hlast₁, hother₁⟩ := hbefore
  rw [stampFiles, h₁, bind_some]
  rcases Nat.eq_or_lt_of_le hle with rfl | hlt
  · exact ⟨mapping₁, by simp, hs₁, hlast₁, hother₁⟩
  · have hle₁ : lastMax mapping₁ c ≤ after := (Nat.le_of_eq hlast₁).trans hle
    obtain ⟨mapping', hset⟩ := exists_set w hle₁
    refine ⟨mapping', by rw [if_pos hlt.ne, hset], hs₁.set hle₁ hset,
      lastMax_set hset, ?_⟩
    exact fun c' hc ↦ (lastMax_set_of_ne hset hc).trans (hother₁ c' hc)

/-- Recording a file touches no range of another writer. -/
private theorem mem_of_mem_set (h : setBranchFileIdTerm mapping ⟨c, f⟩ w = some mapping') :
    ∀ r ∈ mapping', r.owner ≠ w → r ∈ mapping := by
  obtain ⟨init, back', rfl, hown, -, -, hcase⟩ := set_cases h
  intro r hr hne
  rcases mem_append.1 hr with hr | hr
  · rcases hcase with ⟨back, rfl, -⟩ | ⟨rfl, -⟩
    · exact mem_append_left _ hr
    · exact hr
  · exact absurd (mem_singleton.1 hr ▸ hown) hne

private theorem stampFiles_cases {after : ℕ}
    (h : stampFiles mapping c w check before after = some mapping') :
    ∃ mapping₁,
      (setBranchFileIdTerm mapping ⟨c, before⟩ w = some mapping₁ ∨ mapping = mapping₁) ∧
      (setBranchFileIdTerm mapping₁ ⟨c, after⟩ w = some mapping' ∨ mapping₁ = mapping') := by
  obtain ⟨mapping₁, h₁, h₂⟩ := bind_eq_some_iff.1 h
  refine ⟨mapping₁, ?_, ?_⟩
  · split at h₁
    · exact .inl h₁
    · exact .inr (some.inj h₁)
  · split at h₂
    · exact .inl h₂
    · exact .inr (some.inj h₂)

/-- **Recording touches no range of another writer.** -/
theorem mem_of_mem_stampFiles {after : ℕ}
    (h : stampFiles mapping c w check before after = some mapping') {r : BranchFileRange}
    (hr : r ∈ mapping') (hne : r.owner ≠ w) : r ∈ mapping := by
  obtain ⟨mapping₁, h₁, h₂⟩ := stampFiles_cases h
  have hr₁ : r ∈ mapping₁ := by
    rcases h₂ with h₂ | rfl
    · exact mem_of_mem_set h₂ r hr hne
    · exact hr
  rcases h₁ with h₁ | rfl
  · exact mem_of_mem_set h₁ r hr₁ hne
  · exact hr₁

/-- **Recording lowers no maximum**, if the class's maximum is not ahead of the file recorded. -/
theorem lastMax_le_stampFiles {after : ℕ} (hlast : lastMax mapping c ≤ before)
    (hle : before ≤ after) (h : stampFiles mapping c w check before after = some mapping')
    (c' : FileClass) :
    lastMax mapping c' ≤ lastMax mapping' c' := by
  have hset : ∀ {m m' : BranchFileMapping} {f : ℕ}, lastMax m c ≤ f →
      setBranchFileIdTerm m ⟨c, f⟩ w = some m' → lastMax m c' ≤ lastMax m' c' := by
    intro m m' f hf hm
    by_cases hc : c' = c
    · rw [hc, lastMax_set hm]
      exact hf
    · exact Nat.le_of_eq (lastMax_set_of_ne hm hc).symm
  obtain ⟨mapping₁, h₁, h₂⟩ := stampFiles_cases h
  have hfirst : lastMax mapping c' ≤ lastMax mapping₁ c' ∧ lastMax mapping₁ c ≤ after := by
    rcases h₁ with h₁ | rfl
    · exact ⟨hset hlast h₁, (lastMax_set h₁).symm ▸ hle⟩
    · exact ⟨le_rfl, hlast.trans hle⟩
  rcases h₂ with h₂ | rfl
  · exact hfirst.1.trans (hset hfirst.2 h₂)
  · exact hfirst.1

/-- What `stampFiles` guarantees to a ready writer. -/
structure Stamped (mapping mapping' : BranchFileMapping) (c : FileClass) (w : Owner)
    (before after : ℕ) : Prop where
  sorted : RangesSorted mapping'
  /-- The class is ready at the file the allocation ends in. -/
  ready : Ready mapping' c w after
  /-- The file allocated from resolves to the writer. -/
  own : getBranchNameAndTerm mapping' ⟨c, before⟩ = some w
  /-- The class's last maximum is the file the allocation ends in. -/
  lastMax_eq : lastMax mapping' c = after
  /-- The other class's last maximum is untouched. -/
  lastMax_other : ∀ c', c' ≠ c → lastMax mapping' c' = lastMax mapping c'
  other : ∀ {c' f'}, c' ≠ c → Ready mapping c' w f' → Ready mapping' c' w f'
  /-- What resolved still resolves to the same owner. -/
  stable : ∀ {fid o}, getBranchNameAndTerm mapping fid = some o →
    getBranchNameAndTerm mapping' fid = some o

theorem Stamped.resolve_after {after : ℕ} (h : Stamped mapping mapping' c w before after) :
    getBranchNameAndTerm mapping' ⟨c, after⟩ ≠ none := by
  rw [ne_eq, resolve_eq_none_iff h.sorted]
  intro hlt
  rcases eq_nil_or_concat' mapping' with rfl | ⟨init, back, rfl⟩
  · exact absurd h.own (by simp [getBranchNameAndTerm])
  · have hmax := h.lastMax_eq
    rw [lastMax_concat] at hmax
    exact lt_irrefl _ (hmax ▸ hlt back (by simp))

section

variable (hs : RangesSorted mapping) (hr : Ready mapping c w before)
    (hcheck : check = false → getBranchNameAndTerm mapping ⟨c, before⟩ ≠ none)

include hs hr hcheck

/-- The first half of an allocation's recording: the file allocated from. -/
private theorem stamp_before :
    ∃ mapping₁, (if check ∧ getBranchNameAndTerm mapping ⟨c, before⟩ = none then
        setBranchFileIdTerm mapping ⟨c, before⟩ w else some mapping) = some mapping₁ ∧
      Stamped mapping mapping₁ c w before before := by
  by_cases hnone : getBranchNameAndTerm mapping ⟨c, before⟩ = none
  · have htrue : check = true := by
      cases check
      · exact absurd hnone (hcheck rfl)
      · rfl
    have hlt := (resolve_eq_none_iff hs).1 hnone
    obtain ⟨mapping₁, hset⟩ := exists_set w hr.lastMax_le
    refine ⟨mapping₁, by simp [htrue, hnone, hset], ?_⟩
    exact
      { sorted := hs.set hr.lastMax_le hset
        ready := .of_set hlt hset
        own := resolve_set_self hs hlt hset
        lastMax_eq := lastMax_set hset
        lastMax_other := fun _ hc ↦ lastMax_set_of_ne hset hc
        other := fun hc h ↦ h.set_other hc hset
        stable := resolve_set_of_resolved hs hr.lastMax_le hset }
  · refine ⟨mapping, by simp [hnone], ?_⟩
    have hlast : lastMax mapping c = before := by
      rcases hr with h | ⟨init, back, rfl, -, rfl, -⟩
      · exact absurd ((resolve_eq_none_iff hs).2 h) hnone
      · simp
    exact
      { sorted := hs
        ready := hr
        own := hr.resolve hs hnone
        lastMax_eq := hlast
        lastMax_other := fun _ _ ↦ rfl
        other := fun _ h ↦ h
        stable := fun h ↦ h }

/-- **A ready writer's allocation is recorded, and recorded as its own.** -/
theorem stampFiles_spec {after : ℕ} (hle : before ≤ after) :
    ∃ mapping', stampFiles mapping c w check before after = some mapping' ∧
      Stamped mapping mapping' c w before after := by
  obtain ⟨mapping₁, h₁, st₁⟩ := stamp_before hs hr hcheck
  rw [stampFiles, h₁, bind_some]
  rcases Nat.eq_or_lt_of_le hle with rfl | hlt
  · exact ⟨mapping₁, by simp, st₁⟩
  · have hlast : lastMax mapping₁ c ≤ after := st₁.ready.lastMax_le.trans hle
    obtain ⟨mapping', hset⟩ := exists_set w hlast
    refine ⟨mapping', by rw [if_pos hlt.ne, hset], ?_⟩
    have hall : ∀ r ∈ mapping₁, r.maxOf c < after := fun r hr ↦
      (st₁.ready.lt_succ st₁.sorted r hr).trans_le hlt
    exact
      { sorted := st₁.sorted.set hlast hset
        ready := .of_set hall hset
        own := resolve_set_of_resolved st₁.sorted hlast hset st₁.own
        lastMax_eq := lastMax_set hset
        lastMax_other := fun c' hc ↦
          (lastMax_set_of_ne hset hc).trans (st₁.lastMax_other c' hc)
        other := fun hc h ↦ (st₁.other hc h).set_other hc hset
        stable := fun h ↦ resolve_set_of_resolved st₁.sorted hlast hset (st₁.stable h) }

end

/-! ### A writer ahead of all others -/

/-- Every range of another writer ends before `f`. Unlike `Ready` this allows the writer's own
ranges to be ahead of it, as an aborted write leaves them. -/
def OthersBelow (mapping : BranchFileMapping) (c : FileClass) (w : Owner) (f : ℕ) : Prop :=
  ∀ r ∈ mapping, r.owner ≠ w → r.maxOf c < f

theorem OthersBelow.mono {f' : ℕ} (h : OthersBelow mapping c w f) (hle : f ≤ f') :
    OthersBelow mapping c w f' :=
  fun r hr hne ↦ (h r hr hne).trans_le hle

theorem exists_range_of_resolve (hs : RangesSorted mapping) {o : Owner}
    (h : getBranchNameAndTerm mapping ⟨c, f⟩ = some o) :
    ∃ r ∈ mapping, r.owner = o ∧ f ≤ r.maxOf c := by
  rw [getBranchNameAndTerm_eq_find hs] at h
  obtain ⟨r, hr, hown⟩ := map_eq_some_iff.1 h
  exact ⟨r, mem_of_find?_eq_some hr, hown, by simpa using find?_some hr⟩

/-- From there on files are the writer's, or not recorded. -/
theorem OthersBelow.resolve {o : Owner} {f' : ℕ} (h : OthersBelow mapping c w f)
    (hs : RangesSorted mapping) (hle : f ≤ f')
    (ho : getBranchNameAndTerm mapping ⟨c, f'⟩ = some o) : o = w := by
  obtain ⟨r, hr, rfl, hmax⟩ := exists_range_of_resolve hs ho
  by_contra hne
  have := h r hr hne
  omega

/-- **The ranges after a writer has recorded files of a class.** -/
structure GrownBy (w : Owner) (c : FileClass) (mapping mapping' : BranchFileMapping) : Prop where
  sorted : RangesSorted mapping'
  /-- What resolved still resolves to the same owner. -/
  stable : ∀ {fid o}, getBranchNameAndTerm mapping fid = some o →
    getBranchNameAndTerm mapping' fid = some o
  /-- Every range of another writer was there before. -/
  others : ∀ r ∈ mapping', r.owner ≠ w → r ∈ mapping

namespace GrownBy

variable {mapping mapping₁ mapping' : BranchFileMapping} {c : FileClass} {w o : Owner} {f : ℕ}

theorem refl (hs : RangesSorted mapping) : GrownBy w c mapping mapping :=
  ⟨hs, fun h ↦ h, fun _ hr _ ↦ hr⟩

theorem trans (h : GrownBy w c mapping mapping₁) (h' : GrownBy w c mapping₁ mapping') :
    GrownBy w c mapping mapping' :=
  ⟨h'.sorted, fun ho ↦ h'.stable (h.stable ho), fun r hr hne ↦ h.others r (h'.others r hr hne) hne⟩

/-- **What did not resolve before resolves to the writer.** -/
theorem resolve_cases (h : GrownBy w c mapping mapping') (hs : RangesSorted mapping)
    (ho : getBranchNameAndTerm mapping' ⟨c, f⟩ = some o) :
    getBranchNameAndTerm mapping ⟨c, f⟩ = some o ∨ o = w := by
  cases hold : getBranchNameAndTerm mapping ⟨c, f⟩ with
  | some o' => exact .inl (by rw [← ho, h.stable hold])
  | none =>
    obtain ⟨r, hr, rfl, hmax⟩ := exists_range_of_resolve h.sorted ho
    refine .inr (by_contra fun hne ↦ ?_)
    have := (resolve_eq_none_iff hs).1 hold r (h.others r hr hne)
    omega

theorem othersBelow (h : GrownBy w c mapping mapping') (hb : OthersBelow mapping c w f) :
    OthersBelow mapping' c w f := fun r hr hne ↦ hb r (h.others r hr hne) hne

/-- Recording a file no other writer's range reaches. -/
theorem of_set (hs : RangesSorted mapping) (hb : OthersBelow mapping c w f)
    (h : setBranchFileIdTerm mapping ⟨c, f⟩ w = some mapping') : GrownBy w c mapping mapping' := by
  have hle : lastMax mapping c ≤ f := by
    obtain ⟨init, -, -, -, -, -, hcase⟩ := set_cases h
    rcases hcase with ⟨back, rfl, -, hle⟩ | ⟨rfl, hne⟩
    · rw [lastMax_concat]
      exact hle
    · rcases eq_nil_or_concat' mapping with rfl | ⟨init, back, rfl⟩
      · exact Nat.zero_le _
      · rw [lastMax_concat]
        exact (hb back (by simp) (hne back (by simp))).le
  exact ⟨hs.set hle h, resolve_set_of_resolved hs hle h, mem_of_mem_set h⟩

end GrownBy

/-- **An allocation of a writer ahead of all others is recorded as its own.** -/
theorem grownBy_stampFiles {after : ℕ} (hs : RangesSorted mapping)
    (hb : OthersBelow mapping c w before) (hle : before ≤ after)
    (h : stampFiles mapping c w true before after = some mapping') :
    GrownBy w c mapping mapping' ∧ getBranchNameAndTerm mapping' ⟨c, before⟩ = some w := by
  obtain ⟨mapping₁, h₁, h₂⟩ := bind_eq_some_iff.1 h
  have hfirst : GrownBy w c mapping mapping₁ ∧
      getBranchNameAndTerm mapping₁ ⟨c, before⟩ = some w := by
    cases hold : getBranchNameAndTerm mapping ⟨c, before⟩ with
    | none =>
      rw [if_pos ⟨rfl, hold⟩] at h₁
      exact ⟨.of_set hs hb h₁, resolve_set_self hs ((resolve_eq_none_iff hs).1 hold) h₁⟩
    | some o =>
      obtain rfl : mapping = mapping₁ := by simpa [hold] using h₁
      exact ⟨.refl hs, by rw [hold, hb.resolve hs le_rfl hold]⟩
  obtain ⟨hgrown, hown⟩ := hfirst
  split at h₂
  · have hsecond : GrownBy w c mapping₁ mapping' :=
      .of_set hgrown.sorted ((hgrown.othersBelow hb).mono hle) h₂
    exact ⟨hgrown.trans hsecond, hsecond.stable hown⟩
  · cases h₂
    exact ⟨hgrown, hown⟩

end EloqStore
