import Mathlib.Data.List.Induction

/-!
# The last maximum of a list

The loop that keeps the best element seen so far and replaces it by every element that is *at least*
as good ends with the **last** of the elements with the greatest key. `lastMaxBy` is the loop, and
`lastMaxBy_eq_some_iff` says so: nothing before the result has a greater key, and everything after
it has a smaller one.
-/

namespace LastMaximum

variable {α : Type*} (key : α → ℕ)

/-- One turn: keep the better of two, the newcomer on a tie. -/
def better (best : Option α) (a : α) : Option α :=
  if (best.map key).getD 0 ≤ key a then some a else best

def lastMaxBy (l : List α) : Option α := l.foldl (better key) none

/-- `a` is the last of the elements with the greatest key. -/
def IsLastMax (l : List α) (a : α) : Prop :=
  ∃ before after, l = before ++ a :: after ∧ (∀ x ∈ before, key x ≤ key a) ∧
    ∀ x ∈ after, key x < key a

variable {key} {l : List α} {a b : α}

theorem IsLastMax.mem (h : IsLastMax key l a) : a ∈ l := by
  obtain ⟨before, after, rfl, -⟩ := h
  simp

theorem IsLastMax.key_le (h : IsLastMax key l a) : ∀ x ∈ l, key x ≤ key a := by
  obtain ⟨before, after, rfl, hbefore, hafter⟩ := h
  intro x hx
  rcases List.mem_append.1 hx with hx | hx
  · exact hbefore x hx
  · rcases List.mem_cons.1 hx with rfl | hx
    · exact Nat.le_refl _
    · exact Nat.le_of_lt (hafter x hx)

private theorem isLastMax_concat (h : IsLastMax key l a) (b : α) :
    (key a ≤ key b → IsLastMax key (l ++ [b]) b) ∧
    (key b < key a → IsLastMax key (l ++ [b]) a) := by
  refine ⟨fun hle ↦ ⟨l, [], rfl, fun x hx ↦ Nat.le_trans (h.key_le x hx) hle, by simp⟩,
    fun hlt ↦ ?_⟩
  obtain ⟨before, after, rfl, hbefore, hafter⟩ := h
  refine ⟨before, after ++ [b], by simp, hbefore, fun x hx ↦ ?_⟩
  rcases List.mem_append.1 hx with hx | hx
  · exact hafter x hx
  · exact List.mem_singleton.1 hx ▸ hlt

private theorem lastMaxBy_concat (l : List α) (b : α) :
    lastMaxBy key (l ++ [b]) = better key (lastMaxBy key l) b := by
  simp [lastMaxBy, List.foldl_append]

theorem lastMaxBy_eq_none_iff : lastMaxBy key l = none ↔ l = [] := by
  refine ⟨fun h ↦ ?_, fun h ↦ by rw [h]; rfl⟩
  cases l using List.reverseRecOn with
  | nil => rfl
  | append_singleton l b =>
    rw [lastMaxBy_concat, better] at h
    split at h
    · cases h
    · next hlt => simp [h] at hlt

theorem isLastMax_lastMaxBy (h : lastMaxBy key l = some a) : IsLastMax key l a := by
  induction l using List.reverseRecOn generalizing a with
  | nil => simp [lastMaxBy] at h
  | append_singleton l b ih =>
    rw [lastMaxBy_concat, better] at h
    cases hl : lastMaxBy key l with
    | none =>
      -- the first element is always taken, since no key lies below zero
      have hnil : l = [] := lastMaxBy_eq_none_iff.1 hl
      simp only [hl, Option.map_none, Option.getD_none, Nat.zero_le, if_true,
        Option.some.injEq] at h
      subst hnil h
      exact ⟨[], [], rfl, by simp, by simp⟩
    | some c =>
      rw [hl] at h
      split at h
      · next hle =>
        obtain rfl : b = a := by simpa using h
        exact (isLastMax_concat (ih hl) b).1 hle
      · next hlt =>
        obtain rfl : c = a := by simpa using h
        exact (isLastMax_concat (ih hl) b).2 (Nat.lt_of_not_le hlt)

theorem IsLastMax.unique (ha : IsLastMax key l a) (hb : IsLastMax key l b) : a = b := by
  have hkey : key a = key b := Nat.le_antisymm (hb.key_le a ha.mem) (ha.key_le b hb.mem)
  obtain ⟨before, after, rfl, hbefore, hafter⟩ := ha
  obtain ⟨before', after', heq, hbefore', hafter'⟩ := hb
  rcases List.append_eq_append_iff.1 heq with ⟨mid, hmid, htail⟩ | ⟨mid, hmid, htail⟩
  · cases mid with
    | nil => exact (List.cons.inj htail).1
    | cons c mid =>
      obtain ⟨-, rfl⟩ := List.cons.inj htail
      exact absurd (hafter b (by simp)) (by omega)
  · cases mid with
    | nil => exact (List.cons.inj htail).1.symm
    | cons c mid =>
      obtain ⟨-, rfl⟩ := List.cons.inj htail
      exact absurd (hafter' a (by simp)) (by omega)

/-- **The loop finds exactly the last maximum.** -/
theorem lastMaxBy_eq_some_iff : lastMaxBy key l = some a ↔ IsLastMax key l a := by
  refine ⟨isLastMax_lastMaxBy, fun h ↦ ?_⟩
  cases hl : lastMaxBy key l with
  | none => exact absurd h.mem (by simp [lastMaxBy_eq_none_iff.1 hl])
  | some b => rw [(isLastMax_lastMaxBy hl).unique h]

instance [DecidableEq α] : Decidable (IsLastMax key l a) :=
  decidable_of_iff _ lastMaxBy_eq_some_iff

/-- A property of the last maximum, if there is one, can be checked by the loop. -/
instance {p : α → Prop} [DecidablePred p] : Decidable (∀ a, IsLastMax key l a → p a) :=
  decidable_of_iff (∀ a ∈ lastMaxBy key l, p a)
    ⟨fun h a ha ↦ h a (lastMaxBy_eq_some_iff.2 ha), fun h a ha ↦ h a (lastMaxBy_eq_some_iff.1 ha)⟩

end LastMaximum
