import Mathlib.Data.List.Basic

/-!
# Binary search for the first element that fails a test

`lowerBound p l` is the halving loop of the C++ standard library's `lower_bound`, run on a list: it
keeps a window `[first, first + len)` and halves it. On a list that `p` **partitions** — once `p`
fails it keeps failing — it finds the first element that fails `p` (`lowerBound_eq_findIdx`); on
any other list it is still the loop, and says whatever the loop says.

`partitioned_of_sorted` is the case that arises: `p x` is `key x < v` and the keys are in order.
-/

namespace LowerBound

variable {α : Type*}

/-- The halving loop on the window `[first, first + len)`. Every round shrinks `len`, so `len`
itself is enough fuel. -/
def lowerBoundAux (p : α → Bool) (l : List α) : ℕ → ℕ → ℕ → ℕ
  | 0, first, _ => first
  | fuel + 1, first, len =>
    if len = 0 then first
    else
      match l[first + len / 2]? with
      | none => first
      | some x =>
        if p x then lowerBoundAux p l fuel (first + len / 2 + 1) (len - len / 2 - 1)
        else lowerBoundAux p l fuel first (len / 2)

/-- The index the search ends on; `l.length` when every element passes the test. -/
def lowerBound (p : α → Bool) (l : List α) : ℕ :=
  lowerBoundAux p l l.length 0 l.length

/-- Once `p` fails it keeps failing. -/
def Partitioned (p : α → Bool) (l : List α) : Prop :=
  l.Pairwise fun x y ↦ p y = true → p x = true

variable {l : List α}

theorem partitioned_of_sorted {key : α → ℕ} (v : ℕ) (h : l.Pairwise fun x y ↦ key x ≤ key y) :
    Partitioned (fun x ↦ decide (key x < v)) l :=
  h.imp fun hxy hy ↦ by
    simp only [decide_eq_true_eq] at hy ⊢
    omega

variable {p : α → Bool} (hp : Partitioned p l)

include hp

/-- What the loop keeps true: everything before the window passes, everything after it fails. -/
private theorem lowerBoundAux_spec :
    ∀ (fuel first len : ℕ), len ≤ fuel → first + len ≤ l.length →
      (∀ i x, i < first → l[i]? = some x → p x = true) →
      (∀ i x, first + len ≤ i → l[i]? = some x → p x = false) →
      lowerBoundAux p l fuel first len ≤ l.length ∧
        (∀ i x, i < lowerBoundAux p l fuel first len → l[i]? = some x → p x = true) ∧
        (∀ i x, lowerBoundAux p l fuel first len ≤ i → l[i]? = some x → p x = false) := by
  intro fuel
  induction fuel with
  | zero =>
    intro first len hlen hle hlo hhi
    obtain rfl : len = 0 := by omega
    exact ⟨by simpa [lowerBoundAux] using hle, hlo, by simpa [lowerBoundAux] using hhi⟩
  | succ fuel ih =>
    intro first len hlen hle hlo hhi
    rw [lowerBoundAux]
    split
    · next h0 =>
      subst h0
      exact ⟨by omega, hlo, by simpa using hhi⟩
    · next h0 =>
      have hmid : first + len / 2 < l.length := by omega
      rw [List.getElem?_eq_getElem hmid]
      dsimp only
      have hpair := List.pairwise_iff_getElem.1 hp
      split
      · next hx =>
        -- the middle passes, so everything up to it passes
        refine ih _ _ (by omega) (by omega) (fun i x hi hix ↦ ?_) (fun i x hi ↦ hhi i x (by omega))
        obtain ⟨hil, rfl⟩ := List.getElem?_eq_some_iff.1 hix
        rcases Nat.lt_or_ge i (first + len / 2) with hlt | hge
        · exact hpair _ _ hil hmid hlt hx
        · obtain rfl : i = first + len / 2 := by omega
          exact hx
      · next hx =>
        -- the middle fails, so everything from it on fails
        refine ih _ _ (by omega) (by omega) hlo fun i x hi hix ↦ ?_
        obtain ⟨hil, rfl⟩ := List.getElem?_eq_some_iff.1 hix
        by_contra hpx
        rcases Nat.lt_or_ge (first + len / 2) i with hlt | hge
        · exact hx (hpair _ _ hmid hil hlt (by simpa using hpx))
        · obtain rfl : i = first + len / 2 := by omega
          exact hx (by simpa using hpx)

/-- **The search finds the first failing element** of a partitioned list. -/
theorem lowerBound_eq_findIdx :
    lowerBound p l = l.findIdx fun x ↦ !p x := by
  obtain ⟨hle, hlo, hhi⟩ := lowerBoundAux_spec hp l.length 0 l.length (Nat.le_refl _) (by omega)
    (fun i x hi ↦ by omega) (fun i x hi hix ↦ by
      obtain ⟨hil, -⟩ := List.getElem?_eq_some_iff.1 hix
      omega)
  change lowerBound p l ≤ _ at hle
  rcases Nat.lt_or_ge (lowerBound p l) l.length with hlt | hge
  · refine ((List.findIdx_eq hlt).2 ⟨?_, fun j hj ↦ ?_⟩).symm
    · simpa using hhi _ _ (Nat.le_refl _) (List.getElem?_eq_getElem hlt)
    · simpa using hlo j _ hj (List.getElem?_eq_getElem (by omega))
  · have hlen : lowerBound p l = l.length := by omega
    rw [hlen, eq_comm, List.findIdx_eq_length]
    intro x hx
    obtain ⟨i, hi, rfl⟩ := List.getElem_of_mem hx
    simpa using hlo i _ (by change i < lowerBound p l; omega) (List.getElem?_eq_getElem hi)

/-- The element found, as the first element failing the test. -/
theorem getElem?_lowerBound :
    l[lowerBound p l]? = l.find? fun x ↦ !p x := by
  rw [lowerBound_eq_findIdx hp, List.find?_eq_getElem?_findIdx]

end LowerBound
