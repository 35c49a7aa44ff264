import Mathlib.Algebra.BigOperators.Group.Finset.Basic
import Mathlib.Algebra.Order.BigOperators.Group.List
import Mathlib.Data.Fintype.Basic
import Mathlib.Tactic.Ring

/-!
# Tallies

The sum of a weight over a family, when one member of the family changes. Both rules say the same,
of a list and of a function on a finite type: what the member weighed goes, what it weighs now
comes. Written with the old weight on the left, so that `omega` can use them as they are. The third
rule is about what the members of a list have, instead of what they weigh.
-/

namespace Tally

variable {α ι : Type*} (w : α → ℕ)

/-- **A tally of a list** when an entry is replaced. -/
theorem sum_map_set {l : List α} {i : ℕ} {a : α} (h : l[i]? = some a) (b : α) :
    ((l.set i b).map w).sum + w a = (l.map w).sum + w b := by
  induction l generalizing i with
  | nil => cases h
  | cons c l ih =>
    cases i with
    | zero =>
      obtain rfl : c = a := by simpa using h
      simp only [List.set_cons_zero, List.map_cons, List.sum_cons]
      ring
    | succ i =>
      have htail := ih (i := i) (by simpa using h)
      simp only [List.set_cons_succ, List.map_cons, List.sum_cons]
      omega

/-- **What the entries of a list have**, when one of them is replaced. -/
theorem filterMap_set {β : Type*} (f : α → Option β) {l : List α} {i : ℕ} {a : α}
    (h : l[i]? = some a) (b : α) :
    ((f a).toList ++ (l.set i b).filterMap f).Perm ((f b).toList ++ l.filterMap f) := by
  have hcons : ∀ (c : α) (l : List α), (c :: l).filterMap f = (f c).toList ++ l.filterMap f := by
    intro c l
    rw [List.filterMap_cons]
    cases f c <;> rfl
  induction l generalizing i with
  | nil => cases h
  | cons c l ih =>
    cases i with
    | zero =>
      obtain rfl : c = a := by simpa using h
      rw [List.set_cons_zero, hcons, hcons]
      exact List.perm_append_comm_assoc _ _ _
    | succ i =>
      have htail := ih (i := i) (by simpa using h)
      rw [List.set_cons_succ, hcons, hcons]
      exact (List.perm_append_comm_assoc _ _ _).trans
        ((htail.append_left _).trans (List.perm_append_comm_assoc _ _ _))

variable [Fintype ι] [DecidableEq ι]

/-- **A tally of a function** when it is updated. -/
theorem sum_update (f : ι → α) (i : ι) (b : α) :
    (∑ j, w (Function.update f i b j)) + w (f i) = (∑ j, w (f j)) + w b := by
  rw [← Finset.add_sum_erase _ _ (Finset.mem_univ i),
    ← Finset.add_sum_erase Finset.univ (fun j ↦ w (f j)) (Finset.mem_univ i),
    Function.update_self]
  have hrest : ∑ j ∈ Finset.univ.erase i, w (Function.update f i b j) =
      ∑ j ∈ Finset.univ.erase i, w (f j) :=
    Finset.sum_congr rfl fun j hj ↦ by rw [Function.update_of_ne (Finset.ne_of_mem_erase hj)]
  rw [hrest]
  ring

end Tally
