import Mathlib.Algebra.Order.BigOperators.Group.List
import Mathlib.Data.List.Nodup
import Mathlib.Tactic.Ring

/-!
# Finite maps that add up

A finite map kept as a list of pairs whose keys differ, so that it can be evaluated and its values
be **added up**: `weight w m` is the sum of `w b` over the values of `m`. The rules say how lookups
and weights change when a value is set or erased; nothing else is needed to keep a running total in
step with a map.

The facts about `List.lookup` in the first section hold without distinct keys.
-/

/-! ### Lookups in lists of pairs -/

section Lookup

variable {α β : Type*} [DecidableEq α]

/-- What is taken out of a list of pairs by the keys leaves the others. -/
theorem lookup_filter_fst (p : α → Bool) (l : List (α × β)) (k : α) :
    (l.filter fun x ↦ p x.1).lookup k = if p k then l.lookup k else none := by
  induction l with
  | nil => simp
  | cons x l ih =>
    by_cases hx : p x.1 = true
    · rw [List.filter_cons_of_pos (by exact hx), List.lookup_cons, List.lookup_cons, ih]
      by_cases hk : k = x.1
      · rw [hk, beq_self_eq_true, if_pos hx, if_pos hx]
      · rw [beq_false_of_ne hk]
    · rw [List.filter_cons_of_neg (by exact hx), ih, List.lookup_cons]
      by_cases hk : k = x.1
      · rw [hk, if_neg hx, if_neg hx]
      · rw [beq_false_of_ne hk]

/-- Taking a key out of a list of pairs leaves the others. -/
theorem lookup_filter_fst_ne (l : List (α × β)) (n k : α) :
    (l.filter (·.1 ≠ n)).lookup k = if k = n then none else l.lookup k := by
  rw [lookup_filter_fst (fun a ↦ decide (a ≠ n))]
  by_cases hk : k = n <;> simp [hk]

variable {l : List (α × β)}

theorem mem_of_lookup {k : α} {b : β} (h : l.lookup k = some b) : (k, b) ∈ l := by
  obtain ⟨l₁, l₂, rfl, -⟩ := List.lookup_eq_some_iff.1 h
  simp

theorem lookup_of_mem (hnodup : (l.map (·.1)).Nodup) {x : α × β} (h : x ∈ l) :
    l.lookup x.1 = some x.2 := by
  induction l with
  | nil => exact absurd h List.not_mem_nil
  | cons y l ih =>
    obtain ⟨hy, hnodup⟩ := List.nodup_cons.1 hnodup
    rw [List.lookup_cons]
    obtain rfl | h := List.mem_cons.1 h
    · rw [beq_self_eq_true]
    · have hne : x.1 ≠ y.1 := fun heq ↦ hy (List.mem_map.2 ⟨x, h, heq⟩)
      rw [beq_false_of_ne hne]
      exact ih hnodup h

theorem filter_fst_ne_of_notMem {k : α} (h : k ∉ l.map (·.1)) : l.filter (·.1 ≠ k) = l :=
  List.filter_eq_self.2 fun _ hx ↦ decide_eq_true fun hxk ↦ h (hxk ▸ List.mem_map_of_mem hx)

/-- A sum over pairs with distinct keys, without one of them. -/
theorem sum_filter_fst_ne (w : β → ℕ) (hnodup : (l.map (·.1)).Nodup) {k : α} {b : β}
    (h : l.lookup k = some b) :
    ((l.filter (·.1 ≠ k)).map fun x ↦ w x.2).sum + w b = (l.map fun x ↦ w x.2).sum := by
  induction l with
  | nil => cases h
  | cons x l ih =>
    obtain ⟨hx, hnodup⟩ := List.nodup_cons.1 hnodup
    rw [List.lookup_cons] at h
    by_cases hk : k = x.1
    · rw [hk, beq_self_eq_true] at h
      cases h
      rw [List.filter_cons_of_neg (by simp [hk]), filter_fst_ne_of_notMem (hk ▸ hx), List.map_cons,
        List.sum_cons, Nat.add_comm]
    · rw [beq_false_of_ne hk] at h
      rw [List.filter_cons_of_pos (by simpa using Ne.symm hk), List.map_cons, List.map_cons,
        List.sum_cons, List.sum_cons, ← ih hnodup h, Nat.add_assoc]

end Lookup

/-- A finite map. -/
structure AssocMap (α β : Type*) where
  pairs : List (α × β)
  nodup : (pairs.map (·.1)).Nodup

namespace AssocMap

variable {α β : Type*} [DecidableEq α] (m : AssocMap α β) (w : β → ℕ)

def empty : AssocMap α β := ⟨[], List.nodup_nil⟩

def get? (k : α) : Option β := m.pairs.lookup k

def erase (k : α) : AssocMap α β :=
  ⟨m.pairs.filter (·.1 ≠ k), m.nodup.sublist (List.filter_sublist.map _)⟩

def set (k : α) (b : β) : AssocMap α β :=
  ⟨(k, b) :: (m.erase k).pairs, List.nodup_cons.2 ⟨by simp [erase], (m.erase k).nodup⟩⟩

def weight : ℕ := (m.pairs.map fun x ↦ w x.2).sum

@[simp] theorem get?_empty (k : α) : (empty : AssocMap α β).get? k = none := rfl

theorem get?_erase (k j : α) : (m.erase k).get? j = if j = k then none else m.get? j :=
  lookup_filter_fst_ne m.pairs k j

theorem get?_set (k : α) (b : β) (j : α) :
    (m.set k b).get? j = if j = k then some b else m.get? j := by
  rw [get?, set, List.lookup_cons]
  by_cases hj : j = k
  · rw [if_pos hj, hj, beq_self_eq_true]
  · rw [if_neg hj, beq_false_of_ne hj]
    exact (m.get?_erase k j).trans (if_neg hj)

@[simp] theorem get?_erase_self (k : α) : (m.erase k).get? k = none :=
  (m.get?_erase k k).trans (if_pos rfl)

@[simp] theorem get?_set_self (k : α) (b : β) : (m.set k b).get? k = some b :=
  (m.get?_set k b k).trans (if_pos rfl)

variable {m}

theorem get?_erase_of_ne {k j : α} (h : j ≠ k) : (m.erase k).get? j = m.get? j :=
  (m.get?_erase k j).trans (if_neg h)

theorem get?_set_of_ne {k j : α} (h : j ≠ k) (b : β) : (m.set k b).get? j = m.get? j :=
  (m.get?_set k b j).trans (if_neg h)

/-- **Erasing a key** takes its weight away. -/
theorem weight_erase {k : α} {b : β} (h : m.get? k = some b) :
    (m.erase k).weight w + w b = m.weight w :=
  sum_filter_fst_ne w m.nodup h

theorem weight_erase_of_none {k : α} (h : m.get? k = none) :
    (m.erase k).weight w = m.weight w := by
  have hk : k ∉ m.pairs.map (·.1) := by
    intro hmem
    obtain ⟨x, hx, rfl⟩ := List.mem_map.1 hmem
    exact absurd (List.lookup_eq_none_iff.1 h x hx) (by simp)
  exact congrArg (fun l ↦ (l.map fun x ↦ w x.2).sum) (filter_fst_ne_of_notMem hk)

/-- **Setting a key** that has a value puts the new weight in place of the old one. -/
theorem weight_set {k : α} {b : β} (h : m.get? k = some b) (c : β) :
    (m.set k c).weight w + w b = m.weight w + w c := by
  rw [← weight_erase w h]
  simp only [weight, set, List.map_cons, List.sum_cons]
  omega

theorem weight_set_of_none {k : α} (h : m.get? k = none) (c : β) :
    (m.set k c).weight w = m.weight w + w c := by
  rw [← weight_erase_of_none w h]
  simp only [weight, set, List.map_cons, List.sum_cons]
  omega

theorem le_weight {k : α} {b : β} (h : m.get? k = some b) : w b ≤ m.weight w := by
  rw [← weight_erase w h]
  exact Nat.le_add_left _ _

/-- Weights that agree on the values have the same total. -/
theorem weight_congr {w v : β → ℕ} (h : ∀ k b, m.get? k = some b → w b = v b) :
    m.weight w = m.weight v :=
  congrArg List.sum (List.map_congr_left fun x hx ↦ h x.1 x.2 (lookup_of_mem m.nodup hx))

theorem exists_of_weight_pos {w : β → ℕ} (h : 0 < m.weight w) :
    ∃ k b, m.get? k = some b ∧ 0 < w b := by
  obtain ⟨x, hx, hpos⟩ := List.sum_pos_iff_exists_pos_nat.1 h
  obtain ⟨y, hy, rfl⟩ := List.mem_map.1 hx
  exact ⟨y.1, y.2, lookup_of_mem m.nodup hy, hpos⟩

end AssocMap
