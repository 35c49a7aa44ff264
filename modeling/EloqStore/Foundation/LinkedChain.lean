import Mathlib.Data.List.Nodup

/-!
# Chains through a successor function

A linked list whose links are kept apart from its elements: `next a` is what follows `a`, and `nil`
stands for the end. `Linked next nil top l` says that following the links from `top` gives `l`.

The links of elements that are not on the chain are of no account, which is what a free list needs:
they may be set while the element is being put back (`Linked.update`), and the chain with the
element in front is then one store away (`Linked.push`). `walk` computes a chain of bounded length,
so that the list is data and not only a relation.
-/

namespace LinkedChain

/-- Following the links from `top` gives the list. -/
def Linked {α : Type*} (next : α → α) (nil : α) : α → List α → Prop
  | top, [] => top = nil
  | top, a :: l => top = a ∧ a ≠ nil ∧ Linked next nil (next a) l

namespace Linked

variable {α : Type*} {next : α → α} {nil top a : α} {l l' : List α}

theorem eq_nil (h : Linked next nil nil l) : l = [] := by
  cases l with
  | nil => rfl
  | cons a l => exact absurd h.1.symm h.2.1

theorem exists_cons (h : Linked next nil top l) (hne : top ≠ nil) :
    ∃ l', l = top :: l' ∧ Linked next nil (next top) l' := by
  cases l with
  | nil => exact absurd h hne
  | cons a l =>
    obtain ⟨rfl, -, hl⟩ := h
    exact ⟨l, rfl, hl⟩

/-- **Putting an element in front** whose link has been set. -/
theorem push (h : Linked next nil top l) (ha : a ≠ nil) (hlink : next a = top) :
    Linked next nil a (a :: l) :=
  ⟨rfl, ha, hlink.symm ▸ h⟩

variable [DecidableEq α]

/-- **The link of an element that is not on the chain** can be set. -/
theorem update (h : Linked next nil top l) (ha : a ∉ l) (b : α) :
    Linked (Function.update next a b) nil top l := by
  induction l generalizing top with
  | nil => exact h
  | cons c l ih =>
    obtain ⟨htop, hc, hl⟩ := h
    refine ⟨htop, hc, ?_⟩
    rw [Function.update_of_ne (List.ne_of_not_mem_cons ha).symm]
    exact ih hl (List.not_mem_of_not_mem_cons ha)

end Linked

section Walk

variable {α : Type*} [DecidableEq α] (next : α → α) (nil : α)

def walk : ℕ → α → List α
  | 0, _ => []
  | n + 1, top => if top = nil then [] else top :: walk n (next top)

variable {next nil}

/-- A chain that is not too long is found by walking it. -/
theorem Linked.walk_eq {n : ℕ} {top : α} {l : List α} (h : Linked next nil top l)
    (hlen : l.length ≤ n) : walk next nil n top = l := by
  induction n generalizing top l with
  | zero =>
    obtain rfl := List.length_eq_zero_iff.1 (Nat.le_zero.1 hlen)
    rfl
  | succ n ih =>
    cases l with
    | nil => exact if_pos h
    | cons a l =>
      obtain ⟨rfl, ha, hl⟩ := h
      rw [walk, if_neg ha, ih hl (Nat.le_of_succ_le_succ hlen)]

end Walk

section PushAll

variable {α : Type*} [DecidableEq α] {nil : α}

/-- Put elements in front, one after the other. -/
def pushAll (next : α → α) (top : α) : List α → (α → α) × α
  | [] => (next, top)
  | a :: l => pushAll (Function.update next a top) a l

/-- **A chain built by putting elements in front.** -/
theorem Linked.pushAll {next : α → α} {top : α} {l : List α} (h : Linked next nil top l)
    (ks : List α) (hnodup : (ks ++ l).Nodup) (hnil : nil ∉ ks) :
    Linked (pushAll next top ks).1 nil (pushAll next top ks).2 (ks.reverse ++ l) := by
  induction ks generalizing next top l with
  | nil => exact h
  | cons a ks ih =>
    obtain ⟨ha, hnodup⟩ := List.nodup_cons.1 hnodup
    have hane : nil ≠ a := List.ne_of_not_mem_cons hnil
    have hal : a ∉ l := fun hmem ↦ ha (List.mem_append_right _ hmem)
    have hfront : Linked (Function.update next a top) nil a (a :: l) :=
      (h.update hal top).push (Ne.symm hane) (Function.update_self _ _ _)
    have hperm : (ks ++ a :: l).Nodup :=
      (List.perm_middle.nodup_iff).2 (List.nodup_cons.2 ⟨ha, hnodup⟩)
    rw [List.reverse_cons, List.append_assoc]
    exact ih hfront hperm (List.not_mem_of_not_mem_cons hnil)

end PushAll

end LinkedChain
