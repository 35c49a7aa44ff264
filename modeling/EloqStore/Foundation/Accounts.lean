import Mathlib.Data.List.Nodup
import Mathlib.Data.List.Perm.Basic

/-!
# Accounting for the ids of a pool

A pool hands out the ids `0, 1, …` up to a bound and takes them back. Users hold ids through a
partial assignment `f`, and the ids no user holds lie in lists. `Accounts f ids bound` says that
**every id below the bound is in exactly one place**: assigned to one user, or once in the list.

How the list is divided (ids waiting to be taken back, ids free to be handed out) is not part of
the notion; a caller that moves ids between its lists only permutes them. The rules are those of a
pool: a new id enters the list when the bound grows, an id leaves the list when it is assigned, and
whatever the user held before goes back into the list.
-/

/-- Every id below the bound is assigned to one user or occurs once in the list. -/
structure Accounts {ι : Type*} (f : ι → Option ℕ) (ids : List ℕ) (bound : ℕ) : Prop where
  inj : ∀ {p q : ι} {n : ℕ}, f p = some n → f q = some n → p = q
  nodup : ids.Nodup
  notMem : ∀ {p : ι} {n : ℕ}, f p = some n → n ∉ ids
  /-- Exactly the ids below the bound are assigned or listed. -/
  lt_iff : ∀ n, n < bound ↔ (∃ p, f p = some n) ∨ n ∈ ids

namespace Accounts

variable {ι : Type*} {f g : ι → Option ℕ} {ids ids' : List ℕ} {bound : ℕ}

theorem zero : Accounts (fun _ : ι ↦ none) [] 0 where
  inj h := absurd h (by simp)
  nodup := List.nodup_nil
  notMem h := absurd h (by simp)
  lt_iff n := by simp

section

variable (h : Accounts f ids bound)

include h

theorem perm (hp : ids.Perm ids') : Accounts f ids' bound where
  inj := h.inj
  nodup := hp.nodup_iff.1 h.nodup
  notMem hfp hmem := h.notMem hfp (hp.mem_iff.2 hmem)
  lt_iff n := by rw [h.lt_iff, hp.mem_iff]

theorem congr (hg : ∀ p, g p = f p) : Accounts g ids bound := by
  obtain rfl : g = f := funext hg
  exact h

theorem lt_of_assigned {p : ι} {n : ℕ} (hp : f p = some n) :
    n < bound :=
  (h.lt_iff n).2 (.inl ⟨p, hp⟩)

theorem lt_of_mem {n : ℕ} (hn : n ∈ ids) : n < bound :=
  (h.lt_iff n).2 (.inr hn)

/-- **A new id** enters the list. -/
theorem grow : Accounts f (bound :: ids) (bound + 1) where
  inj := h.inj
  nodup := List.nodup_cons.2 ⟨fun hmem ↦ Nat.lt_irrefl _ (h.lt_of_mem hmem), h.nodup⟩
  notMem {p n} hp hmem := by
    have hlt : n < bound := h.lt_of_assigned hp
    rcases List.mem_cons.1 hmem with rfl | hmem
    · exact Nat.lt_irrefl _ hlt
    · exact h.notMem hp hmem
  lt_iff n := by
    rw [Nat.lt_succ_iff_lt_or_eq, h.lt_iff, List.mem_cons, or_assoc, or_comm (a := n = bound)]

end

variable [DecidableEq ι] {p : ι}

/-- **Taking back** what a user holds. -/
theorem unassign (h : Accounts f ids bound) (hg : ∀ q, g q = if q = p then none else f q) :
    Accounts g ((f p).toList ++ ids) bound := by
  have hsub : ∀ {q n}, g q = some n → q ≠ p ∧ f q = some n := by
    intro q n hq
    rw [hg] at hq
    obtain ⟨hne, hq⟩ := Option.ite_none_left_eq_some.1 hq
    exact ⟨hne, hq⟩
  refine ⟨fun hq hr ↦ h.inj (hsub hq).2 (hsub hr).2, ?_, fun {q n} hq hmem ↦ ?_, fun n ↦ ?_⟩
  · refine List.nodup_append.2 ⟨by cases f p <;> simp, h.nodup, fun a ha b hb hab ↦ ?_⟩
    rw [Option.mem_toList] at ha
    exact h.notMem ha (hab ▸ hb)
  · obtain ⟨hne, hq⟩ := hsub hq
    rcases List.mem_append.1 hmem with hmem | hmem
    · exact hne (h.inj hq (Option.mem_toList.1 hmem))
    · exact h.notMem hq hmem
  · rw [h.lt_iff, List.mem_append, Option.mem_toList, ← or_assoc]
    refine or_congr_left ⟨?_, ?_⟩
    · rintro ⟨q, hq⟩
      by_cases hqp : q = p
      · exact .inr (hqp ▸ hq)
      · exact .inl ⟨q, (hg q).trans ((if_neg hqp).trans hq)⟩
    · rintro (⟨q, hq⟩ | hp)
      · exact ⟨q, (hsub hq).2⟩
      · exact ⟨p, hp⟩

/-- **Handing out** a listed id to a user who holds none. -/
theorem assign_of_none {n : ℕ} (h : Accounts f (n :: ids) bound) (hp : f p = none)
    (hg : ∀ q, g q = if q = p then some n else f q) : Accounts g ids bound := by
  obtain ⟨hn, hnodup⟩ := List.nodup_cons.1 h.nodup
  have hold : ∀ {q k}, g q = some k → (q = p ∧ k = n) ∨ (q ≠ p ∧ f q = some k) := by
    intro q k hq
    rw [hg] at hq
    split at hq
    · next hqp => exact .inl ⟨hqp, (Option.some.inj hq).symm⟩
    · next hne => exact .inr ⟨hne, hq⟩
  have hfresh : ∀ q, f q ≠ some n := fun q hq ↦ h.notMem hq List.mem_cons_self
  refine ⟨fun {q r k} hq hr ↦ ?_, hnodup, fun {q k} hq hmem ↦ ?_, fun k ↦ ?_⟩
  · rcases hold hq with ⟨rfl, rfl⟩ | ⟨-, hq⟩ <;> rcases hold hr with ⟨rfl, hk⟩ | ⟨-, hr⟩
    · rfl
    · exact absurd hr (hfresh r)
    · exact absurd (hk ▸ hq) (hfresh q)
    · exact h.inj hq hr
  · rcases hold hq with ⟨-, rfl⟩ | ⟨-, hq⟩
    · exact hn hmem
    · exact h.notMem hq (List.mem_cons_of_mem _ hmem)
  · rw [h.lt_iff, List.mem_cons, ← or_assoc]
    refine or_congr_left ⟨?_, ?_⟩
    · rintro (⟨q, hq⟩ | rfl)
      · have hqp : q ≠ p := fun hqp ↦ by simp [hqp, hp] at hq
        exact ⟨q, (hg q).trans ((if_neg hqp).trans hq)⟩
      · exact ⟨p, (hg p).trans (if_pos rfl)⟩
    · rintro ⟨q, hq⟩
      rcases hold hq with ⟨-, rfl⟩ | ⟨-, hq⟩
      · exact .inr rfl
      · exact .inl ⟨q, hq⟩

/-- **Handing out** a listed id, taking back what the user held. -/
theorem assign {n : ℕ} (h : Accounts f (n :: ids) bound)
    (hg : ∀ q, g q = if q = p then some n else f q) :
    Accounts g ((f p).toList ++ ids) bound := by
  have hback : Accounts (fun q ↦ if q = p then none else f q) (n :: ((f p).toList ++ ids)) bound :=
    (h.unassign fun _ ↦ rfl).perm List.perm_middle
  refine hback.assign_of_none (p := p) (if_pos rfl) fun q ↦ ?_
  rw [hg]
  split <;> rfl

end Accounts
