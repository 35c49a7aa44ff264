import Mathlib.Logic.Relation
import Mathlib.Data.Option.Basic

/-!
# Guarded runs of a labelled transition system

The induction every run-level result of this development rests on, stated once. A system is a
relation `R s a t` ("the action `a` takes `s` to `t`"); a **guard** `G s a` is a condition on the
state an action is taken in, and `Reach R G s₀` is the set of states reached from `s₀` by actions
that all meet it. Nothing here knows what the states or the actions are.

* `Reach.invariant` is the induction: what the start has and every guarded step keeps holds in
  every state reached.
* `exec` runs a list of actions of a *functional* system, so that a concrete run is found by
  evaluation; `reach_of_exec` and `exists_reach_of_exec` turn such an evaluation into a `Reach`.
-/

namespace Transition

variable {σ α : Type*}

/-- The states reached from `s₀` by actions of `R` that meet the guard `G` in the state they are
taken in. -/
inductive Reach (R : σ → α → σ → Prop) (G : σ → α → Prop) (s₀ : σ) : σ → Prop
  | start : Reach R G s₀ s₀
  | step {s t : σ} {a : α} : Reach R G s₀ s → G s a → R s a t → Reach R G s₀ t

namespace Reach

variable {R : σ → α → σ → Prop} {G G' : σ → α → Prop} {s₀ s t : σ}

theorem invariant (Inv : σ → Prop) (hinit : Inv s₀)
    (hstep : ∀ {s a t}, Inv s → G s a → R s a t → Inv t) (h : Reach R G s₀ s) : Inv s := by
  induction h with
  | start => exact hinit
  | step _ hg hr ih => exact hstep ih hg hr

theorem trans (hst : Reach R G s t) (hs : Reach R G s₀ s) : Reach R G s₀ t := by
  induction hst with
  | start => exact hs
  | step _ hg hr ih => exact ih.step hg hr

/-- A weaker guard allows every run a stronger one allows. -/
theorem mono (hG : ∀ s a, G s a → G' s a) (h : Reach R G s₀ s) : Reach R G' s₀ s := by
  induction h with
  | start => exact .start
  | step _ hg hr ih => exact ih.step (hG _ _ hg) hr

end Reach

theorem ok_of_toOption {ε : Type*} {r : Except ε α} {a : α} (h : r.toOption = some a) :
    r = .ok a := by
  cases r with
  | error e => simp [Except.toOption] at h
  | ok b => exact congrArg _ (Option.some.inj h)

/-! ### Runs found by evaluation -/

/-- Run the actions in order, refusing the first one that is disabled or fails its guard. -/
def exec (step : σ → α → Option σ) (G : σ → α → Prop) [∀ s a, Decidable (G s a)] :
    σ → List α → Option σ
  | s, [] => some s
  | s, a :: as =>
    if G s a then (step s a).bind fun t ↦ exec step G t as else none

variable {G : σ → α → Prop} {step : σ → α → Option σ}

theorem reach_of_exec [∀ s a, Decidable (G s a)] {as : List α} {s t : σ}
    (h : exec step G s as = some t) : Reach (fun s a t ↦ step s a = some t) G s t := by
  induction as generalizing s with
  | nil =>
    cases h
    exact .start
  | cons a as ih =>
    obtain ⟨hg, h⟩ := Option.ite_none_right_eq_some.1 h
    obtain ⟨u, hu, ht⟩ := Option.bind_eq_some_iff.1 h
    exact (ih ht).trans (Reach.start.step hg hu)

variable [∀ s a, Decidable (G s a)] {s : σ}

/-- A run that evaluates to a state with a property reaches one. -/
theorem exists_reach_of_exec {p : σ → Prop} [DecidablePred p] (as : List α)
    (h : (exec step G s as).any (p ·) = true) :
    ∃ t, Reach (fun s a t ↦ step s a = some t) G s t ∧ p t := by
  obtain ⟨t, ht, hp⟩ := (Option.any_eq_true _ _).1 h
  exact ⟨t, reach_of_exec ht, of_decide_eq_true hp⟩

/-- A run that evaluates to a state with a property, and what every run leads to. -/
theorem exists_reach_and_of_exec {p q : σ → Prop} [DecidablePred p]
    (hq : ∀ {t}, Reach (fun s a t ↦ step s a = some t) G s t → q t) (as : List α)
    (h : (exec step G s as).any (p ·) = true) :
    ∃ t, Reach (fun s a t ↦ step s a = some t) G s t ∧ p t ∧ q t := by
  obtain ⟨t, ht, hp⟩ := exists_reach_of_exec as h
  exact ⟨t, ht, hp, hq ht⟩

/-- Two runs in a row, under different guards, that evaluate to states with a property. -/
theorem exists_reach_reach_of_exec {G' : σ → α → Prop} [∀ s a, Decidable (G' s a)]
    {p : σ → σ → Prop} [DecidableRel p] (as bs : List α)
    (h : (exec step G s as).any (fun t ↦ (exec step G' t bs).any (p t ·)) = true) :
    ∃ t u, Reach (fun s a t ↦ step s a = some t) G s t ∧
      Reach (fun s a t ↦ step s a = some t) G' t u ∧ p t u := by
  obtain ⟨t, ht, h⟩ := (Option.any_eq_true _ _).1 h
  obtain ⟨u, hu, hp⟩ := (Option.any_eq_true _ _).1 h
  exact ⟨t, u, reach_of_exec ht, reach_of_exec hu, of_decide_eq_true hp⟩

/-- A run of one system, and a run of another one that starts from where the first one has got. -/
theorem exists_reach_start_of_exec {τ β : Type*} {step' : σ → τ → β → Option τ} {G' : τ → β → Prop}
    [∀ u b, Decidable (G' u b)] {start : σ → Option τ} {p : σ → τ → τ → Prop}
    [∀ t u v, Decidable (p t u v)] (as : List α) (bs : List β)
    (h : (exec step G s as).any (fun t ↦ (start t).any fun u₀ ↦
      (exec (step' t) G' u₀ bs).any (p t u₀ ·)) = true) :
    ∃ t u₀ u, Reach (fun s a t ↦ step s a = some t) G s t ∧ start t = some u₀ ∧
      Reach (fun u b v ↦ step' t u b = some v) G' u₀ u ∧ p t u₀ u := by
  obtain ⟨t, ht, h⟩ := (Option.any_eq_true _ _).1 h
  obtain ⟨u₀, hu₀, h⟩ := (Option.any_eq_true _ _).1 h
  obtain ⟨u, hu, hp⟩ := (Option.any_eq_true _ _).1 h
  exact ⟨t, u₀, u, reach_of_exec ht, hu₀, reach_of_exec hu, of_decide_eq_true hp⟩

end Transition
