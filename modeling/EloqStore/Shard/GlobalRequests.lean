import EloqStore.Foundation.Tally
import EloqStore.Foundation.Transition
import EloqStore.Types

/-!
# Global requests

Dropping a table, archiving, reopening and branching a store are one request to each partition. The
four handlers are alike: the sub-requests are made, the counter `pending_` is set to their number,
and `ScheduleNext` is called as often as sub-requests may be outstanding. A call of it takes the
next index, submits that sub-request and returns; if the submission fails the result is recorded on
the spot and the call goes on to the next index. When a sub-request is done its callback records the
result, and unless it was the last one calls `ScheduleNext` in its turn.

So there is a fixed number of activities, each of which is at most at one sub-request; they run on
the threads of the shards, and every access to `next_index`, `first_error_` or `pending_` is a step
of its own here. The parent is completed by the activity that takes `pending_` from 1 to 0. The
counter has 32 bits: with more than `2 ^ 32` partitions it starts at less than their number, and the
parent is completed before all results are recorded. Otherwise everything is as it should be
(`orderly_iff`).
-/

namespace EloqStore

open List Option

/-- An activity: where the calls of `ScheduleNext` and of the callbacks have got to. -/
inductive SubCall
  /-- The loop of the handler has not called it yet. -/
  | idle
  | fetch
  | submit (idx : ℕ)
  /-- The sub-request has been submitted and is not done. -/
  | flying (idx : ℕ)
  | record (idx : ℕ) (err : KvError)
  | subtract
  /-- It was the last one: about to complete the parent. -/
  | last
  | ended
deriving DecidableEq, Repr

/-- **A global request** under way. -/
structure GlobalRequest where
  total : ℕ
  nextIndex : ℕ := 0
  pending : UInt32 := 0
  firstError : KvError := .noError
  calls : List SubCall := []
  /-- The sub-requests that were given to `ExecAsyn`. -/
  submitted : List ℕ := []
  results : List (ℕ × KvError) := []
  /-- The errors the parent was completed with. -/
  done : List KvError := []
deriving DecidableEq, Repr

/-- What can happen in an activity. -/
inductive SubEvent
  /-- The next access of the activity. -/
  | proceed
  /-- `ExecAsyn` takes the sub-request. -/
  | accept
  /-- `ExecAsyn` fails. -/
  | refuse
  | complete (err : KvError)
deriving DecidableEq, Repr

namespace GlobalRequest

/-! ### The handlers -/

/-- What the handlers have in common, once the partitions have been collected. -/
def handle (maxInflight : ℕ) : Except KvError ℕ → GlobalRequest
  | .error err => { total := 0, done := [err] }
  | .ok total =>
    if total = 0 then { total := 0, done := [.noError] }
    else { total := total
           pending := UInt32.ofNat total
           calls := List.replicate (min maxInflight total) .idle }

/-- The options that limit the number of outstanding sub-requests. -/
structure Options where
  maxGlobalRequestBatch : ℕ
  maxArchiveTasks : ℕ

def handleDropTableRequest (opts : Options) : Except KvError ℕ → GlobalRequest :=
  handle (max opts.maxGlobalRequestBatch 1)

def handleGlobalArchiveRequest (opts : Options) : Except KvError ℕ → GlobalRequest :=
  handle (min (if opts.maxArchiveTasks = 0 then 1 else opts.maxArchiveTasks)
    (max opts.maxGlobalRequestBatch 1))

def handleGlobalReopenRequest (opts : Options) : Except KvError ℕ → GlobalRequest :=
  handle (max opts.maxGlobalRequestBatch 1)

/-- `HandleGlobalCreateBranchRequest`. -/
def handleGlobalCreateBranchRequest (opts : Options) : Except KvError ℕ → GlobalRequest :=
  handle (max opts.maxGlobalRequestBatch 1)

/-! ### The steps -/

/-- An activity goes on to the next place. -/
def goto (s : GlobalRequest) (i : ℕ) (c : SubCall) : GlobalRequest :=
  { s with calls := s.calls.set i c }

/-- A step of the activity `i`, which is at `c`. -/
def stepAt (s : GlobalRequest) (i : ℕ) : SubCall → SubEvent → Option GlobalRequest
  | .idle, .proceed => some (s.goto i .fetch)
  | .fetch, .proceed =>
    some { s.goto i (if s.nextIndex < s.total then .submit s.nextIndex else .ended) with
      nextIndex := s.nextIndex + 1 }
  | .submit idx, .accept => some { s.goto i (.flying idx) with submitted := idx :: s.submitted }
  -- the callback is taken back, and the result recorded by the same call
  | .submit idx, .refuse =>
    some { s.goto i (.record idx .notRunning) with submitted := idx :: s.submitted }
  | .flying idx, .complete err => some (s.goto i (.record idx err))
  | .record idx err, .proceed =>
    some { s.goto i .subtract with
      firstError := if err ≠ .noError ∧ s.firstError = .noError then err else s.firstError
      results := (idx, err) :: s.results }
  | .subtract, .proceed =>
    some { s.goto i (if s.pending = 1 then .last else .fetch) with pending := s.pending - 1 }
  | .last, .proceed => some { s.goto i .ended with done := s.done ++ [s.firstError] }
  | _, _ => none

/-- The steps: an event of one of the activities. -/
def step (s : GlobalRequest) (e : ℕ × SubEvent) : Option GlobalRequest :=
  (s.calls[e.1]?).bind fun c ↦ s.stepAt e.1 c e.2

/-- The states a global request goes through. -/
def Runs (init : GlobalRequest) : GlobalRequest → Prop :=
  Transition.Reach (fun s e t ↦ step s e = some t) (fun _ _ ↦ True) init

/-- **What each step does.** -/
inductive Effect (s : GlobalRequest) (i : ℕ) : GlobalRequest → Prop
  | start (hc : s.calls[i]? = some .idle) : Effect s i (s.goto i .fetch)
  | take (hc : s.calls[i]? = some .fetch) (hlt : s.nextIndex < s.total) :
    Effect s i { s.goto i (.submit s.nextIndex) with nextIndex := s.nextIndex + 1 }
  | leave (hc : s.calls[i]? = some .fetch) (hge : s.total ≤ s.nextIndex) :
    Effect s i { s.goto i .ended with nextIndex := s.nextIndex + 1 }
  | accept {idx : ℕ} (hc : s.calls[i]? = some (.submit idx)) :
    Effect s i { s.goto i (.flying idx) with submitted := idx :: s.submitted }
  | refuse {idx : ℕ} (hc : s.calls[i]? = some (.submit idx)) :
    Effect s i { s.goto i (.record idx .notRunning) with submitted := idx :: s.submitted }
  | complete {idx : ℕ} {err : KvError} (hc : s.calls[i]? = some (.flying idx)) :
    Effect s i (s.goto i (.record idx err))
  | record {idx : ℕ} {err : KvError} (hc : s.calls[i]? = some (.record idx err)) :
    Effect s i { s.goto i .subtract with
      firstError := if err ≠ .noError ∧ s.firstError = .noError then err else s.firstError
      results := (idx, err) :: s.results }
  | count (hc : s.calls[i]? = some .subtract) (hp : s.pending ≠ 1) :
    Effect s i { s.goto i .fetch with pending := s.pending - 1 }
  | countLast (hc : s.calls[i]? = some .subtract) (hp : s.pending = 1) :
    Effect s i { s.goto i .last with pending := s.pending - 1 }
  | finish (hc : s.calls[i]? = some .last) :
    Effect s i { s.goto i .ended with done := s.done ++ [s.firstError] }

theorem effect {s t : GlobalRequest} {e : ℕ × SubEvent} (h : step s e = some t) :
    Effect s e.1 t := by
  obtain ⟨i, e⟩ := e
  obtain ⟨c, hc, h⟩ := bind_eq_some_iff.1 h
  cases c with
  | ended => exact absurd h (by cases e <;> simp [stepAt])
  | flying idx =>
    cases e with
    | complete err => exact some.inj h ▸ .complete hc
    | proceed | accept | refuse => simp [stepAt] at h
  | submit idx =>
    cases e with
    | accept => exact some.inj h ▸ .accept hc
    | refuse => exact some.inj h ▸ .refuse hc
    | proceed | complete => simp [stepAt] at h
  | idle =>
    cases e with
    | proceed => exact some.inj h ▸ .start hc
    | accept | refuse | complete => simp [stepAt] at h
  | fetch =>
    cases e with
    | proceed =>
      cases h
      split
      · next hlt => exact .take hc hlt
      · next hge => exact .leave hc (not_lt.1 hge)
    | accept | refuse | complete => simp [stepAt] at h
  | record idx err =>
    cases e with
    | proceed => exact some.inj h ▸ .record hc
    | accept | refuse | complete => simp [stepAt] at h
  | subtract =>
    cases e with
    | proceed =>
      cases h
      split
      · next hp => exact .countLast hc hp
      · next hp => exact .count hc hp
    | accept | refuse | complete => simp [stepAt] at h
  | last =>
    cases e with
    | proceed => exact some.inj h ▸ .finish hc
    | accept | refuse | complete => simp [stepAt] at h

end GlobalRequest

/-! ### Where the activities are -/

namespace SubCall

/-- The sub-request the activity is at: it has taken its index and not recorded its result. -/
def index? : SubCall → Option ℕ
  | .submit idx | .flying idx | .record idx _ => some idx
  | .idle | .fetch | .subtract | .last | .ended => none

/-- The sub-request the activity is about to submit. -/
def toSubmit? : SubCall → Option ℕ
  | .submit idx => some idx
  | .idle | .fetch | .flying _ | .record _ _ | .subtract | .last | .ended => none

/-- The activity has recorded a result that it has not counted. -/
def uncounted : SubCall → ℕ
  | .subtract => 1
  | .idle | .fetch | .submit _ | .flying _ | .record _ _ | .last | .ended => 0

/-- The activity is about to complete the parent. -/
def completes : SubCall → ℕ
  | .last => 1
  | .idle | .fetch | .submit _ | .flying _ | .record _ _ | .subtract | .ended => 0

end SubCall

namespace GlobalRequest

/-- The sub-requests the activities are at. -/
def held (s : GlobalRequest) : List ℕ := s.calls.filterMap SubCall.index?

/-- The sub-requests that are about to be submitted. -/
def toSubmit (s : GlobalRequest) : List ℕ := s.calls.filterMap SubCall.toSubmit?

/-- The number of activities, each with a weight. -/
def tally (s : GlobalRequest) (w : SubCall → ℕ) : ℕ := (s.calls.map w).sum

variable {s t : GlobalRequest} {i : ℕ} {c : SubCall}

theorem held_goto (hc : s.calls[i]? = some c) (c' : SubCall) :
    (c.index?.toList ++ (s.goto i c').held).Perm (c'.index?.toList ++ s.held) :=
  Tally.filterMap_set _ hc c'

theorem toSubmit_goto (hc : s.calls[i]? = some c) (c' : SubCall) :
    (c.toSubmit?.toList ++ (s.goto i c').toSubmit).Perm (c'.toSubmit?.toList ++ s.toSubmit) :=
  Tally.filterMap_set _ hc c'

theorem tally_goto (w : SubCall → ℕ) (hc : s.calls[i]? = some c) (c' : SubCall) :
    (s.goto i c').tally w + w c = s.tally w + w c' :=
  Tally.sum_map_set w hc c'

/-! ### Each sub-request is at one place -/

/-- **Every index that was taken is at one place.** -/
structure Accounted (s : GlobalRequest) : Prop where
  /-- It is with an activity, or its result is recorded. -/
  held : (s.held ++ s.results.map (·.1)).Perm (List.range (min s.nextIndex s.total))
  once : (s.toSubmit ++ s.submitted).Perm (List.range (min s.nextIndex s.total))
  error : s.firstError = .noError ↔ ∀ x ∈ s.results, x.2 = .noError

/-- An index that is taken off one list and put on another. -/
theorem perm_move {a : ℕ} {l l' m m' : List ℕ} (h : (a :: l').Perm l) (hm : (l ++ m).Perm m') :
    (l' ++ a :: m).Perm m' :=
  perm_middle.trans ((h.append_right m).trans hm)

theorem perm_range_succ {n k : ℕ} (hk : k = n + 1) {l l' m : List ℕ} (h : l'.Perm (n :: l))
    (hm : (l ++ m).Perm (List.range n)) : (l' ++ m).Perm (List.range k) := by
  rw [hk, range_succ]
  exact (h.append_right m).trans ((hm.cons n).trans (perm_append_singleton n _).symm)

/-- **Every step keeps every index at one place.** -/
theorem Accounted.step (h : s.Accounted) (he : Effect s i t) : t.Accounted := by
  cases he with
  | start hc =>
    exact ⟨((held_goto hc .fetch).append_right _).trans h.held,
      ((toSubmit_goto hc .fetch).append_right _).trans h.once, h.error⟩
  | take hc hlt =>
    have hmin : min s.nextIndex s.total = s.nextIndex := Nat.min_eq_left hlt.le
    have hmin' : min (s.nextIndex + 1) s.total = s.nextIndex + 1 := Nat.min_eq_left hlt
    have hheld := h.held
    have honce := h.once
    rw [hmin] at hheld honce
    exact ⟨perm_range_succ hmin' (held_goto hc (.submit s.nextIndex)) hheld,
      perm_range_succ hmin' (toSubmit_goto hc (.submit s.nextIndex)) honce, h.error⟩
  | leave hc hge =>
    have hmin : min (s.nextIndex + 1) s.total = min s.nextIndex s.total := by omega
    refine ⟨?_, ?_, h.error⟩
    · exact hmin ▸ ((held_goto hc .ended).append_right _).trans h.held
    · exact hmin ▸ ((toSubmit_goto hc .ended).append_right _).trans h.once
  | @accept idx hc =>
    exact ⟨(((held_goto hc (.flying idx)).cons_inv).append_right _).trans h.held,
      perm_move (toSubmit_goto hc (.flying idx)) h.once, h.error⟩
  | @refuse idx hc =>
    exact ⟨(((held_goto hc (.record idx .notRunning)).cons_inv).append_right _).trans h.held,
      perm_move (toSubmit_goto hc (.record idx .notRunning)) h.once, h.error⟩
  | @complete idx err hc =>
    exact ⟨(((held_goto hc (.record idx err)).cons_inv).append_right _).trans h.held,
      ((toSubmit_goto hc (.record idx err)).append_right _).trans h.once, h.error⟩
  | @record idx err hc =>
    refine ⟨perm_move (held_goto hc .subtract) h.held,
      ((toSubmit_goto hc .subtract).append_right _).trans h.once, ?_⟩
    change (if err ≠ .noError ∧ s.firstError = .noError then err else s.firstError) = .noError ↔
      ∀ x ∈ (idx, err) :: s.results, x.2 = .noError
    rw [forall_mem_cons, ← h.error]
    split
    · next hnew => exact ⟨fun herr ↦ absurd herr hnew.1, fun hall ↦ hall.1⟩
    · next hold =>
      refine ⟨fun hno ↦ ⟨?_, hno⟩, fun hall ↦ hall.2⟩
      by_contra herr
      exact hold ⟨herr, hno⟩
  | count hc hp =>
    exact ⟨((held_goto hc .fetch).append_right _).trans h.held,
      ((toSubmit_goto hc .fetch).append_right _).trans h.once, h.error⟩
  | countLast hc hp =>
    exact ⟨((held_goto hc .last).append_right _).trans h.held,
      ((toSubmit_goto hc .last).append_right _).trans h.once, h.error⟩
  | finish hc =>
    exact ⟨((held_goto hc .ended).append_right _).trans h.held,
      ((toSubmit_goto hc .ended).append_right _).trans h.once, h.error⟩

/-! ### The counter -/

/-- **A countdown in 32 bits.** Of `total` results `n` have been recorded, `u` of them not counted
yet; `l` activities are about to complete the parent, which has been completed `d` times. -/
structure Latch (total u n l d : ℕ) (pending : UInt32) : Prop where
  /-- The counter is what has not been counted. -/
  pending : pending.toNat = (total + u - n) % 2 ^ 32
  /-- A result is recorded before it is counted. -/
  recorded : n ≤ total
  uncounted : u ≤ n
  /-- When all are counted, the parent is completed, or about to be; not before. -/
  completes : l + d = if total + u - n = 0 then 1 else 0

namespace Latch

variable {total u n l d : ℕ} {p : UInt32}

theorem record (h : Latch total u n l d p) (hlt : n < total) :
    Latch total (u + 1) (n + 1) l d p := by
  have hleft : total + (u + 1) - (n + 1) = total + u - n := by omega
  exact ⟨hleft ▸ h.pending, hlt, Nat.succ_le_succ h.uncounted, hleft ▸ h.completes⟩

theorem toNat_sub_one {n : ℕ} (hp : p.toNat = n % 2 ^ 32) (hn : 0 < n) :
    (p - 1).toNat = (n - 1) % 2 ^ 32 := by
  rw [UInt32.toNat_sub, hp]
  change (2 ^ 32 - 1 + n % 2 ^ 32) % 2 ^ 32 = _
  omega

/-- **The counter is 1 only at the last result**, since the bits suffice. -/
theorem eq_one_iff (h : Latch total (u + 1) n l d p) (htotal : total ≤ 2 ^ 32) :
    p = 1 ↔ total + u - n = 0 := by
  have hp := h.pending
  have hn := h.recorded
  have hu := h.uncounted
  rw [← UInt32.toNat_inj, hp]
  change _ = 1 ↔ _
  omega

theorem count (h : Latch total (u + 1) n l d p) (htotal : total ≤ 2 ^ 32) :
    Latch total u n (l + if p = 1 then 1 else 0) d (p - 1) := by
  have hn := h.recorded
  have hu := h.uncounted
  have hc := h.completes
  have hleft : total + (u + 1) - n - 1 = total + u - n := by omega
  refine ⟨?_, hn, by omega, ?_⟩
  · rw [toNat_sub_one h.pending (by omega), hleft]
  · rw [if_neg (by omega)] at hc
    rw [if_congr (h.eq_one_iff htotal) rfl rfl]
    omega

theorem complete (h : Latch total u n (l + 1) d p) : Latch total u n l (d + 1) p :=
  ⟨h.pending, h.recorded, h.uncounted, by have hc := h.completes; omega⟩

end Latch

theorem Accounted.length_eq (h : s.Accounted) :
    s.held.length + s.results.length = min s.nextIndex s.total := by
  have hlen := h.held.length_eq
  rwa [length_append, length_map, length_range] at hlen

/-- While an activity is at a sub-request, there are results to come. -/
theorem Accounted.results_lt (h : s.Accounted) {idx : ℕ} (hidx : idx ∈ s.held) :
    s.results.length < s.total := by
  have hlen := h.length_eq
  have hpos := length_pos_of_mem hidx
  omega

/-- **The counter is right, and the parent is completed by the last result.** -/
structure Latched (s : GlobalRequest) : Prop where
  latch : Latch s.total (s.tally SubCall.uncounted) s.results.length (s.tally SubCall.completes)
    s.done.length s.pending
  done : ∀ err ∈ s.done, err = s.firstError
  /-- An activity ends when all indices have been taken. -/
  ended : .ended ∈ s.calls → s.total ≤ s.nextIndex

open SubCall

/-- An activity that goes on to a place where it weighs as much leaves the counter right. -/
theorem Latched.goto (h : s.Latched) (hc : s.calls[i]? = some c) (c' : SubCall)
    (huncounted : c'.uncounted = c.uncounted) (hcompletes : c'.completes = c.completes)
    (hended : c' = .ended → s.total ≤ s.nextIndex) : (s.goto i c').Latched := by
  have hu : (s.goto i c').tally uncounted = s.tally uncounted :=
    Nat.add_right_cancel (huncounted ▸ tally_goto uncounted hc c')
  have hl : (s.goto i c').tally completes = s.tally completes :=
    Nat.add_right_cancel (hcompletes ▸ tally_goto completes hc c')
  refine ⟨?_, h.done, fun hmem ↦ ?_⟩
  · rw [hu, hl]
    exact h.latch
  · obtain hmem | hmem := mem_or_eq_of_mem_set hmem
    · exact h.ended hmem
    · exact hended hmem.symm

/-- **Every step keeps the counter right**, if there are at most `2 ^ 32` sub-requests. -/
theorem Latched.step (h : s.Latched) (hacc : s.Accounted) (htotal : s.total ≤ 2 ^ 32)
    (he : Effect s i t) : t.Latched := by
  have hended : ∀ {c' : SubCall}, c' ≠ .ended → .ended ∈ s.calls.set i c' →
      s.total ≤ s.nextIndex := fun hne hmem ↦
    (mem_or_eq_of_mem_set hmem).elim h.ended fun heq ↦ absurd heq.symm hne
  cases he with
  | start hc => exact h.goto hc .fetch rfl rfl (by simp)
  | take hc hlt =>
    have hgoto := h.goto hc (.submit s.nextIndex) rfl rfl (by simp)
    exact ⟨hgoto.latch, hgoto.done, fun hmem ↦ Nat.le_succ_of_le (hgoto.ended hmem)⟩
  | leave hc hge =>
    have hgoto := h.goto hc .ended rfl rfl fun _ ↦ hge
    exact ⟨hgoto.latch, hgoto.done, fun _ ↦ Nat.le_succ_of_le hge⟩
  | @accept idx hc =>
    have hgoto := h.goto hc (.flying idx) rfl rfl (by simp)
    exact ⟨hgoto.latch, hgoto.done, hgoto.ended⟩
  | @refuse idx hc =>
    have hgoto := h.goto hc (.record idx .notRunning) rfl rfl (by simp)
    exact ⟨hgoto.latch, hgoto.done, hgoto.ended⟩
  | complete hc => exact h.goto hc (.record _ _) rfl rfl (by simp)
  | @record idx err hc =>
    have hlt := hacc.results_lt (mem_filterMap.2 ⟨_, mem_of_getElem? hc, rfl⟩)
    have hu : (s.goto i .subtract).tally uncounted = s.tally uncounted + 1 :=
      tally_goto uncounted hc .subtract
    have hl : (s.goto i .subtract).tally completes = s.tally completes :=
      tally_goto completes hc .subtract
    refine ⟨?_, fun err herr ↦ ?_, hended (by simp)⟩
    · have hlatch := h.latch.record hlt
      rw [← hu, ← hl] at hlatch
      exact hlatch
    · -- nothing is done while there are results to come
      have hc := h.latch.completes
      rw [if_neg (by omega)] at hc
      have hpos := length_pos_of_mem (show err ∈ s.done from herr)
      omega
  | count hc hp =>
    have hu : (s.goto i .fetch).tally uncounted + 1 = s.tally uncounted :=
      tally_goto uncounted hc .fetch
    have hl : (s.goto i .fetch).tally completes = s.tally completes :=
      tally_goto completes hc .fetch
    refine ⟨?_, h.done, hended (by simp)⟩
    have hlatch := h.latch
    rw [← hu, ← hl] at hlatch
    have hcount := hlatch.count htotal
    rw [if_neg hp] at hcount
    exact hcount
  | countLast hc hp =>
    have hu : (s.goto i .last).tally uncounted + 1 = s.tally uncounted :=
      tally_goto uncounted hc .last
    have hl : (s.goto i .last).tally completes = s.tally completes + 1 :=
      tally_goto completes hc .last
    refine ⟨?_, h.done, hended (by simp)⟩
    have hlatch := h.latch
    rw [← hu] at hlatch
    have hcount := hlatch.count htotal
    rw [if_pos hp, ← hl] at hcount
    exact hcount
  | finish hc =>
    have hu : (s.goto i .ended).tally uncounted = s.tally uncounted :=
      tally_goto uncounted hc .ended
    have hl : (s.goto i .ended).tally completes + 1 = s.tally completes :=
      tally_goto completes hc .ended
    have hlatch := h.latch
    rw [← hu, ← hl] at hlatch
    refine ⟨?_, fun err herr ↦ ?_, fun _ ↦ ?_⟩
    · have hdone := hlatch.complete
      rw [← length_singleton, ← length_append] at hdone
      exact hdone
    · obtain herr | herr := mem_append.1 herr
      · exact h.done err herr
      · exact mem_singleton.1 herr
    · -- everything has been recorded, so every index has been taken
      have hall := hlatch.completes
      have hn := hlatch.recorded
      have hlen := hacc.length_eq
      change s.total ≤ s.nextIndex
      split at hall <;> omega

/-! ### What is asked of a global request -/

/-- How much is left to do for an activity that is at a place; an index that was not taken is worth
7. -/
def rank : SubCall → ℕ
  | .idle => 2
  | .fetch => 1
  | .submit _ => 7
  | .flying _ => 6
  | .record _ _ => 5
  | .subtract => 4
  | .last => 1
  | .ended => 0

def work (s : GlobalRequest) : ℕ := 7 * (s.total - s.nextIndex) + s.tally rank

/-- The sub-requests that have been submitted and whose results are not recorded. -/
def outstanding (s : GlobalRequest) : List ℕ :=
  s.submitted.filter fun idx ↦ idx ∉ s.results.map (·.1)

/-- **A global request is as it should be**, with at most so many sub-requests outstanding. -/
structure Orderly (maxInflight : ℕ) (s : GlobalRequest) : Prop where
  once : s.submitted.Nodup
  /-- No more are outstanding than there may be. -/
  outstanding : s.outstanding.length ≤ maxInflight
  single : s.done.length ≤ 1
  /-- When it is completed, every sub-request has been submitted once and its result recorded. -/
  complete : s.done ≠ [] → s.submitted.Perm (List.range s.total) ∧
    (s.results.map (·.1)).Perm (List.range s.total)
  /-- Its error tells whether there was one. -/
  error : ∀ err ∈ s.done, err = .noError ↔ ∀ x ∈ s.results, x.2 = .noError
  /-- When nothing is going on any more, it has been completed. -/
  finished : (∀ c ∈ s.calls, c = .ended) → s.done.length = 1
  /-- Until then every activity can go on, and each step brings the end nearer. -/
  progress : ∀ j c, s.calls[j]? = some c → c ≠ .ended → ∃ e t, step s (j, e) = some t
  nearer : ∀ e t, step s e = some t → t.work < s.work

theorem work_lt (he : Effect s i t) : t.work < s.work := by
  have hgoto : ∀ (c c' : SubCall), s.calls[i]? = some c → rank c' < rank c →
      7 * (s.total - s.nextIndex) + (s.goto i c').tally rank < s.work := fun c c' hc hlt ↦ by
    have ht := tally_goto rank hc c'
    rw [work]
    omega
  cases he with
  | start hc => exact hgoto _ _ hc (by decide)
  | take hc hlt =>
    have ht := tally_goto rank hc (.submit s.nextIndex)
    change 7 * (s.total - (s.nextIndex + 1)) + _ < _
    simp only [rank] at ht
    rw [work]
    change _ + (s.goto i (.submit s.nextIndex)).tally rank < _
    omega
  | leave hc hge =>
    refine Nat.lt_of_le_of_lt ?_ (hgoto _ .ended hc (by decide))
    change 7 * (s.total - (s.nextIndex + 1)) + _ ≤ _
    rw [Nat.sub_eq_zero_of_le hge, Nat.sub_eq_zero_of_le (Nat.le_succ_of_le hge)]
    exact le_rfl
  | accept hc => exact hgoto _ (.flying _) hc (by simp [rank])
  | refuse hc => exact hgoto _ (.record _ _) hc (by simp [rank])
  | complete hc => exact hgoto _ (.record _ _) hc (by simp [rank])
  | record hc => exact hgoto _ .subtract hc (by simp [rank])
  | count hc hp => exact hgoto _ .fetch hc (by decide)
  | countLast hc hp => exact hgoto _ .last hc (by decide)
  | finish hc => exact hgoto _ .ended hc (by decide)

theorem exists_step {j : ℕ} (hc : s.calls[j]? = some c) (hne : c ≠ .ended) :
    ∃ e t, step s (j, e) = some t := by
  have hstep : ∀ e, step s (j, e) = s.stepAt j c e := fun e ↦ by
    rw [step, hc]
    rfl
  cases c with
  | idle | fetch | record | subtract | last => exact ⟨.proceed, _, hstep _⟩
  | submit => exact ⟨.accept, _, hstep _⟩
  | flying => exact ⟨.complete .noError, _, hstep _⟩
  | ended => exact absurd rfl hne

theorem Accounted.nodup_submitted (h : s.Accounted) : s.submitted.Nodup :=
  (nodup_append.1 (h.once.nodup_iff.2 nodup_range)).2.1

/-- Each outstanding sub-request is with an activity. -/
theorem Accounted.outstanding_le (h : s.Accounted) : s.outstanding.length ≤ s.calls.length := by
  have hsub : s.outstanding ⊆ s.held := fun idx hidx ↦ by
    obtain ⟨hsubmitted, hno⟩ := mem_filter.1 hidx
    have hmem := h.held.mem_iff.2 (h.once.mem_iff.1 (mem_append_right s.toSubmit hsubmitted))
    exact (mem_append.1 hmem).resolve_right (of_decide_eq_true hno)
  calc s.outstanding.length
      ≤ s.held.length := (subperm_of_subset (h.nodup_submitted.filter _) hsub).length_le
    _ ≤ s.calls.length := length_filterMap_le ..

/-- Where all results are recorded, every sub-request has been submitted. -/
theorem Accounted.complete (h : s.Accounted) (hall : s.results.length = s.total) :
    s.submitted.Perm (List.range s.total) ∧ (s.results.map (·.1)).Perm (List.range s.total) := by
  have hlen := h.length_eq
  have hmin : min s.nextIndex s.total = s.total := by omega
  have hheld : s.held = [] := length_eq_zero_iff.1 (by omega)
  have hnone : s.toSubmit = [] := filterMap_eq_nil_iff.2 fun c hc ↦ by
    have hno := filterMap_eq_nil_iff.1 hheld c hc
    cases c with
    | submit => simp [index?] at hno
    | idle | fetch | flying | record | subtract | last | ended => rfl
  have hperm := h.held
  have honce := h.once
  rw [hheld, hmin] at hperm
  rw [hnone, hmin] at honce
  exact ⟨honce, hperm⟩

/-- **Where the counter is right, the request is as it should be.** -/
theorem Latched.orderly (h : s.Latched) (hacc : s.Accounted) {maxInflight : ℕ}
    (hle : s.calls.length ≤ maxInflight) (hne : 0 < s.total → s.calls ≠ []) :
    s.Orderly maxInflight := by
  have hc := h.latch.completes
  have hn := h.latch.recorded
  have hu := h.latch.uncounted
  have hlen := hacc.length_eq
  refine ⟨hacc.nodup_submitted, hacc.outstanding_le.trans hle, ?_, fun hdone ↦ ?_,
    fun err herr ↦ h.done err herr ▸ hacc.error, fun hended ↦ ?_, fun j c ↦ exists_step,
    fun e t hstep ↦ work_lt (effect hstep)⟩
  · split at hc <;> omega
  · have hpos := length_pos_iff.2 hdone
    refine hacc.complete ?_
    split at hc <;> omega
  · -- all indices have been taken, and no activity is at any
    have hzero : ∀ w : SubCall → ℕ, w .ended = 0 → s.tally w = 0 := fun w hw ↦
      sum_eq_zero fun x hx ↦ by
        obtain ⟨c, hc, rfl⟩ := mem_map.1 hx
        rw [hended c hc, hw]
    have hheld : s.held = [] := filterMap_eq_nil_iff.2 fun c hc ↦ by rw [hended c hc]; rfl
    have htaken : s.total ≤ s.nextIndex := by
      obtain htotal | htotal := Nat.eq_zero_or_pos s.total
      · omega
      · obtain ⟨c, hc⟩ := exists_mem_of_ne_nil _ (hne htotal)
        exact h.ended (hended c hc ▸ hc)
    rw [hheld, length_nil] at hlen
    rw [hzero uncounted rfl, hzero completes rfl, if_pos (by omega)] at hc
    omega

/-! ### Runs -/

variable {m n : ℕ}

theorem handle_total (m n : ℕ) : (handle m (.ok n)).total = n := by
  rw [handle]
  split
  · next h => exact h.symm
  · rfl

theorem handle_calls (m n : ℕ) : (handle m (.ok n)).calls = List.replicate (min m n) .idle := by
  rw [handle]
  split
  · next h => rw [h, Nat.min_zero]; rfl
  · rfl

theorem accounted_handle (m n : ℕ) : (handle m (.ok n)).Accounted := by
  have hnone : ∀ f : SubCall → Option ℕ, f .idle = none →
      (handle m (.ok n)).calls.filterMap f = [] := fun f hf ↦ by
    rw [handle_calls]
    exact filterMap_eq_nil_iff.2 fun c hc ↦ eq_of_mem_replicate hc ▸ hf
  have hrest : (handle m (.ok n)).results = [] ∧ (handle m (.ok n)).submitted = [] ∧
      (handle m (.ok n)).nextIndex = 0 ∧ (handle m (.ok n)).firstError = .noError := by
    rw [handle]
    split <;> exact ⟨rfl, rfl, rfl, rfl⟩
  obtain ⟨hresults, hsubmitted, hnext, hfirst⟩ := hrest
  refine ⟨?_, ?_, ?_⟩
  · rw [held, hnone _ rfl, hresults, hnext, Nat.zero_min]
    exact .nil
  · rw [toSubmit, hnone _ rfl, hsubmitted, hnext, Nat.zero_min]
    exact .nil
  · rw [hresults, hfirst]
    simp

theorem latched_handle (m n : ℕ) : (handle m (.ok n)).Latched := by
  have hzero : ∀ w : SubCall → ℕ, w .idle = 0 → (handle m (.ok n)).tally w = 0 := fun w hw ↦ by
    rw [tally, handle_calls, map_replicate, hw]
    exact sum_eq_zero fun x hx ↦ eq_of_mem_replicate hx
  refine ⟨?_, ?_, fun hmem ↦ ?_⟩
  · rw [hzero _ rfl, hzero _ rfl, handle]
    split
    · exact ⟨rfl, le_rfl, le_rfl, rfl⟩
    · next hn =>
      refine ⟨UInt32.toNat_ofNat', Nat.zero_le _, le_rfl, ?_⟩
      exact (if_neg hn).symm
  · rw [handle]
    split
    · exact fun err herr ↦ mem_singleton.1 herr
    · exact fun err herr ↦ absurd herr not_mem_nil
  · rw [handle_calls] at hmem
    cases eq_of_mem_replicate hmem

theorem effect_frame (he : Effect s i t) :
    t.total = s.total ∧ t.calls.length = s.calls.length := by
  cases he <;> exact ⟨rfl, length_set⟩

theorem Runs.accounted (h : Runs (handle m (.ok n)) s) :
    s.Accounted ∧ s.total = n ∧ s.calls.length = min m n :=
  h.invariant (fun s ↦ s.Accounted ∧ s.total = n ∧ s.calls.length = min m n)
    ⟨accounted_handle m n, handle_total m n, by rw [handle_calls, length_replicate]⟩
    fun ⟨hacc, htotal, hlen⟩ _ hstep ↦ by
      have he := effect hstep
      obtain ⟨ht, hl⟩ := effect_frame he
      exact ⟨hacc.step he, ht.trans htotal, hl.trans hlen⟩

/-- **At most `2 ^ 32` sub-requests are handled as they should be.** -/
theorem Runs.orderly (h : Runs (handle m (.ok n)) s) (hm : 0 < m) (hn : n ≤ 2 ^ 32) :
    s.Orderly m := by
  obtain ⟨hacc, htotal, hlen⟩ := h.accounted
  have hinv := h.invariant (fun s ↦ (s.Accounted ∧ s.total = n) ∧ s.Latched)
    ⟨⟨accounted_handle m n, handle_total m n⟩, latched_handle m n⟩
    fun ⟨⟨hacc, htotal⟩, hlatched⟩ _ hstep ↦ by
      have he := effect hstep
      exact ⟨⟨hacc.step he, (effect_frame he).1.trans htotal⟩,
        hlatched.step hacc (htotal ▸ hn) he⟩
  refine hinv.2.orderly hacc (by omega) fun hpos ↦ ne_nil_of_length_pos ?_
  omega

/-! ### More than `2 ^ 32` sub-requests -/

theorem Runs.stepAt {init : GlobalRequest} (h : Runs init s) (hc : s.calls[i]? = some c)
    {e : SubEvent} (hs : s.stepAt i c e = some t) : Runs init t :=
  Transition.Reach.step h trivial (show step s (i, e) = some t by rw [step, hc]; exact hs)

theorem goto_getElem? (hc : s.calls[i]? = some c) (c' : SubCall) :
    (s.goto i c').calls[i]? = some c' := by
  obtain ⟨hi, -⟩ := List.getElem?_eq_some_iff.1 hc
  exact getElem?_set_self hi

/-- A submission fails: one index further, and one fewer to count. -/
theorem exists_refused {init : GlobalRequest} (h : Runs init s) (hc : s.calls[i]? = some .fetch)
    (hlt : s.nextIndex < s.total) :
    ∃ t, Runs init t ∧ t.calls[i]? = some (if s.pending = 1 then .last else .fetch) ∧
      t.nextIndex = s.nextIndex + 1 ∧ t.total = s.total ∧ t.pending = s.pending - 1 := by
  obtain ⟨s₁, hs₁⟩ : ∃ s₁, s₁ = { s.goto i (if s.nextIndex < s.total then .submit s.nextIndex
    else .ended) with nextIndex := s.nextIndex + 1 } := ⟨_, rfl⟩
  have h₁ : Runs init s₁ := h.stepAt hc (e := .proceed) (hs₁ ▸ rfl)
  have hc₁ : s₁.calls[i]? = some (.submit s.nextIndex) := by
    rw [hs₁, if_pos hlt]
    exact goto_getElem? hc _
  have h₂ := h₁.stepAt hc₁ (e := .refuse) rfl
  have hc₂ := goto_getElem? hc₁ (.record s.nextIndex .notRunning)
  have h₃ := h₂.stepAt hc₂ (e := .proceed) rfl
  have hc₃ := goto_getElem? hc₂ .subtract
  have h₄ := h₃.stepAt hc₃ (e := .proceed) rfl
  refine ⟨_, h₄, ?_, by rw [hs₁]; rfl, by rw [hs₁]; rfl, by rw [hs₁]; rfl⟩
  have hpending : s₁.pending = s.pending := by rw [hs₁]; rfl
  rw [← hpending]
  exact goto_getElem? hc₃ _

/-- **With more than `2 ^ 32` sub-requests the parent can be completed too early**: if all
submissions fail, after as many results as the number of sub-requests is, in 32 bits. -/
theorem exists_early (hm : 0 < m) (hn : 2 ^ 32 < n) :
    ∃ s, Runs (handle m (.ok n)) s ∧ s.done ≠ [] ∧ s.results.length < n := by
  obtain ⟨k, hk⟩ : ∃ k, k = (n - 1) % 2 ^ 32 + 1 := ⟨_, rfl⟩
  -- the first activity has gone through `j` indices, and fewer than `k`
  have hspin : ∀ j < k, ∃ s, Runs (handle m (.ok n)) s ∧ s.calls[0]? = some .fetch ∧
      s.nextIndex = j ∧ s.total = n ∧ s.pending.toNat = (k - j) % 2 ^ 32 := by
    intro j
    induction j with
    | zero =>
      intro _
      have hinit : handle m (.ok n) = ⟨n, 0, UInt32.ofNat n, .noError,
          replicate (min m n) .idle, [], [], []⟩ := if_neg (by omega)
      have hc : (handle m (.ok n)).calls[0]? = some .idle := by
        rw [handle_calls, getElem?_replicate, if_pos (by omega)]
      refine ⟨_, Runs.stepAt .start hc (e := .proceed) rfl, goto_getElem? hc _, ?_, ?_, ?_⟩
      · rw [hinit]; rfl
      · exact handle_total m n
      · rw [hinit]
        change (UInt32.ofNat n).toNat = _
        rw [UInt32.toNat_ofNat']
        omega
    | succ j ih =>
      intro hj
      obtain ⟨s, hrun, hc, hnext, htotal, hp⟩ := ih (by omega)
      obtain ⟨t, ht, hct, hnextt, htotalt, hpt⟩ := exists_refused hrun hc (by omega)
      have hne : s.pending ≠ 1 := fun heq ↦ by
        rw [heq] at hp
        change 1 = _ at hp
        omega
      rw [if_neg hne] at hct
      refine ⟨t, ht, hct, by omega, by omega, ?_⟩
      rw [hpt, Latch.toNat_sub_one hp (by omega), Nat.sub_sub]
  obtain ⟨s, hrun, hc, hnext, htotal, hp⟩ := hspin (k - 1) (by omega)
  obtain ⟨t, ht, hct, hnextt, htotalt, -⟩ := exists_refused hrun hc (by omega)
  have hone : s.pending = 1 := UInt32.toNat_inj.1 (by rw [hp]; change _ = 1; omega)
  rw [if_pos hone] at hct
  refine ⟨_, ht.stepAt hct (e := .proceed) rfl, by simp, ?_⟩
  have hlen := ht.accounted.1.length_eq
  change t.results.length < n
  omega

/-- The global requests. -/
inductive Kind
  | dropTable
  | globalArchive
  | globalReopen
  | globalCreateBranch
deriving DecidableEq, Repr

def Kind.handler (opts : Options) : Kind → Except KvError ℕ → GlobalRequest
  | .dropTable => handleDropTableRequest opts
  | .globalArchive => handleGlobalArchiveRequest opts
  | .globalReopen => handleGlobalReopenRequest opts
  | .globalCreateBranch => handleGlobalCreateBranchRequest opts

/-- The configured maximum of outstanding sub-requests, at least one. -/
def Kind.maxInflight (opts : Options) : Kind → ℕ
  | .globalArchive => min (max opts.maxArchiveTasks 1) (max opts.maxGlobalRequestBatch 1)
  | .dropTable | .globalReopen | .globalCreateBranch => max opts.maxGlobalRequestBatch 1

theorem Kind.handler_eq (opts : Options) (kind : Kind) :
    kind.handler opts = handle (kind.maxInflight opts) := by
  cases kind with
  | globalArchive =>
    have hmax : (if opts.maxArchiveTasks = 0 then 1 else opts.maxArchiveTasks) =
        max opts.maxArchiveTasks 1 := by
      split <;> omega
    change handle _ = handle _
    rw [hmax]
    rfl
  | dropTable | globalReopen | globalCreateBranch => rfl

theorem Kind.maxInflight_pos (opts : Options) (kind : Kind) : 0 < kind.maxInflight opts := by
  cases kind <;> simp only [Kind.maxInflight] <;> omega

/-- **Global requests are as they should be in every run exactly if there are at most `2 ^ 32`
partitions**, whatever the options and the kind. -/
theorem orderly_iff (opts : Options) (kind : Kind) (n : ℕ) :
    (∀ s, Runs (kind.handler opts (.ok n)) s → s.Orderly (kind.maxInflight opts)) ↔
      n ≤ 2 ^ 32 := by
  rw [kind.handler_eq opts]
  have hpos := kind.maxInflight_pos opts
  constructor
  · intro hall
    by_contra hn
    obtain ⟨s, hrun, hdone, hlt⟩ := exists_early hpos (not_le.1 hn)
    have hperm := ((hall s hrun).complete hdone).2.length_eq
    rw [length_map, length_range, hrun.accounted.2.1] at hperm
    omega
  · exact fun hn s hrun ↦ hrun.orderly hpos hn

/-- **One result of `2 ^ 32 + 1`**, and the parent is completed. -/
theorem completes_after_one :
    ∃ s, Runs (handleGlobalArchiveRequest ⟨1, 1⟩ (.ok (2 ^ 32 + 1))) s ∧
      s.results = [(0, .noError)] ∧ s.done = [.noError] ∧ s.total = 2 ^ 32 + 1 ∧
      ¬ s.Orderly (Kind.globalArchive.maxInflight ⟨1, 1⟩) := by
  obtain ⟨s, hrun, hs⟩ :
      ∃ s, Runs (handleGlobalArchiveRequest ⟨1, 1⟩ (.ok (2 ^ 32 + 1))) s ∧
        decide (s.results = [(0, .noError)] ∧ s.done = [.noError] ∧ s.total = 2 ^ 32 + 1) = true :=
    Transition.exists_reach_of_exec
      [(0, .proceed), (0, .proceed), (0, .accept), (0, .complete .noError), (0, .proceed),
        (0, .proceed), (0, .proceed)] (by decide +kernel)
  obtain ⟨hresults, hdone, htotal⟩ := of_decide_eq_true hs
  refine ⟨s, hrun, hresults, hdone, htotal, fun hok ↦ ?_⟩
  have hlen := (hok.complete (by simp [hdone])).2.length_eq
  rw [hresults, htotal, length_range] at hlen
  exact absurd hlen (by decide)

end GlobalRequest

end EloqStore
