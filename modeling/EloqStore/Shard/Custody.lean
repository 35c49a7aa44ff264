import EloqStore.Shard.Scheduler

/-!
# Where the requests of a shard are

The books of a shard: how often a request is in `requests_`, in the queue of its partition, among
the tasks, in the hands of a call that has not returned, or among those that wait for a reopen
(`pending`), and how often it has been completed. `Tidy` says that these add up, for every request,
to what they should be, and that the running flags and the number of write tasks agree with the
tasks there are. It holds in every state of every run; the steps that keep it are taken one by one.

A request whose batch is empty is counted apart (`stranded`): a task is taken for it and not
started, so it is nowhere that anything would be done about it.
-/

namespace EloqStore

open AssocMap List Option Shard ShardRequest

namespace Shard

variable {τ : Type} [DecidableEq τ] (env : ShardEnv τ) (s : Shard τ)

/-! ### Counting -/

/-- How often a request is on the shard and not completed. -/
def pending (r : ShardRequest τ) : ℕ :=
  s.requests.count r + (s.waiting (env.tableOf r)).count r + s.tasks.count r + s.stranded.count r +
    (s.stack.filterMap Frame.inHand).count r + (s.waiters (env.tableOf r)).count r

/-- How often a submission has been completed. The shard's own requests are used again. -/
def completed : ShardRequest τ → ℕ
  | .client id => (s.done.map (·.1)).count (.client id)
  | _ => 0

/-- How often a request should be on the shard or completed. -/
def expected : ShardRequest τ → ℕ
  | .client id => if id ∈ s.accepted then 1 else 0
  | .reopen t => if (s.reopens.get? t).isSome then 1 else 0
  | r => if r ∈ s.undone then 1 else 0

/-- The request is one of the writes of a partition. -/
def writes (t : τ) (r : ShardRequest τ) : Bool :=
  !(env.typeOf r).readOnly && decide (env.tableOf r = t)

/-- **The books of a shard are in order**, but for requests that are counted once too often: in the
middle of `OnTaskFinished` there is one. -/
structure Tidy (extra : List (ShardRequest τ)) : Prop where
  /-- Every request is where it should be, and nowhere else. -/
  balance : ∀ r, s.pending env r + s.completed r = s.expected r + extra.count r
  /-- A queue has writes of its partition. -/
  queued : ∀ t, ∀ r ∈ s.waiting t, env.tableOf r = t ∧ (env.typeOf r).readOnly = false
  /-- Those that wait for a reopen are submissions for its partition. -/
  waiting : ∀ t, ∀ r ∈ s.waiters t, env.tableOf r = t ∧ ∃ id, r = .client id
  inHand : ∀ r ∈ s.stack.filterMap Frame.inHand, ∃ id, r = .client id
  flag : ∀ t, (s.tasks ++ s.stranded).countP (writes env t) = (s.running t).toNat
  active : s.numActiveWrite =
    (s.tasks ++ s.stranded).countP fun r ↦ (env.typeOf r).takesWriteTask
  undone : s.undone.Nodup

variable {env s} {r r₀ : ShardRequest τ} {t : τ} {extra : List (ShardRequest τ)}

theorem waiting_set (q : WriteQueue τ) (t' : τ) :
    ({ s with queues := s.queues.set t q } : Shard τ).waiting t' =
      if t' = t then q.waiting else s.waiting t' := by
  rw [waiting, get?_set]
  split <;> rfl

theorem running_set (q : WriteQueue τ) (t' : τ) :
    ({ s with queues := s.queues.set t q } : Shard τ).running t' =
      if t' = t then q.running else s.running t' := by
  rw [running, get?_set]
  split <;> rfl

/-- What `TryStartPendingWrite` can do. -/
inductive TryStart (env : ShardEnv τ) (s : Shard τ) (t : τ) : Shard τ → Prop
  /-- Nothing: there is nothing to start, or a task is running, or there are no more tasks. -/
  | none (h : s.waiting t = [] ∨ s.running t = true ∨ env.writeLimit ≤ s.numActiveWrite) :
    TryStart env s t s
  | start (r : ShardRequest τ) (rest : List (ShardRequest τ))
    (hq : s.queues.get? t = some ⟨false, r :: rest⟩) (hr : env.typeOf r ≠ .batchWrite 0) :
    TryStart env s t
      { s with
        queues := s.queues.set t ⟨true, rest⟩
        numActiveWrite := s.numActiveWrite + (env.typeOf r).takesWriteTask.toNat
        tasks := r :: s.tasks
        stack := .run r :: s.stack }
  /-- A task is taken and not started. -/
  | strand (r : ShardRequest τ) (rest : List (ShardRequest τ))
    (hq : s.queues.get? t = some ⟨false, r :: rest⟩) (hr : env.typeOf r = .batchWrite 0) :
    TryStart env s t
      { s with
        queues := s.queues.set t ⟨true, rest⟩
        numActiveWrite := s.numActiveWrite + (env.typeOf r).takesWriteTask.toNat
        stranded := r :: s.stranded }

theorem tryStart_spec (env : ShardEnv τ) (s : Shard τ) (t : τ) :
    TryStart env s t (s.tryStart env t) := by
  rw [tryStart]
  split
  · next r rest hq =>
    split
    · next hlimit => exact .none (.inr (.inr hlimit.2))
    · split
      · next hr => exact .strand r rest hq hr
      · next hr => exact .start r rest hq hr
  · next hq =>
    refine .none ?_
    rw [waiting, running]
    cases hget : s.queues.get? t with
    | none => exact .inl rfl
    | some q =>
      obtain ⟨run, wait⟩ := q
      cases run with
      | true => exact .inr (.inl rfl)
      | false =>
        cases wait with
        | nil => exact .inl rfl
        | cons r rest => exact absurd hget (hq r rest)

/-! ### How the counts change -/

theorem count_cons_eq (r r₀ : ShardRequest τ) (l : List (ShardRequest τ)) :
    (r₀ :: l).count r = l.count r + [r₀].count r := by
  rw [count_cons, count_singleton]

variable {l : List (ShardRequest τ)} {rest : List (Frame τ)} {s' : Shard τ}

theorem count_erase_add (h : r₀ ∈ l) (r : ShardRequest τ) :
    (l.erase r₀).count r + [r₀].count r = l.count r := by
  rw [← count_cons_eq]
  exact ((perm_cons_erase h).count_eq r).symm

theorem count_eraseIdx_add {i : ℕ} (h : l[i]? = some r₀) (r : ShardRequest τ) :
    (l.eraseIdx i).count r + [r₀].count r = l.count r := by
  obtain ⟨hi, rfl⟩ := List.getElem?_eq_some_iff.1 h
  rw [← count_cons_eq]
  exact (getElem_cons_eraseIdx_perm hi).count_eq r

theorem pushBack_waiting (r : ShardRequest τ) (t' : τ) : (s.pushBack env r).waiting t' =
    if t' = env.tableOf r then s.waiting (env.tableOf r) ++ [r] else s.waiting t' := by
  rw [pushBack, waiting_set]
  simp only [waiting]
  cases s.queues.get? (env.tableOf r) <;> rfl

theorem pushFront_waiting (r : ShardRequest τ) (t' : τ) : (s.pushFront env r).waiting t' =
    if t' = env.tableOf r then r :: s.waiting (env.tableOf r) else s.waiting t' := by
  rw [pushFront, waiting_set]
  simp only [waiting]
  cases s.queues.get? (env.tableOf r) <;> rfl

@[simp] theorem pushBack_running (r : ShardRequest τ) (t' : τ) :
    (s.pushBack env r).running t' = s.running t' := by
  rw [pushBack, running_set]
  split
  · next h =>
    rw [running, h]
    cases s.queues.get? (env.tableOf r) <;> rfl
  · rfl

@[simp] theorem pushFront_running (r : ShardRequest τ) (t' : τ) :
    (s.pushFront env r).running t' = s.running t' := by
  rw [pushFront, running_set]
  split
  · next h =>
    rw [running, h]
    cases s.queues.get? (env.tableOf r) <;> rfl
  · rfl

theorem pending_pushBack (r₀ r : ShardRequest τ) :
    (s.pushBack env r₀).pending env r = s.pending env r + [r₀].count r := by
  have hwait : ((s.pushBack env r₀).waiting (env.tableOf r)).count r =
      (s.waiting (env.tableOf r)).count r + [r₀].count r := by
    rw [pushBack_waiting]
    by_cases ht : env.tableOf r = env.tableOf r₀
    · rw [if_pos ht, ht, count_append]
    · have hr : r₀ ≠ r := fun heq ↦ ht (by rw [heq])
      rw [if_neg ht, count_singleton, beq_false_of_ne hr]
      rfl
  rw [pending, hwait, pending]
  simp only [pushBack, waiters]
  omega

theorem pending_pushFront (r₀ r : ShardRequest τ) :
    (s.pushFront env r₀).pending env r = s.pending env r + [r₀].count r := by
  have hwait : ((s.pushFront env r₀).waiting (env.tableOf r)).count r =
      (s.waiting (env.tableOf r)).count r + [r₀].count r := by
    rw [pushFront_waiting]
    by_cases ht : env.tableOf r = env.tableOf r₀
    · rw [if_pos ht, ht, count_cons_eq]
    · have hr : r₀ ≠ r := fun heq ↦ ht (by rw [heq])
      rw [if_neg ht, count_singleton, beq_false_of_ne hr]
      rfl
  rw [pending, hwait, pending]
  simp only [pushFront, waiters]
  omega

/-! ### The operations keep the books in order -/

section

variable (h : s.Tidy env extra)

include h

/-- A task is taken for the next request of a queue. -/
theorem Tidy.take {rest : List (ShardRequest τ)} (hq : s.queues.get? t = some ⟨false, r₀ :: rest⟩)
    {tasks stranded : List (ShardRequest τ)} {stack : List (Frame τ)}
    (hperm : (tasks ++ stranded).Perm (r₀ :: (s.tasks ++ s.stranded)))
    (hstack : stack.filterMap Frame.inHand = s.stack.filterMap Frame.inHand) :
    ({ s with
        queues := s.queues.set t ⟨true, rest⟩
        numActiveWrite := s.numActiveWrite + (env.typeOf r₀).takesWriteTask.toNat
        tasks := tasks
        stranded := stranded
        stack := stack } : Shard τ).Tidy env extra := by
  have hwait : s.waiting t = r₀ :: rest := by rw [Shard.waiting, hq]; rfl
  have hrun : s.running t = false := by rw [running, hq]; rfl
  obtain ⟨ht, hwrite⟩ := h.queued t r₀ (by simp [hwait])
  have hset : ∀ t', ({ s with queues := s.queues.set t ⟨true, rest⟩ } : Shard τ).waiting t' =
      if t' = t then rest else s.waiting t' := waiting_set _
  refine ⟨fun r ↦ ?_, fun t' r hr ↦ ?_, h.waiting, ?_, fun t' ↦ ?_, ?_, h.undone⟩
  · have hcount : (if env.tableOf r = t then rest else s.waiting (env.tableOf r)).count r +
        [r₀].count r = (s.waiting (env.tableOf r)).count r := by
      split
      · next heq => rw [heq, hwait, count_cons_eq r r₀ rest]
      · next hne =>
        have hne' : r₀ ≠ r := fun heq ↦ hne (heq ▸ ht)
        rw [count_singleton, beq_false_of_ne hne']
        rfl
    have htasks := hperm.count_eq r
    rw [count_cons_eq, count_append, count_append] at htasks
    rw [← hset] at hcount
    have hb := h.balance r
    simp only [pending, Shard.waiting, waiters, completed.eq_def, expected.eq_def, hstack]
      at hb hcount ⊢
    omega
  · change r ∈ ({ s with queues := s.queues.set t ⟨true, rest⟩ } : Shard τ).waiting t' at hr
    rw [hset] at hr
    split at hr
    · next heq =>
      rw [heq]
      exact h.queued t r (by simp [hwait, hr])
    · exact h.queued t' r hr
  · rw [hstack]
    exact h.inHand
  · change (tasks ++ stranded).countP (writes env t') =
      (({ s with queues := s.queues.set t ⟨true, rest⟩ } : Shard τ).running t').toNat
    rw [hperm.countP_eq, countP_cons, h.flag, running_set]
    by_cases htt : t' = t
    · have hw : writes env t' r₀ = true := by simp [writes, hwrite, ht, htt]
      rw [if_pos htt, if_pos hw, htt, hrun]
      rfl
    · have hw : writes env t' r₀ = false := by simp [writes, ht, Ne.symm htt]
      rw [if_neg htt, hw]
      rfl
  · change s.numActiveWrite + _ = (tasks ++ stranded).countP _
    rw [hperm.countP_eq, countP_cons, ← h.active]
    cases (env.typeOf r₀).takesWriteTask <;> rfl

/-- **A task is started, or not, for the next request of a queue.** -/
theorem Tidy.tryStart (t : τ) : (s.tryStart env t).Tidy env extra := by
  have hspec := tryStart_spec env s t
  generalize Shard.tryStart env s t = s' at hspec ⊢
  cases hspec with
  | none => exact h
  | start r₀ rest hq hr => exact h.take hq (.refl _) rfl
  | strand r₀ rest hq hr => exact h.take hq perm_middle rfl

/-- Calls begin and return that have no request in hand. -/
theorem Tidy.setStack {stack : List (Frame τ)}
    (hstack : stack.filterMap Frame.inHand = s.stack.filterMap Frame.inHand) :
    ({ s with stack := stack } : Shard τ).Tidy env extra := by
  refine ⟨fun r ↦ ?_, h.queued, h.waiting, ?_, h.flag, h.active, h.undone⟩
  · have hb := h.balance r
    rw [pending] at hb ⊢
    rw [hstack]
    exact hb
  · rw [hstack]
    exact h.inHand

theorem Tidy.accept {id : ℕ} (hid : id ∉ s.accepted) (oomRetry reopenRetry : ℕ → ℕ) :
    ({ s with
        accepted := id :: s.accepted
        requests := s.requests ++ [.client id]
        oomRetry := oomRetry
        reopenRetry := reopenRetry } : Shard τ).Tidy env extra := by
  refine ⟨fun r ↦ ?_, h.queued, h.waiting, h.inHand, h.flag, h.active, h.undone⟩
  have hexp : ∀ l : List ℕ, l = id :: s.accepted →
      ({ s with accepted := l } : Shard τ).expected r = s.expected r + [.client id].count r := by
    rintro l rfl
    cases r with
    | client j =>
      by_cases hj : j = id
      · simp [expected, hj, hid]
      · simp [expected, hj, Ne.symm hj]
    | compact | cleanExpired | localGc | reopen => simp [expected]
  have hb := h.balance r
  have he := hexp _ rfl
  simp only [pending, Shard.waiting, waiters, completed.eq_def, expected.eq_def,
    count_append] at hb he ⊢
  omega

/-- **A request is taken from `requests_` to its queue.** -/
theorem Tidy.requeue {i : ℕ} (hi : s.requests[i]? = some r₀)
    (hr : (env.typeOf r₀).readOnly = false) :
    (pushBack env { s with requests := s.requests.eraseIdx i } r₀).Tidy env extra := by
  refine ⟨fun r ↦ ?_, fun t r hmem ↦ ?_, h.waiting, h.inHand, fun t ↦ ?_, h.active, h.undone⟩
  · have hb := h.balance r
    have hc := count_eraseIdx_add hi r
    rw [pending_pushBack]
    simp only [pending, Shard.waiting, waiters, completed.eq_def, expected.eq_def, pushBack]
      at hb ⊢
    omega
  · rw [pushBack_waiting] at hmem
    split at hmem
    · next ht =>
      obtain hmem | hmem := mem_append.1 hmem
      · exact ht ▸ h.queued _ r hmem
      · rw [mem_singleton.1 hmem]
        exact ⟨ht.symm, hr⟩
    · exact h.queued t r hmem
  · rw [pushBack_running]
    exact h.flag t

/-- **A request that reads gets a task.** -/
theorem Tidy.startRead {i : ℕ} (hi : s.requests[i]? = some r₀)
    (hr : (env.typeOf r₀).readOnly = true) :
    ({ s with
        requests := s.requests.eraseIdx i
        tasks := r₀ :: s.tasks
        stack := .run r₀ :: s.stack } : Shard τ).Tidy env extra := by
  refine ⟨fun r ↦ ?_, h.queued, h.waiting, h.inHand, fun t ↦ ?_, ?_, h.undone⟩
  · have hb := h.balance r
    have hc := count_eraseIdx_add hi r
    have ht := count_cons_eq r r₀ s.tasks
    simp only [pending, Shard.waiting, waiters, completed.eq_def, expected.eq_def,
      filterMap_cons, Frame.inHand] at hb ⊢
    omega
  · change (r₀ :: (s.tasks ++ s.stranded)).countP _ = (s.running t).toNat
    have hw : writes env t r₀ = false := by simp [writes, hr]
    rw [countP_cons, hw]
    exact h.flag t
  · change s.numActiveWrite = (r₀ :: (s.tasks ++ s.stranded)).countP _
    have hw : (env.typeOf r₀).takesWriteTask = false := by simp [RequestType.takesWriteTask, hr]
    rw [countP_cons, hw]
    exact h.active

/-- **A background request is added** to the queue of its partition. -/
theorem Tidy.addPending (hr : r₀.isBackground = true) (hnew : r₀ ∉ s.undone) :
    (pushBack env { s with undone := r₀ :: s.undone } r₀).Tidy env extra := by
  refine ⟨fun r ↦ ?_, fun t r hmem ↦ ?_, h.waiting, h.inHand, fun t ↦ ?_, h.active,
    nodup_cons.2 ⟨hnew, h.undone⟩⟩
  · have hb := h.balance r
    rw [pending_pushBack]
    change s.pending env r + _ + s.completed r = _ + _
    have hexp : (pushBack env { s with undone := r₀ :: s.undone } r₀).expected r =
        s.expected r + [r₀].count r := by
      by_cases hr₀ : r = r₀
      · subst hr₀
        rw [count_singleton_self]
        cases r with
        | client | reopen => simp [isBackground] at hr
        | compact | cleanExpired | localGc => simp [expected, pushBack, hnew]
      · rw [count_singleton, beq_false_of_ne (Ne.symm hr₀)]
        cases r with
        | client | reopen => rfl
        | compact | cleanExpired | localGc => simp [expected, pushBack, hr₀]
    omega
  · rw [pushBack_waiting] at hmem
    split at hmem
    · next ht =>
      obtain hmem | hmem := mem_append.1 hmem
      · exact ht ▸ h.queued _ r hmem
      · rw [mem_singleton.1 hmem]
        refine ⟨ht.symm, ?_⟩
        cases r₀ with
        | client | reopen => simp [isBackground] at hr
        | compact | cleanExpired | localGc => rfl
    · exact h.queued t r hmem
  · rw [pushBack_running]
    exact h.flag t

/-- **A request is sent back** at the end of `OnTaskFinished`. -/
theorem Tidy.sendBack (hstack : s.stack = .retry r₀ :: rest) :
    ({ s with stack := rest, requests := s.requests ++ [r₀] } : Shard τ).Tidy env extra := by
  have hin : s.stack.filterMap Frame.inHand = r₀ :: rest.filterMap Frame.inHand := by
    rw [hstack]
    rfl
  refine ⟨fun r ↦ ?_, h.queued, h.waiting, fun r hr ↦ ?_, h.flag, h.active, h.undone⟩
  · have hb := h.balance r
    have hc := count_cons_eq r r₀ (rest.filterMap Frame.inHand)
    simp only [pending, Shard.waiting, waiters, completed.eq_def, expected.eq_def, hin,
      count_append] at hb ⊢
    omega
  · exact h.inHand r (hin ▸ mem_cons_of_mem _ hr)

/-- A request joins those that wait for the reopen of its partition, which is in flight or has just
been asked for. -/
theorem Tidy.attach (hstack : s.stack = .reopen r₀ :: rest) :
    (enqueueForAutoReopen env { s with stack := rest } r₀).Tidy env extra := by
  have hin : s.stack.filterMap Frame.inHand = r₀ :: rest.filterMap Frame.inHand := by
    rw [hstack]
    rfl
  obtain ⟨id, hid⟩ := h.inHand r₀ (by simp [hin])
  let t := env.tableOf r₀
  let s₁ : Shard τ := { s with
    stack := rest
    reopens := s.reopens.set t (s.waiters t ++ [r₀])
    waited := s.waited ++ [r₀] }
  have hwaiters : ∀ t', s₁.waiters t' = if t' = t then s.waiters t ++ [r₀] else s.waiters t' := by
    intro t'
    simp only [s₁, waiters, AssocMap.get?_set]
    split <;> rfl
  have hsub : ∀ r ∈ s₁.stack.filterMap Frame.inHand, ∃ id, r = .client id := fun r hr ↦
    h.inHand r (hin ▸ mem_cons_of_mem _ hr)
  have hwait : ∀ t', ∀ r ∈ s₁.waiters t', env.tableOf r = t' ∧ ∃ id, r = .client id := by
    intro t' r hr
    rw [hwaiters] at hr
    split at hr
    · next ht =>
      obtain hr | hr := mem_append.1 hr
      · exact ht ▸ h.waiting _ r hr
      · rw [mem_singleton.1 hr]
        exact ⟨ht.symm, id, hid⟩
    · exact h.waiting t' r hr
  -- the request moves from the hand to the waiters
  have hpending : ∀ r, s₁.pending env r = s.pending env r := by
    intro r
    have hc := count_cons_eq r r₀ (rest.filterMap Frame.inHand)
    have hw : (s₁.waiters (env.tableOf r)).count r =
        (s.waiters (env.tableOf r)).count r + [r₀].count r := by
      rw [hwaiters]
      by_cases ht : env.tableOf r = t
      · rw [if_pos ht, ht, count_append]
      · have hne : r₀ ≠ r := fun heq ↦ ht (by rw [← heq])
        rw [if_neg ht, count_singleton, beq_false_of_ne hne]
        rfl
    rw [pending, hw, pending, hin]
    simp only [s₁, Shard.waiting]
    omega
  have hsome : ∀ t', (s₁.reopens.get? t').isSome =
      if t' = t then true else (s.reopens.get? t').isSome := by
    intro t'
    simp only [s₁, AssocMap.get?_set]
    split <;> rfl
  change Tidy env (if (s.reopens.get? t).isSome then s₁
    else (s₁.pushFront env (.reopen t)).tryStart env t) extra
  split
  · next hinflight =>
    refine ⟨fun r ↦ ?_, h.queued, hwait, hsub, h.flag, h.active, h.undone⟩
    have hb := h.balance r
    have hexp : s₁.expected r = s.expected r := by
      cases r with
      | reopen t' =>
        simp only [expected, hsome]
        split
        · next ht => rw [ht, hinflight]
        · rfl
      | client | compact | cleanExpired | localGc => rfl
    rw [hpending, hexp]
    exact hb
  · next hnone =>
    refine Tidy.tryStart (s := s₁.pushFront env (.reopen t)) ⟨fun r ↦ ?_, fun t' r hr ↦ ?_, hwait,
      hsub, fun t' ↦ ?_, h.active, h.undone⟩ t
    · have hb := h.balance r
      have hexp : (s₁.pushFront env (.reopen t)).expected r =
          s.expected r + [reopen t].count r := by
        cases r with
        | reopen t' =>
          simp only [pushFront, expected, hsome]
          by_cases ht : t' = t
          · simp [ht, hnone]
          · simp [ht, Ne.symm ht]
        | client | compact | cleanExpired | localGc =>
          rw [count_singleton, beq_false_of_ne (by simp)]
          rfl
      rw [pending_pushFront, hpending, hexp]
      change s.pending env r + _ + s.completed r = _
      omega
    · rw [pushFront_waiting] at hr
      split at hr
      · next ht =>
        obtain rfl | hr := mem_cons.1 hr
        · exact ⟨ht.symm, rfl⟩
        · exact ht ▸ h.queued _ r hr
      · exact h.queued t' r hr
    · rw [pushFront_running]
      exact h.flag t'

theorem Tidy.countOom (r : ShardRequest τ) :
    (s.countOom r).Tidy env extra := by
  cases r <;> exact ⟨h.balance, h.queued, h.waiting, h.inHand, h.flag, h.active, h.undone⟩

theorem Tidy.countReopen (r : ShardRequest τ) :
    (s.countReopen r).Tidy env extra := by
  cases r <;> exact ⟨h.balance, h.queued, h.waiting, h.inHand, h.flag, h.active, h.undone⟩

end

/-- A submission is taken in hand before its task is freed. -/
theorem Tidy.takeInHand (h : s.Tidy env []) {f : Frame τ} (hf : f.inHand = some r₀)
    (hclient : ∃ id, r₀ = .client id) (hstack : s.stack = .run r₀ :: rest) :
    ({ s with stack := f :: rest } : Shard τ).Tidy env [r₀] := by
  have hin : (f :: rest).filterMap Frame.inHand = r₀ :: s.stack.filterMap Frame.inHand := by
    rw [hstack, filterMap_cons_some hf]
    rfl
  refine ⟨fun r ↦ ?_, h.queued, h.waiting, fun r hr ↦ ?_, h.flag, h.active, h.undone⟩
  · have hb := h.balance r
    have hc := count_cons_eq r r₀ (s.stack.filterMap Frame.inHand)
    simp only [pending, Shard.waiting, waiters, completed.eq_def, expected.eq_def, hin,
      count_nil] at hb ⊢
    omega
  · rw [hin] at hr
    obtain rfl | hr := mem_cons.1 hr
    · exact hclient
    · exact h.inHand r hr

/-- A request of a running task that is on the books. -/
theorem Tidy.expected_pos (h : s.Tidy env []) (hr : r₀ ∈ s.tasks) : 0 < s.expected r₀ := by
  have hb := h.balance r₀
  have hc := count_pos_iff.2 hr
  simp only [pending, count_nil] at hb
  omega

theorem ite_mem_erase (hl : l.Nodup) (h : r₀ = r → r ∈ l) :
    (if r ∈ l then 1 else 0) = (if r ∈ l.erase r₀ then 1 else 0) + [r₀].count r := by
  by_cases heq : r₀ = r
  · subst heq
    rw [if_pos (h rfl), if_neg hl.not_mem_erase, count_singleton_self]
  · rw [count_singleton, beq_false_of_ne heq,
      if_congr (mem_erase_of_ne (Ne.symm heq)) rfl rfl]
    rfl

/-- **A submission or a background request is completed.** -/
theorem Tidy.complete (h : s.Tidy env []) (hr : r₀ ∈ s.tasks) (hne : ∀ t, r₀ ≠ .reopen t)
    (err : KvError) :
    ({ s with done := s.done ++ [(r₀, err)], undone := s.undone.erase r₀ } : Shard τ).Tidy env
      [r₀] := by
  refine ⟨fun r ↦ ?_, h.queued, h.waiting, h.inHand, h.flag, h.active, h.undone.erase _⟩
  have hb := h.balance r
  change s.pending env r + _ = _
  rw [count_nil] at hb
  -- a background request was on the list, and is not any more
  have hundone : (r₀ = r → r ∈ s.undone) → (if r ∈ s.undone then 1 else 0) =
      (if r ∈ s.undone.erase r₀ then 1 else 0) + [r₀].count r := ite_mem_erase h.undone
  cases r with
  | client id =>
    simp only [completed, expected, map_append, count_append] at hb ⊢
    change _ + (_ + [r₀].count _) = _
    omega
  | reopen t =>
    rw [count_singleton, beq_false_of_ne (hne t)]
    exact hb
  | compact t | cleanExpired t | localGc t =>
    have hlist := hundone fun heq ↦ by
      have hpos := h.expected_pos hr
      rw [heq, expected] at hpos
      · exact Decidable.of_not_not fun hno ↦ by simp [hno] at hpos
      all_goals simp
    simp only [completed, expected] at hb ⊢
    omega

theorem waiters_erase (t' : τ) :
    ({ s with reopens := s.reopens.erase t } : Shard τ).waiters t' =
      if t' = t then [] else s.waiters t' := by
  rw [waiters, get?_erase]
  split <;> rfl

theorem Tidy.count_divided (h : s.Tidy env extra) (t : τ) (p : ShardRequest τ → Bool)
    (r : ShardRequest τ) :
    ((s.waiters t).filter p).count r + ((s.waiters t).filter fun r ↦ !p r).count r +
      (if env.tableOf r = t then [] else s.waiters (env.tableOf r)).count r =
        (s.waiters (env.tableOf r)).count r := by
  have hperm := (filter_append_perm p (s.waiters t)).count_eq r
  rw [count_append] at hperm
  split
  · next ht =>
    rw [ht, count_nil]
    exact hperm
  · next ht =>
    have hzero : (s.waiters t).count r = 0 :=
      count_eq_zero.2 fun hr ↦ ht (h.waiting t r hr).1
    omega

theorem Tidy.count_waiters (h : s.Tidy env extra) (t : τ) (p : ShardRequest τ → Bool)
    (hr : ∀ id, r ≠ .client id) : ((s.waiters t).filter p).count r = 0 := by
  refine count_eq_zero.2 fun hmem ↦ ?_
  obtain ⟨id, hid⟩ := (h.waiting t r (mem_of_mem_filter hmem)).2
  exact hr id hid

/-- **An automatic reopen is completed**: its waiters are sent again or completed. -/
theorem Tidy.reopened (h : s.Tidy env []) (hr : .reopen t ∈ s.tasks) (err : KvError)
    (resend : ShardRequest τ → Bool) :
    (reopened { s with
        done := s.done ++ [(.reopen t, err)]
        undone := s.undone.erase (.reopen t) } t err resend).Tidy env [.reopen t] := by
  let p : ShardRequest τ → Bool := fun r ↦ decide (err = .noError) && resend r
  obtain ⟨s', hs'⟩ : ∃ s', s' = Shard.reopened { s with
    done := s.done ++ [(.reopen t, err)]
    undone := s.undone.erase (.reopen t) } t err resend := ⟨_, rfl⟩
  have hwaiters : ∀ t', s'.waiters t' = if t' = t then [] else s.waiters t' := by
    rw [hs']
    exact waiters_erase
  have hpending : ∀ r, s'.pending env r + ((s.waiters t).filter fun r ↦ !p r).count r =
      s.pending env r := by
    intro r
    have hdiv := h.count_divided t p r
    have hreq : s'.requests.count r = s.requests.count r + ((s.waiters t).filter p).count r := by
      rw [hs']
      exact count_append
    rw [pending, hwaiters, hreq, pending, hs']
    simp only [Shard.reopened, Shard.waiting]
    omega
  rw [← hs']
  refine ⟨fun r ↦ ?_, ?_, fun t' r hr ↦ ?_, ?_, ?_, ?_, ?_⟩
  · have hb := h.balance r
    have hp := hpending r
    rw [count_nil] at hb
    cases r with
    | client j =>
      have hdone : s'.completed (.client j) = s.completed (.client j) +
          ((s.waiters t).filter fun r ↦ !p r).count (.client j) := by
        rw [hs', completed]
        simp only [Shard.reopened, map_append, List.map_map, count_append]
        change _ + [reopen t].count _ + (List.map id _).count _ = _
        rw [List.map_id, count_singleton, beq_false_of_ne (by simp)]
        rfl
      have hexp : s'.expected (.client j) = s.expected (.client j) := by rw [hs']; rfl
      rw [hexp, hdone, count_singleton, beq_false_of_ne (by simp)]
      change _ = _ + 0
      omega
    | reopen t' =>
      have hzero := h.count_waiters t (fun r ↦ !p r) (r := .reopen t') (by simp)
      have hexp : s.expected (.reopen t') =
          s'.expected (.reopen t') + [reopen t].count (.reopen t') := by
        rw [hs']
        simp only [expected, Shard.reopened, AssocMap.get?_erase]
        by_cases ht : t' = t
        · subst ht
          have hpos := h.expected_pos hr
          rw [expected] at hpos
          split at hpos
          · next hsome => simp [hsome]
          · cases hpos
        · simp [ht, Ne.symm ht]
      simp only [completed] at hb ⊢
      omega
    | compact t' | cleanExpired t' | localGc t' =>
      rw [h.count_waiters t (fun r ↦ !p r) (by simp)] at hp
      have hundone : s'.undone = s.undone.erase (.reopen t) := by rw [hs']; rfl
      rw [count_singleton, beq_false_of_ne (by simp)]
      simp only [completed, expected] at hb ⊢
      rw [hundone, if_congr (mem_erase_of_ne (by simp)) rfl rfl]
      change _ = _ + 0
      omega
  · rw [hs']
    exact h.queued
  · rw [hwaiters] at hr
    split at hr
    · cases hr
    · exact h.waiting t' r hr
  · rw [hs']
    exact h.inHand
  · rw [hs']
    exact h.flag
  · rw [hs']
    exact h.active
  · rw [hs']
    exact h.undone.erase _

/-- **How a request fares when its task returns**: until the task is freed, it is counted once too
often. -/
theorem Tidy.settle (h : s.Tidy env []) (hr : r₀ ∈ s.tasks) (hstack : s.stack = .run r₀ :: rest)
    (err : KvError) (resend : ShardRequest τ → Bool) :
    ({ (s.settle env r₀ err resend).1 with
        stack := (s.settle env r₀ err resend).2 ++ rest } : Shard τ).Tidy env [r₀] := by
  rw [Shard.settle]
  split
  · next hoom =>
    cases r₀ with
    | client id => exact (h.takeInHand (f := .retry _) rfl ⟨id, rfl⟩ hstack).countOom (.client id)
    | compact | cleanExpired | localGc | reopen => exact absurd hoom.2 (by simp [oomLeft])
  · split
    · next hreopen =>
      cases r₀ with
      | client id =>
        exact (h.takeInHand (f := .reopen _) rfl ⟨id, rfl⟩ hstack).countReopen (.client id)
      | compact | cleanExpired | localGc | reopen =>
        exact absurd hreopen.2.2.1 (by simp [reopenLeft])
    · have hrest : rest.filterMap Frame.inHand = s.stack.filterMap Frame.inHand := by
        rw [hstack]
        rfl
      cases r₀ with
      | reopen t => exact (h.reopened hr err resend).setStack hrest
      | client | compact | cleanExpired | localGc =>
        exact (h.complete hr (by simp) err).setStack hrest

/-- The queue of a partition whose task is freed: gone if nothing waits. -/
def freeQueue (queues : AssocMap τ (WriteQueue τ)) (t : τ) (q : WriteQueue τ) :
    AssocMap τ (WriteQueue τ) :=
  if q.waiting = [] then queues.erase t else queues.set t { q with running := false }

theorem freeQueue_waiting {q : WriteQueue τ} (hq : s.queues.get? t = some q) (t' : τ) :
    ({ s with queues := freeQueue s.queues t q } : Shard τ).waiting t' = s.waiting t' := by
  rw [freeQueue]
  split
  · next hnil =>
    rw [waiting, get?_erase, waiting]
    split
    · next ht =>
      rw [ht, hq]
      exact hnil.symm
    · rfl
  · rw [waiting_set]
    split
    · next ht =>
      rw [ht, waiting, hq]
      rfl
    · rfl

theorem freeQueue_running (q : WriteQueue τ) (t' : τ) :
    ({ s with queues := freeQueue s.queues t q } : Shard τ).running t' =
      if t' = t then false else s.running t' := by
  rw [freeQueue]
  split
  · rw [running, get?_erase]
    split <;> rfl
  · rw [running_set]

theorem onTaskFinished_cases {order : List τ} (h : s.onTaskFinished env r₀ order rest = some s') :
    ((env.typeOf r₀).readOnly = true ∧ s' = { s with tasks := s.tasks.erase r₀, stack := rest }) ∨
    (env.typeOf r₀).readOnly = false ∧ ∃ q, s.queues.get? (env.tableOf r₀) = some q ∧
      order.Perm ((freeQueue s.queues (env.tableOf r₀) q).pairs.map (·.1)) ∧
      s' = { s with
        queues := freeQueue s.queues (env.tableOf r₀) q
        tasks := s.tasks.erase r₀
        numActiveWrite := s.numActiveWrite - (env.typeOf r₀).takesWriteTask.toNat
        stack := .dispatch order :: rest } := by
  rw [onTaskFinished] at h
  split at h
  · next hr => exact .inl ⟨hr, (some.inj h).symm⟩
  · next hr =>
    obtain ⟨q, hq, h⟩ := bind_eq_some_iff.1 h
    obtain ⟨hperm, h⟩ := ite_none_right_eq_some.1 h
    exact .inr ⟨Bool.eq_false_iff.2 hr, q, hq, hperm, (some.inj h).symm⟩

theorem Tidy.free {order : List τ} (h : ({ s with stack := rest } : Shard τ).Tidy env [r₀])
    (hr : r₀ ∈ s.tasks) (hf : s.onTaskFinished env r₀ order rest = some s') : s'.Tidy env [] := by
  have hperm : (s.tasks ++ s.stranded).Perm (r₀ :: (s.tasks.erase r₀ ++ s.stranded)) :=
    (perm_cons_erase hr).append_right _
  have hcount := count_erase_add hr
  have hflag : ∀ t, (s.tasks.erase r₀ ++ s.stranded).countP (writes env t) +
      (writes env t r₀).toNat = (s.running t).toNat := fun t ↦ by
    refine Eq.trans ?_ (h.flag t)
    rw [hperm.countP_eq, countP_cons]
    cases writes env t r₀ <;> rfl
  have hactive : s.numActiveWrite = ((s.tasks.erase r₀ ++ s.stranded).countP fun r ↦
      (env.typeOf r).takesWriteTask) + (env.typeOf r₀).takesWriteTask.toNat := by
    refine h.active.trans ?_
    rw [hperm.countP_eq, countP_cons]
    cases (env.typeOf r₀).takesWriteTask <;> rfl
  obtain ⟨hread, rfl⟩ | ⟨hwrite, q, hq, -, rfl⟩ := onTaskFinished_cases hf
  · refine ⟨fun r ↦ ?_, h.queued, h.waiting, h.inHand, fun t ↦ ?_, ?_, h.undone⟩
    · have hb := h.balance r
      have hc := hcount r
      simp only [pending, Shard.waiting, waiters, completed.eq_def, expected.eq_def,
        count_nil] at hb ⊢
      omega
    · have ht := hflag t
      rw [show writes env t r₀ = false by simp [writes, hread]] at ht
      exact ht
    · rw [show (env.typeOf r₀).takesWriteTask = false by
        simp [RequestType.takesWriteTask, hread]] at hactive
      exact hactive
  · have hwait := freeQueue_waiting hq
    refine ⟨fun r ↦ ?_, fun t r hr ↦ ?_, h.waiting, h.inHand, fun t ↦ ?_, ?_, h.undone⟩
    · have hb := h.balance r
      have hc := hcount r
      have hw := hwait (env.tableOf r)
      simp only [Shard.waiting] at hw
      simp only [pending, Shard.waiting, waiters, completed.eq_def, expected.eq_def, hw,
        filterMap_cons, Frame.inHand, count_nil] at hb ⊢
      omega
    · exact h.queued t r ((hwait t) ▸ hr)
    · have ht := hflag t
      change _ = (({ s with queues := freeQueue s.queues (env.tableOf r₀) q } : Shard τ).running
        t).toNat
      rw [freeQueue_running]
      split
      · next heq =>
        rw [show writes env t r₀ = true by simp [writes, hwrite, heq]] at ht
        have hle := Bool.toNat_le (s.running t)
        change _ + 1 = _ at ht
        change List.countP _ (s.tasks.erase r₀ ++ s.stranded) = 0
        omega
      · next hne =>
        rw [show writes env t r₀ = false by simp [writes, Ne.symm hne]] at ht
        exact ht
    · exact Nat.sub_eq_of_eq_add hactive

/-! ### The calls that have not returned -/

section Settle

variable {err : KvError} {resend : ShardRequest τ → Bool}

/-- Until its task is freed, a request that is settled leaves the tasks and the queues alone. -/
theorem settle_frame : (s.settle env r₀ err resend).1.tasks = s.tasks ∧
    (s.settle env r₀ err resend).1.stranded = s.stranded ∧
    (s.settle env r₀ err resend).1.queues = s.queues ∧
    (s.settle env r₀ err resend).1.numActiveWrite = s.numActiveWrite := by
  rw [settle]
  split
  · cases r₀ <;> exact ⟨rfl, rfl, rfl, rfl⟩
  · split <;> cases r₀ <;> exact ⟨rfl, rfl, rfl, rfl⟩

theorem settle_calls : ∀ f ∈ (s.settle env r₀ err resend).2, f = .retry r₀ ∨ f = .reopen r₀ := by
  rw [settle]
  split
  · exact fun f hf ↦ .inl (mem_singleton.1 hf)
  · split
    · exact fun f hf ↦ .inr (mem_singleton.1 hf)
    · exact by simp

end Settle

variable (s) in
/-- Only the innermost call can be a task that runs, and its request is one of the tasks. -/
structure Framed : Prop where
  tasks : ∀ {r rest}, s.stack = .run r :: rest → r ∈ s.tasks
  /-- The calls it has interrupted are not tasks. -/
  tail : ∀ r, .run r ∉ s.stack.tail

omit [DecidableEq τ] in
theorem Framed.of_not_mem (h : ∀ r, .run r ∉ s.stack) : s.Framed :=
  ⟨fun {r _} hstack ↦ absurd (hstack ▸ mem_cons_self) (h r),
    fun r hr ↦ h r (mem_of_mem_tail hr)⟩

theorem Framed.tryStart (h : ∀ r, .run r ∉ s.stack) (t : τ) : (s.tryStart env t).Framed := by
  have hspec := tryStart_spec env s t
  generalize Shard.tryStart env s t = s' at hspec ⊢
  cases hspec with
  | none => exact .of_not_mem h
  | start r rest hq hr =>
    refine ⟨fun hstack ↦ ?_, h⟩
    cases hstack
    exact mem_cons_self
  | strand => exact .of_not_mem h

omit [DecidableEq τ] in
/-- Below the call at the head there is none that is a task. -/
theorem Framed.not_mem (h : s.Framed) {f : Frame τ} (hstack : s.stack = f :: rest)
    (r : ShardRequest τ) : .run r ∉ rest := by
  have htail := h.tail r
  rw [hstack] at htail
  exact htail

/-- **Every step keeps the calls in order.** -/
theorem Framed.step (h : s.Framed) {e : ShardEvent τ} (he : e.Effect env s s') : s'.Framed := by
  cases he with
  | accept hid => exact ⟨h.tasks, h.tail⟩
  | read hstack hi hr =>
    refine ⟨fun heq ↦ ?_, fun r ↦ by simp [hstack]⟩
    cases heq
    exact mem_cons_self
  | write hstack hi hr => exact .tryStart (fun r ↦ by simp [pushBack, hstack]) _
  | resume hstack hr =>
    refine ⟨fun heq ↦ ?_, fun r ↦ by simp⟩
    cases heq
    exact hr
  | yield hstack => exact .of_not_mem (h.not_mem hstack)
  | addPending => exact ⟨h.tasks, h.tail⟩
  | @finish r₀ rest err order resend _ hstack hf =>
    have hcalls : ∀ r, .run r ∉ (s.settle env r₀ err resend).2 ++ rest := fun r hr ↦ by
      obtain hr | hr := mem_append.1 hr
      · exact absurd (settle_calls _ hr) (by simp)
      · exact h.not_mem hstack r hr
    obtain ⟨-, rfl⟩ | ⟨-, q, -, -, rfl⟩ := onTaskFinished_cases hf
    · exact .of_not_mem hcalls
    · exact .of_not_mem fun r hr ↦ hcalls r (by simpa using hr)
  | leave hstack => exact .of_not_mem (h.not_mem hstack)
  | next hstack =>
    exact .tryStart (fun r hr ↦ h.not_mem hstack r (by simpa using hr)) _
  | sendBack hstack => exact .of_not_mem (h.not_mem hstack)
  | attach hstack =>
    rw [enqueueForAutoReopen]
    split
    · exact .of_not_mem (h.not_mem hstack)
    · exact .tryStart (h.not_mem hstack) _

/-- **Every step keeps the books in order.** -/
theorem Tidy.step (h : s.Tidy env []) (hframed : s.Framed) {e : ShardEvent τ}
    (he : e.Effect env s s') : s'.Tidy env [] := by
  cases he with
  | accept hid => exact h.accept hid _ _
  | read hstack hi hr => exact h.startRead hi hr
  | write hstack hi hr => exact (h.requeue hi hr).tryStart _
  | resume hstack hr => exact h.setStack (by rw [hstack]; rfl)
  | yield hstack => exact h.setStack (by rw [hstack]; rfl)
  | addPending hstack hr₀ hr ht hnew => exact h.addPending hr hnew
  | finish hstack hf =>
    have hmem := hframed.tasks hstack
    exact (h.settle hmem hstack _ _).free (by rw [settle_frame.1]; exact hmem) hf
  | leave hstack => exact h.setStack (by rw [hstack]; rfl)
  | next hstack => exact (h.setStack (by rw [hstack]; rfl)).tryStart _
  | sendBack hstack => exact h.sendBack hstack
  | attach hstack => exact h.attach hstack

variable (env) in
theorem Tidy.init : ({} : Shard τ).Tidy env [] :=
  ⟨fun r ↦ by cases r <;> rfl, fun _ _ hr ↦ absurd hr not_mem_nil,
    fun _ _ hr ↦ absurd hr not_mem_nil, by simp, fun _ ↦ rfl, rfl, nodup_nil⟩

omit [DecidableEq τ] in
theorem Framed.init : ({} : Shard τ).Framed := .of_not_mem (by simp)

end Shard

open Shard in
/-- **The books are in order in every state of every run.** -/
theorem ShardRuns.tidy {τ : Type} [DecidableEq τ] {env : ShardEnv τ} {s : Shard τ}
    {G : Shard τ → ShardEvent τ → Prop} (h : ShardRuns env G s) : s.Tidy env [] ∧ s.Framed :=
  h.invariant (fun s ↦ s.Tidy env [] ∧ s.Framed) ⟨.init env, .init⟩ fun hinv _ hstep ↦ by
    have heffect := ShardEvent.effect hstep
    exact ⟨hinv.1.step hinv.2 heffect, hinv.2.step heffect⟩

end EloqStore
