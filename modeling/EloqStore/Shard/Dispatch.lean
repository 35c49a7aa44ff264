import EloqStore.Shard.Custody

/-!
# No write waits without a reason

A partition that has writes in its queue is served: a task of it has been started, or there are no
write tasks left, or `TryDispatchPendingWrites` is going through the queues and has still to come to
it (`Dispatched`). The last case is over before the shard takes anything else up, since the calls on
its stack return first.

With the books of `Custody` this is all of what is asked of the scheduler (`Scheduled`), unless a
batch is empty. `ProcessReq` takes a task for it and does not start it, so that the running flag of
the partition stays up, the task is not given back, and the request is neither held nor completed:
every later write of the partition waits for ever (`empty_batch_strands`). Without empty batches the
scheduler does what it should in every run (`scheduled_of_nonempty`). A shard that comes to rest has
completed what it accepted (`done_of_drained`).
-/

namespace EloqStore

open List Shard

namespace Shard

variable {τ : Type} [DecidableEq τ] (env : ShardEnv τ) (s : Shard τ)

/-- A partition with writes in its queue is running, or there are no more write tasks, or it is due:
one of those that will be tried. -/
def Dispatched (due : List τ) : Prop :=
  ∀ t, s.waiting t ≠ [] →
    s.running t = true ∨ env.writeLimit ≤ s.numActiveWrite ∨ t ∈ due

/-- The partitions that the calls under way will come to. -/
def due : List τ := s.stack.flatMap Frame.tables

variable {env s} {r r₀ : ShardRequest τ} {t : τ} {ts : List τ}

/-- The running flag is up if there is a task, which may be one that was not started. -/
theorem Tidy.running_iff {extra : List (ShardRequest τ)} (h : s.Tidy env extra) :
    s.running t = true ↔ ∃ r ∈ s.tasks ++ s.stranded, writes env t r = true := by
  rw [← countP_pos_iff, h.flag t]
  cases s.running t <;> decide

variable {s' : Shard τ}

/-- Where only one partition's queue has grown, that one is due. -/
theorem Dispatched.push (h : s.Dispatched env ts)
    (hwait : ∀ t', t' ≠ t → s'.waiting t' = s.waiting t')
    (hrun : ∀ t', s'.running t' = s.running t') (hactive : s'.numActiveWrite = s.numActiveWrite) :
    s'.Dispatched env (t :: ts) := by
  intro t' ht'
  by_cases heq : t' = t
  · exact .inr (.inr (heq ▸ mem_cons_self))
  · rw [hwait t' heq] at ht'
    rw [hrun, hactive]
    exact (h t' ht').imp_right (.imp_right (mem_cons_of_mem t))

/-- **A partition that has been tried is not due any more.** -/
theorem Dispatched.tryStart (h : s.Dispatched env (t :: ts)) :
    (s.tryStart env t).Dispatched env ts := by
  have hspec := tryStart_spec env s t
  generalize Shard.tryStart env s t = s' at hspec ⊢
  -- once the task is taken, the flag is up
  have htake : ∀ rest r₀ (s' : Shard τ), s'.queues = s.queues.set t ⟨true, rest⟩ →
      s'.numActiveWrite = s.numActiveWrite + (env.typeOf r₀).takesWriteTask.toNat →
      s'.Dispatched env ts := by
    intro rest r₀ s' hqueues hactive t' ht'
    rw [Shard.waiting, hqueues, AssocMap.get?_set] at ht'
    rw [Shard.running, hqueues, AssocMap.get?_set, hactive]
    split at ht'
    · next heq => exact .inl (by rw [if_pos heq]; rfl)
    · next hne =>
      rw [if_neg hne]
      obtain hrun | hlimit | hdue := h t' ht'
      · exact .inl hrun
      · exact .inr (.inl (Nat.le_add_right_of_le hlimit))
      · exact .inr (.inr ((List.mem_cons.1 hdue).resolve_left hne))
  cases hspec with
  | none hwhy =>
    intro t' ht'
    obtain hrun | hlimit | hdue := h t' ht'
    · exact .inl hrun
    · exact .inr (.inl hlimit)
    · obtain rfl | hdue := List.mem_cons.1 hdue
      · obtain hnil | hrun | hlimit := hwhy
        · exact absurd hnil ht'
        · exact .inl hrun
        · exact .inr (.inl hlimit)
      · exact .inr (.inr hdue)
  | start r rest => exact htake rest r _ rfl rfl
  | strand r rest => exact htake rest r _ rfl rfl

/-- A call that is under way adds nothing when it starts a task. -/
theorem tryStart_due (env : ShardEnv τ) (s : Shard τ) (t : τ) : (s.tryStart env t).due = s.due := by
  have hspec := tryStart_spec env s t
  generalize tryStart env s t = s' at hspec ⊢
  cases hspec <;> rfl

omit [DecidableEq τ] in
theorem due_of_stack {f : Frame τ} {rest : List (Frame τ)} (hstack : s.stack = f :: rest) :
    s.due = f.tables ++ rest.flatMap Frame.tables := by
  rw [due, hstack, flatMap_cons]

theorem settle_tables {err : KvError} {resend : ShardRequest τ → Bool} :
    (s.settle env r₀ err resend).2.flatMap Frame.tables = [] := by
  refine flatMap_eq_nil_iff.2 fun f hf ↦ ?_
  obtain rfl | rfl := settle_calls f hf <;> rfl

/-- **A task is freed**: all queues will be gone through, or none has become ready. -/
theorem Dispatched.free {rest : List (Frame τ)} {order : List τ}
    (h : s.Dispatched env (rest.flatMap Frame.tables))
    (hf : s.onTaskFinished env r₀ order rest = some s') :
    s'.Dispatched env s'.due := by
  obtain ⟨-, rfl⟩ | ⟨-, q, -, horder, rfl⟩ := onTaskFinished_cases hf
  · exact h
  · intro t ht
    refine .inr (.inr (mem_flatMap.2 ⟨.dispatch order, mem_cons_self, ?_⟩))
    rw [waiting] at ht
    cases hget : (freeQueue s.queues (env.tableOf r₀) q).get? t with
    | none => simp [hget] at ht
    | some q' =>
      exact horder.mem_iff.2 (mem_map_of_mem (f := (·.1)) (mem_of_lookup hget))

/-- **Every step leaves every write that waits with a reason to.** -/
theorem Dispatched.step (h : s.Dispatched env s.due) (htidy : s.Tidy env []) (hframed : s.Framed)
    {e : ShardEvent τ} (he : e.Effect env s s') : s'.Dispatched env s'.due := by
  cases he with
  | accept | read => exact h
  | @write i r hstack hi hr =>
    rw [tryStart_due]
    refine Dispatched.tryStart (h.push (fun t' ht' ↦ ?_) (fun t' ↦ ?_) rfl)
    · rw [pushBack_waiting]
      exact if_neg ht'
    · rw [pushBack_running]
      rfl
  | resume hstack hr =>
    rw [due, hstack] at h
    exact h
  | yield hstack =>
    rw [due_of_stack hstack] at h
    exact h
  | @addPending r r₀ rest hstack hr₀ hr ht hnew =>
    -- the partition of the task that adds the request is running
    have hrun : s.running (env.tableOf r) = true := by
      rw [htidy.running_iff]
      exact ⟨r₀, mem_append_left _ (hframed.tasks hstack), by simp [writes, hr₀, ht]⟩
    intro t' ht'
    rw [pushBack_running]
    rw [pushBack_waiting] at ht'
    split at ht'
    · next heq => exact .inl (heq ▸ hrun)
    · exact h t' ht'
  | @finish r₀ rest err order resend _ hstack hf =>
    refine Dispatched.free ?_ hf
    have hqueues : (s.settle env r₀ err resend).1.queues = s.queues := settle_frame.2.2.1
    have hactive : (s.settle env r₀ err resend).1.numActiveWrite = s.numActiveWrite :=
      settle_frame.2.2.2
    rw [due_of_stack hstack] at h
    rw [flatMap_append, settle_tables, nil_append]
    intro t ht
    rw [waiting, hqueues] at ht
    rw [running, hqueues, hactive]
    exact h t ht
  | leave hstack =>
    rw [due_of_stack hstack] at h
    exact h
  | next hstack =>
    rw [tryStart_due]
    rw [due_of_stack hstack] at h
    exact Dispatched.tryStart h
  | sendBack hstack =>
    rw [due_of_stack hstack] at h
    exact h
  | @attach r rest hstack =>
    rw [due_of_stack hstack] at h
    rw [enqueueForAutoReopen]
    split
    · exact h
    · rw [tryStart_due]
      refine Dispatched.tryStart (h.push (fun t' ht' ↦ ?_) (fun t' ↦ ?_) rfl)
      · rw [pushFront_waiting]
        exact if_neg ht'
      · rw [pushFront_running]
        rfl

/-! ### What is asked of the scheduler -/

variable (env s) in
/-- How often a request is queued, running, or waiting for a retry or a reopen. -/
def held (r : ShardRequest τ) : ℕ :=
  s.requests.count r + (s.waiting (env.tableOf r)).count r + s.tasks.count r +
    (s.stack.filterMap Frame.inHand).count r + (s.waiters (env.tableOf r)).count r

theorem held_add_stranded (env : ShardEnv τ) (s : Shard τ) (r : ShardRequest τ) :
    s.held env r + s.stranded.count r = s.pending env r := by
  rw [held, pending]
  omega

variable (env s) in
/-- **The scheduler is as it should be.** -/
structure Scheduled : Prop where
  /-- A partition has at most one write task. -/
  single : ∀ t, s.tasks.countP (writes env t) ≤ 1
  flag : ∀ t, s.running t = true ↔ ∃ r ∈ s.tasks, writes env t r = true
  /-- A partition with writes in its queue is running, or there are no more write tasks, or the
  calls under way will come to it. -/
  served : ∀ t, s.waiting t ≠ [] →
    s.running t = true ∨ env.writeLimit ≤ s.numActiveWrite ∨ t ∈ s.due
  active : s.numActiveWrite = s.tasks.countP fun r ↦ (env.typeOf r).takesWriteTask
  once : ∀ id ∈ s.accepted,
    s.held env (.client id) + (s.done.map (·.1)).count (.client id) = 1
  /-- A compaction, cleaning or collection that was asked for is in one place until it is done. -/
  own : ∀ r, r.isBackground = true → s.held env r = if r ∈ s.undone then 1 else 0

/-- A task that was not started is one of an empty batch. -/
theorem stranded_step (h : ∀ r ∈ s.stranded, env.typeOf r = .batchWrite 0) {e : ShardEvent τ}
    (he : e.Effect env s s') : ∀ r ∈ s'.stranded, env.typeOf r = .batchWrite 0 := by
  have htry : ∀ {s' : Shard τ} (t : τ), s'.stranded = s.stranded →
      ∀ r ∈ (s'.tryStart env t).stranded, env.typeOf r = .batchWrite 0 := by
    intro s' t hs' r hr
    have hspec := tryStart_spec env s' t
    generalize tryStart env s' t = s'' at hspec hr
    cases hspec with
    | none | start => exact h r (hs' ▸ hr)
    | strand r₀ rest hq hempty =>
      obtain rfl | hr := mem_cons.1 hr
      · exact hempty
      · exact h r (hs' ▸ hr)
  cases he with
  | accept | read | resume | yield | addPending | leave | sendBack => exact h
  | write | next => exact htry _ rfl
  | attach =>
    rw [enqueueForAutoReopen]
    split
    · exact h
    · exact htry _ rfl
  | finish hstack hf =>
    obtain ⟨-, rfl⟩ | ⟨-, q, -, -, rfl⟩ := onTaskFinished_cases hf <;>
    · intro r hr
      rw [settle_frame.2.1] at hr
      exact h r hr

theorem tryStart_accepted (env : ShardEnv τ) (s : Shard τ) (t : τ) :
    (s.tryStart env t).accepted = s.accepted := by
  have hspec := tryStart_spec env s t
  generalize tryStart env s t = s' at hspec ⊢
  cases hspec <;> rfl

/-- Only `SendRequest` accepts a submission. -/
theorem accepted_step {e : ShardEvent τ} (he : e.Effect env s s') :
    s'.accepted = s.accepted ∨ ∃ id, e = .accept id ∧ s'.accepted = id :: s.accepted := by
  cases he with
  | accept => exact .inr ⟨_, rfl, rfl⟩
  | read | resume | yield | addPending | leave | sendBack => exact .inl rfl
  | write | next => exact .inl (tryStart_accepted _ _ _)
  | attach =>
    rw [enqueueForAutoReopen]
    split
    · exact .inl rfl
    · exact .inl (tryStart_accepted _ _ _)
  | @finish r₀ rest err order resend _ hstack hf =>
    have hsettle : (s.settle env r₀ err resend).1.accepted = s.accepted := by
      rw [settle]
      split
      · cases r₀ <;> rfl
      · split <;> cases r₀ <;> rfl
    obtain ⟨-, rfl⟩ | ⟨-, q, -, -, rfl⟩ := onTaskFinished_cases hf <;> exact .inl hsettle

/-- **Where no accepted batch is empty, every task is started.** -/
theorem Tidy.stranded_eq_nil (h : s.Tidy env [])
    (hstranded : ∀ r ∈ s.stranded, env.typeOf r = .batchWrite 0)
    (haccepted : ∀ id ∈ s.accepted, env.type id ≠ .batchWrite 0) : s.stranded = [] := by
  refine eq_nil_iff_forall_not_mem.2 fun r hr ↦ ?_
  have hempty := hstranded r hr
  cases r with
  | client id =>
    have hb := h.balance (.client id)
    have hc := count_pos_iff.2 hr
    by_cases hid : id ∈ s.accepted
    · exact haccepted id hid hempty
    · rw [pending, expected, if_neg hid, count_nil] at hb
      omega
  | compact | cleanExpired | localGc | reopen => simp [ShardEnv.typeOf] at hempty

/-- Where every task is started, the books and the dispatcher give all that is asked for. -/
theorem Tidy.scheduled (h : s.Tidy env []) (hserved : s.Dispatched env s.due)
    (hnil : s.stranded = []) : s.Scheduled env := by
  have hheld : ∀ r, s.held env r = s.pending env r := by
    intro r
    have hadd := held_add_stranded env s r
    rw [hnil] at hadd
    exact hadd
  refine ⟨fun t ↦ ?_, fun t ↦ ?_, hserved, ?_, fun id hid ↦ ?_, fun r hr ↦ ?_⟩
  · have hflag := h.flag t
    rw [hnil, append_nil] at hflag
    exact hflag ▸ Bool.toNat_le _
  · rw [h.running_iff, hnil, append_nil]
  · rw [h.active, hnil, append_nil]
  · have hb := h.balance (.client id)
    rw [expected, if_pos hid] at hb
    rw [hheld]
    exact hb
  · have hb := h.balance r
    rw [hheld]
    cases r with
    | client | reopen => simp [ShardRequest.isBackground] at hr
    | compact | cleanExpired | localGc => exact hb

/-- The step accepts no empty batch. -/
def NonemptyBatch (env : ShardEnv τ) (_ : Shard τ) : ShardEvent τ → Prop
  | .accept id => env.type id ≠ .batchWrite 0
  | _ => True

instance decidableNonemptyBatch (env : ShardEnv τ) (s : Shard τ) (e : ShardEvent τ) :
    Decidable (NonemptyBatch env s e) := by
  cases e <;> dsimp only [NonemptyBatch] <;> infer_instance

/-- **The scheduler of a shard does what it should, in every run in which no empty batch is
accepted**: for every order in which requests arrive, finish, fail and are retried, a partition has
at most one write task, its running flag says whether it has one, no write waits without a reason,
and every request is in one place, or has been completed once. -/
theorem scheduled_of_nonempty (h : ShardRuns env (NonemptyBatch env) s) : s.Scheduled env := by
  obtain ⟨htidy, -⟩ := ShardRuns.tidy h
  have hinv := h.invariant (fun s ↦ (s.Tidy env [] ∧ s.Framed) ∧ s.Dispatched env s.due ∧
      (∀ r ∈ s.stranded, env.typeOf r = .batchWrite 0) ∧
      ∀ id ∈ s.accepted, env.type id ≠ .batchWrite 0)
    ⟨⟨.init env, .init⟩, fun t ht ↦ absurd rfl ht, by simp, by simp⟩
    fun {s e s'} ⟨⟨htidy, hframed⟩, hserved, hstranded, haccepted⟩ hg hstep ↦ by
      have heffect := ShardEvent.effect hstep
      refine ⟨⟨htidy.step hframed heffect, hframed.step heffect⟩,
        hserved.step htidy hframed heffect, stranded_step hstranded heffect, ?_⟩
      obtain hsame | ⟨id, rfl, hnew⟩ := accepted_step heffect
      · rw [hsame]
        exact haccepted
      · rw [hnew]
        exact forall_mem_cons.2 ⟨hg, haccepted⟩
  obtain ⟨-, hserved, hstranded, haccepted⟩ := hinv
  exact htidy.scheduled hserved (htidy.stranded_eq_nil hstranded haccepted)

/-- A write of a partition, with the compaction it asks for, and a read that finds a file missing:
the read is back among the requests after the reopen of the partition. -/
theorem scheduled_of_nonempty_reopen :
    ∃ (env : ShardEnv Unit) (s : Shard Unit), ShardRuns env (NonemptyBatch env) s ∧
      s.accepted = [1, 0] ∧ s.resent = [.client 1] ∧ s.Scheduled env := by
  let env : ShardEnv Unit :=
    ⟨fun _ ↦ (), fun id ↦ if id = 0 then .batchWrite 1 else .read, 1, true, 1, 1⟩
  obtain ⟨s, hrun, haccepted, hresent⟩ : ∃ s, ShardRuns env (NonemptyBatch env) s ∧
      s.accepted = [1, 0] ∧ s.resent = [.client 1] :=
    Transition.exists_reach_of_exec
      [.accept 0, .receive 0, .addPending (.compact ()), .yield, .accept 1, .receive 0,
        .finish .resourceMissing [] fun _ ↦ true, .proceed, .resume (.client 0),
        .finish .noError [()] fun _ ↦ true, .proceed, .finish .noError [()] fun _ ↦ true]
      (by decide +kernel)
  exact ⟨env, s, hrun, haccepted, hresent, scheduled_of_nonempty hrun⟩

/-- **A shard that has nothing left to do has done everything**: once it has no requests and every
task it took has finished, no queue holds a write, nobody waits for a reopen, and each submission it
accepted has been completed once. -/
theorem done_of_drained {G : Shard τ → ShardEvent τ → Prop} (h : ShardRuns env G s)
    (hstack : s.stack = []) (hrequests : s.requests = []) (htasks : s.tasks ++ s.stranded = []) :
    (∀ t, s.waiting t = [] ∧ s.waiters t = []) ∧
      ∀ id ∈ s.accepted, (s.done.map (·.1)).count (.client id) = 1 := by
  obtain ⟨⟨htidy, -⟩, hserved⟩ := h.invariant
    (fun s ↦ (s.Tidy env [] ∧ s.Framed) ∧ s.Dispatched env s.due)
    ⟨⟨.init env, .init⟩, fun t ht ↦ absurd rfl ht⟩ fun ⟨⟨htidy, hframed⟩, hserved⟩ _ hstep ↦ by
      have heffect := ShardEvent.effect hstep
      exact ⟨⟨htidy.step hframed heffect, hframed.step heffect⟩,
        hserved.step htidy hframed heffect⟩
  have hwaiting : ∀ t, s.waiting t = [] := by
    intro t
    by_contra hne
    rcases hserved t hne with hrun | hfull | hdue
    · obtain ⟨r, hr, -⟩ := htidy.running_iff.1 hrun
      rw [htasks] at hr
      cases hr
    · rw [htidy.active, htasks, countP_nil, ShardEnv.writeLimit] at hfull
      split at hfull <;> omega
    · rw [due, hstack] at hdue
      cases hdue
  have hpending : ∀ r, s.pending env r = (s.waiters (env.tableOf r)).count r := by
    simp [pending, hrequests, hwaiting, append_eq_nil_iff.1 htasks, hstack]
  have hwaiters : ∀ t, s.waiters t = [] := by
    intro t
    -- a reopen under way is itself on the shard, and those that wait for it are submissions
    have hb := htidy.balance (.reopen t)
    have hnot : .reopen t ∉ s.waiters t := fun hr ↦ by
      obtain ⟨-, id, hid⟩ := htidy.waiting t _ hr
      cases hid
    rw [hpending, ShardEnv.tableOf, count_eq_zero.2 hnot, expected] at hb
    split at hb
    · cases hb
    · next hnone => rw [waiters, Option.not_isSome_iff_eq_none.1 hnone, Option.getD_none]
  refine ⟨fun t ↦ ⟨hwaiting t, hwaiters t⟩, fun id hid ↦ ?_⟩
  have hb := htidy.balance (.client id)
  rw [hpending, hwaiters, count_nil, Nat.zero_add, expected, if_pos hid] at hb
  exact hb

/-- A read that finds a file missing is completed once, after the reopen of its partition. -/
theorem done_of_drained_reopen : ∃ s : Shard Unit, s.resent = [.client 0] ∧
    (s.done.map (·.1)).count (.client 0) = 1 := by
  obtain ⟨s, hrun, hresent, hstack, hrequests, htasks, hid⟩ : ∃ s,
      ShardRuns ⟨fun _ ↦ (), fun _ ↦ .read, 1, true, 1, 1⟩ (fun _ _ ↦ True) s ∧
        s.resent = [.client 0] ∧ s.stack = [] ∧ s.requests = [] ∧ s.tasks ++ s.stranded = [] ∧
        0 ∈ s.accepted :=
    Transition.exists_reach_of_exec
      [.accept 0, .receive 0, .finish .resourceMissing [] fun _ ↦ true, .proceed,
        .finish .noError [] fun _ ↦ true, .proceed, .receive 0, .finish .noError [] fun _ ↦ true]
      (by decide +kernel)
  exact ⟨s, hresent, (done_of_drained hrun hstack hrequests htasks).2 0 hid⟩

/-- **An empty batch is lost**: the running flag of its partition is up and there is no task; the
submission is in no place and has not been completed. -/
theorem empty_batch_strands :
    ∃ (env : ShardEnv Unit) (s : Shard Unit), ShardRuns env (fun _ _ ↦ True) s ∧
      s.running () = true ∧ s.tasks = [] ∧ s.accepted = [0] ∧ s.held env (.client 0) = 0 ∧
      s.done = [] ∧ ¬ s.Scheduled env := by
  let env : ShardEnv Unit := ⟨fun _ ↦ (), fun _ ↦ .batchWrite 0, 1, false, 1, 1⟩
  obtain ⟨s, hrun, hflag, htasks, haccepted, hheld, hdone⟩ : ∃ s, ShardRuns env (fun _ _ ↦ True) s ∧
      s.running () = true ∧ s.tasks = [] ∧ s.accepted = [0] ∧ s.held env (.client 0) = 0 ∧
      s.done = [] :=
    Transition.exists_reach_of_exec [.accept 0, .receive 0] (by decide +kernel)
  refine ⟨env, s, hrun, hflag, htasks, haccepted, hheld, hdone, fun hok ↦ ?_⟩
  obtain ⟨r, hr, -⟩ := (hok.flag ()).1 hflag
  rw [htasks] at hr
  exact absurd hr not_mem_nil

end Shard

end EloqStore
