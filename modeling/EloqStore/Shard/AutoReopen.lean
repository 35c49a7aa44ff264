import EloqStore.Shard.Dispatch

/-!
# Automatic reopens

A read that finds a file of its snapshot missing makes its shard reopen the partition, and waits;
`EnqueueForAutoReopen` starts a reopen only if none of the partition is in flight, and when it ends
its callback sends the reads that wait again, or fails them. What has to do with reopens is a small
part of the state of a shard, the ledger below, and most steps leave it alone.

`Accounts` says that the ledger is right: every time a request has waited it has been sent again, or
failed, or is waiting still; and the number of times is what is missing from its budget. With the
books of `Custody`, by which a request is in one place, this gives what is asked of the reopens
(`ReopensOnce`), in every state of every run.
-/

namespace EloqStore

open AssocMap Function List Shard Frame

/-- The request that a call is about to make wait for a reopen. -/
def Frame.attaching {τ : Type} : Frame τ → Option (ShardRequest τ)
  | .reopen r => some r
  | .run _ | .dispatch _ | .retry _ => none

/-- **What has to do with reopens** in the state of a shard. -/
structure ReopenLedger (τ : Type) where
  requests : List (ShardRequest τ)
  /-- `pending_reopens_`. -/
  reopens : AssocMap τ (List (ShardRequest τ))
  accepted : List ℕ
  done : List (ShardRequest τ × KvError)
  waited : List (ShardRequest τ)
  /-- Those that were sent again after it. -/
  resent : List (ShardRequest τ)
  refused : List (ShardRequest τ)
  /-- The reopens that are left to each submission. -/
  reopenRetry : ℕ → ℕ
  attaching : List (ShardRequest τ)

/-- The part of a shard that has to do with reopens. -/
def Shard.ledger {τ : Type} (s : Shard τ) : ReopenLedger τ where
  requests := s.requests
  reopens := s.reopens
  accepted := s.accepted
  done := s.done
  waited := s.waited
  resent := s.resent
  refused := s.refused
  reopenRetry := s.reopenRetry
  attaching := s.stack.filterMap attaching

namespace ReopenLedger

variable {τ : Type} [DecidableEq τ] (env : ShardEnv τ) (L : ReopenLedger τ)

/-- The requests that wait for the reopen of a partition. -/
def waiters (t : τ) : List (ShardRequest τ) := (L.reopens.get? t).getD []

/-- **The ledger is right.** -/
structure Accounts : Prop where
  clients : ∀ r ∈ L.requests, ∃ id, r = .client id
  /-- A request that has waited has been sent again, or failed, or is waiting. -/
  answered : ∀ r, L.waited.count r =
    L.resent.count r + L.refused.count r + (L.waiters (env.tableOf r)).count r
  refused : ∀ r, L.refused.count r ≤ (L.done.map (·.1)).count r
  known : ∀ r ∈ L.waited, ∃ id ∈ L.accepted, r = .client id
  budget : ∀ id ∈ L.accepted, L.reopenRetry id + L.waited.count (.client id) +
    L.attaching.count (.client id) = env.reopenRetryTimes

variable {env L} {r : ShardRequest τ} {t : τ} {id : ℕ}

variable (h : L.Accounts env)

include h

theorem Accounts.setRequests {requests : List (ShardRequest τ)}
    (hreq : ∀ r ∈ requests, ∃ id, r = .client id) :
    ({ L with requests := requests } : ReopenLedger τ).Accounts env :=
  ⟨hreq, h.answered, h.refused, h.known, h.budget⟩

theorem Accounts.accept (hid : id ∉ L.accepted) (hattach : L.attaching.count (.client id) = 0) :
    ({ L with
        accepted := id :: L.accepted
        requests := L.requests ++ [.client id]
        reopenRetry := Function.update L.reopenRetry id env.reopenRetryTimes } :
      ReopenLedger τ).Accounts env := by
  refine ⟨fun r hr ↦ ?_, h.answered, h.refused, fun r hr ↦ ?_, fun j hj ↦ ?_⟩
  · obtain hr | hr := mem_append.1 hr
    · exact h.clients r hr
    · exact ⟨id, mem_singleton.1 hr⟩
  · obtain ⟨j, hj, rfl⟩ := h.known r hr
    exact ⟨j, mem_cons_of_mem _ hj, rfl⟩
  · change update L.reopenRetry id env.reopenRetryTimes j + L.waited.count (.client j) +
      L.attaching.count (.client j) = env.reopenRetryTimes
    by_cases heq : j = id
    · have hwaited : L.waited.count (.client id) = 0 := count_eq_zero.2 fun hmem ↦ by
        obtain ⟨k, hk, hkid⟩ := h.known _ hmem
        cases hkid
        exact hid hk
      rw [heq, update_self, hwaited, hattach]
      rfl
    · rw [update_of_ne heq]
      exact h.budget j ((mem_cons.1 hj).resolve_left heq)

/-- **A reopen is taken from the budget** of a submission, which is then to wait. -/
theorem Accounts.count (hpos : 0 < L.reopenRetry id) :
    ({ L with
        reopenRetry := Function.update L.reopenRetry id (L.reopenRetry id - 1)
        attaching := .client id :: L.attaching } : ReopenLedger τ).Accounts env := by
  refine ⟨h.clients, h.answered, h.refused, h.known, fun j hj ↦ ?_⟩
  have hb := h.budget j hj
  change update L.reopenRetry id (L.reopenRetry id - 1) j + L.waited.count (.client j) +
    (ShardRequest.client id :: L.attaching).count (.client j) = env.reopenRetryTimes
  by_cases heq : j = id
  · subst heq
    rw [update_self, count_cons_self]
    omega
  · rw [update_of_ne heq, count_cons_of_ne (by simpa using Ne.symm heq)]
    exact hb

theorem Accounts.attach {rest : List (ShardRequest τ)} (hattach : L.attaching = r :: rest)
    (hr : ∃ id ∈ L.accepted, r = .client id) :
    ({ L with
        reopens := L.reopens.set (env.tableOf r) (L.waiters (env.tableOf r) ++ [r])
        waited := L.waited ++ [r]
        attaching := rest } : ReopenLedger τ).Accounts env := by
  refine ⟨h.clients, fun r' ↦ ?_, h.refused, fun r' hr' ↦ ?_, fun id hid ↦ ?_⟩
  · have ha := h.answered r'
    have hwait : ((L.reopens.set (env.tableOf r) (L.waiters (env.tableOf r) ++ [r])).get?
        (env.tableOf r')).getD [] = if env.tableOf r' = env.tableOf r
          then L.waiters (env.tableOf r) ++ [r] else L.waiters (env.tableOf r') := by
      rw [get?_set]
      split <;> rfl
    change (L.waited ++ [r]).count r' = L.resent.count r' + L.refused.count r' + List.count r' _
    rw [waiters, hwait, count_append, ha]
    split
    · next ht =>
      rw [ht, count_append]
      omega
    · next ht =>
      have hne : r ≠ r' := fun heq ↦ ht (by rw [heq])
      rw [count_singleton, beq_false_of_ne hne]
      rfl
  · obtain hr' | hr' := mem_append.1 hr'
    · exact h.known r' hr'
    · exact mem_singleton.1 hr' ▸ hr
  · have hb := h.budget id hid
    rw [hattach, count_cons_eq] at hb
    change _ + (L.waited ++ [r]).count _ + rest.count _ = _
    rw [count_append]
    change L.reopenRetry id + _ + _ = _
    omega

theorem Accounts.complete (x : ShardRequest τ × KvError) :
    ({ L with done := L.done ++ [x] } : ReopenLedger τ).Accounts env := by
  refine ⟨h.clients, h.answered, fun r ↦ ?_, h.known, h.budget⟩
  rw [map_append, count_append]
  exact Nat.le_add_right_of_le (h.refused r)

/-- **A reopen ends**: those that wait for it are divided up. -/
theorem Accounts.reopened (hwait : ∀ t, ∀ r ∈ L.waiters t, env.tableOf r = t ∧ ∃ id, r = .client id)
    (p : ShardRequest τ → Bool) (err : KvError) :
    ({ L with
        reopens := L.reopens.erase t
        requests := L.requests ++ (L.waiters t).filter p
        done := L.done ++ ((L.waiters t).filter fun r ↦ !p r).map fun r ↦ (r, err)
        resent := L.resent ++ (L.waiters t).filter p
        refused := L.refused ++ (L.waiters t).filter fun r ↦ !p r } :
      ReopenLedger τ).Accounts env := by
  refine ⟨fun r hr ↦ ?_, fun r ↦ ?_, fun r ↦ ?_, h.known, h.budget⟩
  · obtain hr | hr := mem_append.1 hr
    · exact h.clients r hr
    · exact (hwait t r (mem_of_mem_filter hr)).2
  · have ha := h.answered r
    have hperm := (filter_append_perm p (L.waiters t)).count_eq r
    rw [count_append] at hperm
    have hleft : ((L.reopens.erase t).get? (env.tableOf r)).getD [] =
        if env.tableOf r = t then [] else L.waiters (env.tableOf r) := by
      rw [get?_erase]
      split <;> rfl
    change L.waited.count r = (L.resent ++ _).count r + (L.refused ++ _).count r +
      (((L.reopens.erase t).get? (env.tableOf r)).getD []).count r
    rw [hleft, count_append, count_append]
    split
    · next ht =>
      rw [ht] at ha
      rw [count_nil]
      omega
    · next ht =>
      have hzero : (L.waiters t).count r = 0 :=
        count_eq_zero.2 fun hr ↦ ht (hwait t r hr).1
      omega
  · have hle := h.refused r
    rw [map_append, map_map, count_append, count_append]
    change _ ≤ _ + (map id _).count r
    rw [map_id]
    omega

end ReopenLedger

namespace Shard

variable {τ : Type} [DecidableEq τ] {env : ShardEnv τ} {s : Shard τ} {r r₀ : ShardRequest τ} {t : τ}

/-! ### The steps -/

theorem tryStart_ledger (env : ShardEnv τ) (s : Shard τ) (t : τ) :
    (s.tryStart env t).ledger = s.ledger := by
  have hspec := tryStart_spec env s t
  generalize tryStart env s t = s' at hspec ⊢
  cases hspec <;> rfl

/-- A task that is freed leaves the ledger alone, but for the calls that follow. -/
theorem onTaskFinished_ledger {order : List τ} {rest : List (Frame τ)} {s' : Shard τ}
    (h : s.onTaskFinished env r₀ order rest = some s') :
    s'.ledger = ({ s with stack := rest } : Shard τ).ledger := by
  obtain ⟨-, rfl⟩ | ⟨-, q, -, -, rfl⟩ := onTaskFinished_cases h <;> rfl

theorem Tidy.accepted_of_inHand (h : s.Tidy env []) (hr : r ∈ s.stack.filterMap Frame.inHand) :
    ∃ id ∈ s.accepted, r = .client id := by
  obtain ⟨id, rfl⟩ := h.inHand r hr
  refine ⟨id, ?_, rfl⟩
  have hb := h.balance (.client id)
  have hc := count_pos_iff.2 hr
  by_contra hid
  rw [pending, expected, if_neg hid, count_nil] at hb
  omega

omit [DecidableEq τ] in
theorem inHand_of_attaching {stack : List (Frame τ)} (h : r ∈ stack.filterMap attaching) :
    r ∈ stack.filterMap inHand := by
  obtain ⟨f, hf, hr⟩ := mem_filterMap.1 h
  refine mem_filterMap.2 ⟨f, hf, ?_⟩
  cases f with
  | reopen => exact hr
  | run | dispatch | retry => simp [attaching] at hr

/-- How a request fares when its task returns, on the ledger. -/
theorem accounts_settle (h : s.ledger.Accounts env) (htidy : s.Tidy env []) {rest : List (Frame τ)}
    (hstack : s.stack = .run r₀ :: rest) (err : KvError) (resend : ShardRequest τ → Bool) :
    ({ (s.settle env r₀ err resend).1 with
        stack := (s.settle env r₀ err resend).2 ++ rest } : Shard τ).ledger.Accounts env := by
  have hledger : ({ s with stack := rest } : Shard τ).ledger = s.ledger := by
    rw [ledger, ledger, hstack]
    rfl
  rw [← hledger] at h
  rw [settle]
  split
  · cases r₀ <;> exact h
  · split
    · next hreopen =>
      cases r₀ with
      | client id => exact h.count hreopen.2.2.1
      | compact | cleanExpired | localGc | reopen =>
        exact absurd hreopen.2.2.1 (by simp [reopenLeft])
    · cases r₀ with
      | reopen t => exact (h.complete (.reopen t, err)).reopened htidy.waiting _ _
      | client | compact | cleanExpired | localGc => exact h.complete _

/-- **Every step keeps the ledger right.** -/
theorem accounts_step (h : s.ledger.Accounts env) (htidy : s.Tidy env []) {e : ShardEvent τ}
    {s' : Shard τ} (he : e.Effect env s s') : s'.ledger.Accounts env := by
  cases he with
  | @accept id hid =>
    refine h.accept hid (count_eq_zero.2 fun hmem ↦ ?_)
    obtain ⟨j, hj, heq⟩ := htidy.accepted_of_inHand (inHand_of_attaching hmem)
    cases heq
    exact hid hj
  | read hstack hi hr =>
    exact h.setRequests fun r hmem ↦ h.clients r (mem_of_mem_eraseIdx hmem)
  | write hstack hi hr =>
    rw [tryStart_ledger]
    exact h.setRequests fun r hmem ↦ h.clients r (mem_of_mem_eraseIdx hmem)
  | resume hstack hr =>
    rw [ledger, hstack] at h
    exact h
  | yield hstack | leave hstack =>
    rw [ledger, hstack] at h
    exact h
  | addPending => exact h
  | finish hstack hf =>
    rw [onTaskFinished_ledger hf]
    exact accounts_settle h htidy hstack _ _
  | next hstack =>
    rw [tryStart_ledger]
    rw [ledger, hstack] at h
    exact h
  | @sendBack r rest hstack =>
    have hclient := htidy.inHand r (by rw [hstack]; exact mem_cons_self)
    rw [ledger, hstack] at h
    exact h.setRequests fun r' hmem ↦ (mem_append.1 hmem).elim (h.clients r')
      fun hmem ↦ mem_singleton.1 hmem ▸ hclient
  | @attach r rest hstack =>
    have haccepted := htidy.accepted_of_inHand (r := r) (by rw [hstack]; exact mem_cons_self)
    have hattach : s.ledger.attaching = r :: rest.filterMap Frame.attaching := by
      rw [ledger, hstack]
      rfl
    have hacc := h.attach hattach haccepted
    rw [enqueueForAutoReopen]
    split
    · exact hacc
    · rw [tryStart_ledger]
      exact hacc

/-! ### Those that wait -/

/-- A request that waits for a reopen waits on when its task returns, unless the task is the reopen:
then it is sent again or completed. -/
theorem waiters_settle (env : ShardEnv τ) (r₀ : ShardRequest τ) (hr : r ∈ s.waiters t)
    (err : KvError) (resend : ShardRequest τ → Bool) :
    r ∈ (s.settle env r₀ err resend).1.waiters t ∨
      r ∈ (s.settle env r₀ err resend).1.requests ∨
      r ∈ (s.settle env r₀ err resend).1.done.map (·.1) := by
  rw [settle]
  split
  · cases r₀ <;> exact .inl hr
  · split
    · cases r₀ <;> exact .inl hr
    · cases r₀ with
      | client | compact | cleanExpired | localGc => exact .inl hr
      | reopen t' =>
        by_cases ht : t = t'
        · subst ht
          refine .inr ?_
          cases hp : decide (err = .noError) && resend r with
          | true => exact .inl (mem_append_right _ (mem_filter.2 ⟨hr, hp⟩))
          | false =>
            refine .inr (mem_map.2 ⟨_, mem_append_right _ (mem_map_of_mem
              (mem_filter.2 ⟨hr, ?_⟩)), rfl⟩)
            rw [hp]
            rfl
        · refine .inl ?_
          have hleft := waiters_erase (s := s) (t := t') t
          rw [if_neg ht] at hleft
          exact hleft ▸ hr

/-- **A request that waits for a reopen waits on, or is sent again, or is completed.** -/
theorem waiters_step (hr : r ∈ s.waiters t) {e : ShardEvent τ} {s' : Shard τ}
    (he : e.Effect env s s') :
    r ∈ s'.waiters t ∨ r ∈ s'.requests ∨ r ∈ s'.done.map (·.1) := by
  have htry : ∀ (s' : Shard τ) t', r ∈ s'.waiters t →
      r ∈ (s'.tryStart env t').waiters t := fun s' t' hmem ↦ by
    change r ∈ (s'.tryStart env t').ledger.waiters t
    rw [tryStart_ledger]
    exact hmem
  cases he with
  | accept | read | resume | yield | addPending | leave | sendBack => exact .inl hr
  | write | next => exact .inl (htry _ _ hr)
  | @finish r₀ rest err order resend _ hstack hf =>
    have hledger := onTaskFinished_ledger hf
    have hsettle := waiters_settle env r₀ hr err resend
    change r ∈ s'.ledger.waiters t ∨ r ∈ s'.ledger.requests ∨ r ∈ s'.ledger.done.map (·.1)
    rw [hledger]
    exact hsettle
  | @attach r₀ rest hstack =>
    have hmem : r ∈ ({ s with
        stack := rest
        reopens := s.reopens.set (env.tableOf r₀) (s.waiters (env.tableOf r₀) ++ [r₀])
        waited := s.waited ++ [r₀] } : Shard τ).waiters t := by
      rw [waiters, get?_set]
      split
      · next ht => exact mem_append_left _ (ht ▸ hr)
      · exact hr
    rw [enqueueForAutoReopen]
    split
    · exact .inl hmem
    · exact .inl (htry _ _ hmem)

/-! ### What is asked of the reopens -/

variable (s) in
/-- How many reopens of a partition have been asked for and not completed. -/
def inFlight (t : τ) : ℕ := (s.waiting t).count (.reopen t) + s.tasks.count (.reopen t)

variable (env s) in
/-- **Reopens are as they should be.** -/
structure ReopensOnce : Prop where
  /-- A partition has at most one in flight. -/
  single : ∀ t, s.inFlight t ≤ 1
  waiting : ∀ t, ∀ r ∈ s.waiters t, s.inFlight t = 1
  /-- A request that has waited has been sent again or failed, once for each time it has waited, or
  is waiting still. -/
  answered : ∀ r, s.waited.count r =
    s.resent.count r + s.refused.count r + (s.waiters (env.tableOf r)).count r
  failed : ∀ r ∈ s.refused,
    s.refused.count r = 1 ∧ (s.done.map (·.1)).count r = 1 ∧ s.held env r = 0
  /-- Its budget is smaller by one for each time. -/
  budget : ∀ id ∈ s.accepted, s.reopenRetry id + s.waited.count (.client id) +
    s.ledger.attaching.count (.client id) = env.reopenRetryTimes

variable (env s) in
/-- The request is among those that are to be processed, and nowhere else. -/
def SentAgain (r : ShardRequest τ) : Prop :=
  s.requests.count r = 1 ∧ s.held env r = 1 ∧ (s.done.map (·.1)).count r = 0

variable (env s) in
/-- The request has been completed once, and is not on the shard any more. -/
def CompletedOnce (r : ShardRequest τ) : Prop :=
  s.held env r = 0 ∧ (s.done.map (·.1)).count r = 1

/-- The only places of a reopen are the queue of its partition and the tasks. -/
theorem Tidy.inFlight_eq (h : s.Tidy env []) (hacc : s.ledger.Accounts env)
    (hstranded : ∀ r ∈ s.stranded, env.typeOf r = .batchWrite 0) (t : τ) :
    s.inFlight t = if (s.reopens.get? t).isSome then 1 else 0 := by
  have hb := h.balance (.reopen t)
  have hrequests : s.requests.count (.reopen t) = 0 := count_eq_zero.2 fun hmem ↦ by
    obtain ⟨id, hid⟩ := hacc.clients _ hmem
    cases hid
  have hstrand : s.stranded.count (.reopen t) = 0 := count_eq_zero.2 fun hmem ↦
    absurd (hstranded _ hmem) (by simp [ShardEnv.typeOf])
  have hhand : (s.stack.filterMap Frame.inHand).count (.reopen t) = 0 :=
    count_eq_zero.2 fun hmem ↦ by
      obtain ⟨id, hid⟩ := h.inHand _ hmem
      cases hid
  have hwait : (s.waiters t).count (.reopen t) = 0 := count_eq_zero.2 fun hmem ↦ by
    obtain ⟨-, id, hid⟩ := h.waiting t _ hmem
    cases hid
  simp only [pending, ShardEnv.tableOf, completed, expected, count_nil] at hb
  rw [inFlight]
  omega

/-- A submission that waits, or has waited, was accepted: it is in one place, or completed once. -/
theorem Tidy.pending_add (h : s.Tidy env []) {id : ℕ} (hid : id ∈ s.accepted) :
    s.pending env (.client id) + (s.done.map (·.1)).count (.client id) = 1 := by
  have hb := h.balance (.client id)
  rw [expected, if_pos hid] at hb
  exact hb

theorem Tidy.accepted_of_waits (h : s.Tidy env []) (hr : r ∈ s.waiters t) :
    ∃ id ∈ s.accepted, r = .client id := by
  obtain ⟨ht, id, rfl⟩ := h.waiting t r hr
  refine ⟨id, ?_, rfl⟩
  have hb := h.balance (.client id)
  have hc := count_pos_iff.2 (ht ▸ hr)
  by_contra hid
  rw [pending, expected, if_neg hid, count_nil] at hb
  omega

/-- Where the books and the ledger are right, the reopens are as they should be. -/
theorem Tidy.reopensOnce (h : s.Tidy env []) (hacc : s.ledger.Accounts env)
    (hstranded : ∀ r ∈ s.stranded, env.typeOf r = .batchWrite 0) : s.ReopensOnce env := by
  have hflight := h.inFlight_eq hacc hstranded
  refine ⟨fun t ↦ ?_, fun t r hr ↦ ?_, hacc.answered, fun r hr ↦ ?_, hacc.budget⟩
  · rw [hflight]
    split <;> decide
  · rw [hflight, if_pos]
    rw [waiters] at hr
    cases hget : s.reopens.get? t with
    | none => simp [hget] at hr
    | some l => rfl
  · have hpos := count_pos_iff.2 hr
    have hle := hacc.refused r
    have hans := hacc.answered r
    change s.refused.count r ≤ (s.done.map (·.1)).count r at hle
    change s.waited.count r = s.resent.count r + s.refused.count r + _ at hans
    obtain ⟨id, hid, rfl⟩ := hacc.known r (count_pos_iff.1 (by
      change 0 < s.waited.count r
      omega))
    have hone := h.pending_add hid
    have hheld := held_add_stranded env s (.client id)
    exact ⟨by omega, by omega, by omega⟩

/-- **Automatic reopens, in every run of a shard.** A partition has at most one reopen in flight, no
request waits for one that is not, and each that waits is in the end sent again or failed, exactly
once; each wait is taken from its budget. The second part is what happens to it in one step. -/
theorem reopensOnce_of_runs {G : Shard τ → ShardEvent τ → Prop} (h : ShardRuns env G s) :
    s.ReopensOnce env ∧ ∀ e s', ShardEvent.step env s e = some s' → ∀ t, ∀ r ∈ s.waiters t,
      r ∈ s'.waiters t ∨ s'.SentAgain env r ∨ s'.CompletedOnce env r := by
  have hinv := h.invariant (fun s ↦ (s.Tidy env [] ∧ s.Framed) ∧ s.ledger.Accounts env ∧
      ∀ r ∈ s.stranded, env.typeOf r = .batchWrite 0)
    ⟨⟨.init env, .init⟩, ⟨by simp [ledger], fun r ↦ rfl, fun r ↦ le_rfl, by simp [ledger],
      by simp [ledger]⟩, by simp⟩
    fun {s e s'} ⟨⟨htidy, hframed⟩, hacc, hstranded⟩ _ hstep ↦ by
      have heffect := ShardEvent.effect hstep
      exact ⟨⟨htidy.step hframed heffect, hframed.step heffect⟩,
        accounts_step hacc htidy heffect, stranded_step hstranded heffect⟩
  obtain ⟨⟨htidy, hframed⟩, hacc, hstranded⟩ := hinv
  refine ⟨htidy.reopensOnce hacc hstranded, fun e s' hstep t r hr ↦ ?_⟩
  have heffect := ShardEvent.effect hstep
  obtain ⟨id, hid, rfl⟩ := htidy.accepted_of_waits hr
  -- it is still an accepted submission, and the books are in order after the step
  have hid' : id ∈ s'.accepted := by
    obtain hsame | ⟨j, -, hnew⟩ := accepted_step heffect
    · exact hsame ▸ hid
    · exact hnew ▸ mem_cons_of_mem _ hid
  have hone := (htidy.step hframed heffect).pending_add hid'
  have hheld := held_add_stranded env s' (.client id)
  obtain hstay | hsent | hdone := waiters_step hr heffect
  · exact .inl hstay
  · have hpos := count_pos_iff.2 hsent
    refine .inr (.inl ?_)
    rw [pending] at hone
    rw [held] at hheld
    rw [SentAgain, held]
    omega
  · have hpos := count_pos_iff.2 hdone
    refine .inr (.inr ?_)
    rw [CompletedOnce]
    omega

/-- Two reads find a file missing, one after the other: one reopen, for both, which fails for lack
of the file in the cloud. -/
theorem reopensOnce_of_runs_failed :
    ∃ (env : ShardEnv Unit) (s : Shard Unit), ShardRuns env (fun _ _ ↦ True) s ∧
      s.refused = [.client 0, .client 1] ∧ s.ReopensOnce env := by
  let env : ShardEnv Unit := ⟨fun _ ↦ (), fun _ ↦ .read, 1, true, 1, 1⟩
  obtain ⟨s, hrun, hs⟩ : ∃ s, ShardRuns env (fun _ _ ↦ True) s ∧
      s.refused = [.client 0, .client 1] :=
    Transition.exists_reach_of_exec
      [.accept 0, .receive 0, .finish .resourceMissing [] fun _ ↦ true, .proceed, .yield,
        .accept 1, .receive 0, .finish .resourceMissing [] fun _ ↦ true, .proceed,
        .resume (.reopen ()), .finish .notFound [] fun _ ↦ true]
      (by decide +kernel)
  exact ⟨env, s, hrun, hs, (reopensOnce_of_runs hrun).1⟩

end Shard

end EloqStore
