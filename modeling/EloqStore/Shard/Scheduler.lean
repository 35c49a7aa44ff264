import EloqStore.Foundation.AssocMap
import EloqStore.Foundation.Transition
import EloqStore.Types

/-!
# The scheduler of a shard

A shard runs the requests of its partitions on one thread. Requests arrive in `requests_`. A reading
one gets a task at once; a writing one joins the queue of its partition, and the queues are served
one task at a time, as far as there are write tasks left (`max_write_concurrency`). Tasks are
coroutines: one that is started or resumed runs until it yields or is finished.

Four functions call each other: `TryStartPendingWrite` starts a task, which may finish before it
yields; `OnTaskFinished` then frees it and calls `TryDispatchPendingWrites`, which goes through all
queues again, and at its end sends the request back (out of memory) or attaches it to an automatic
reopen of the partition (a missing file), which is itself a request at the head of the partition's
queue. The calls that have not returned are kept on a stack (`Frame`), so that each step of the
model is what happens between two points where a task could yield or finish.

What a task does is not followed, only how it ends: the error it returns, and the compactions,
cleanings and collections it asks for on its way. A client's request is one submission; `accept` is
`SendRequest` on any other thread.
-/

namespace EloqStore

/-! ### Requests -/

/-- The types of the requests that reach a shard. -/
inductive RequestType
  | read
  | floor
  | scan
  | listObject
  | listStandbyPartition
  | batchWrite (entries : ℕ)
  | reopen
  | truncate
  | drop
  | archive
  | compact
  | localGc
  | cleanExpired
  | createBranch
  | deleteBranch
deriving DecidableEq, Repr

namespace RequestType

/-- The request does not go through a queue of writes. -/
def readOnly : RequestType → Bool
  | .read | .floor | .scan | .listObject | .listStandbyPartition => true
  | _ => false

/-- A missing file makes the partition be reopened for it. -/
def autoReopenRetry : RequestType → Bool
  | .read | .floor | .scan => true
  | _ => false

/-- It takes a task of which there is a limited number: `GetBatchWriteTask` or
`GetBackgroundWrite`. -/
def takesWriteTask (type : RequestType) : Bool := !type.readOnly && type != .reopen

end RequestType

/-- A request on a shard. The shard's own ones are parts of the partition's queue, or of its state
of reopening, so there is one of each kind. -/
inductive ShardRequest (τ : Type)
  | client (id : ℕ)
  | compact (table : τ)
  | cleanExpired (table : τ)
  | localGc (table : τ)
  /-- The automatic reopen of a partition. -/
  | reopen (table : τ)
deriving DecidableEq, Repr

instance {τ : Type} [DecidableEq τ] : LawfulBEq (ShardRequest τ) := inferInstance

/-- One of the requests a write task adds to its own queue. -/
def ShardRequest.isBackground {τ : Type} : ShardRequest τ → Bool
  | .compact _ | .cleanExpired _ | .localGc _ => true
  | _ => false

/-- What is fixed while a shard runs. -/
structure ShardEnv (τ : Type) where
  table : ℕ → τ
  type : ℕ → RequestType
  maxWriteConcurrency : ℕ
  /-- The store is one that reopens partitions: cloud, or standby replica. -/
  reopens : Bool
  /-- How often a submission is retried when it ran out of memory. -/
  oomRetryTimes : ℕ
  /-- How often a partition is reopened for a submission. -/
  reopenRetryTimes : ℕ

namespace ShardEnv

variable {τ : Type} (env : ShardEnv τ)

def tableOf : ShardRequest τ → τ
  | .client id => env.table id
  | .compact t | .cleanExpired t | .localGc t | .reopen t => t

def typeOf : ShardRequest τ → RequestType
  | .client id => env.type id
  | .compact _ => .compact
  | .cleanExpired _ => .cleanExpired
  | .localGc _ => .localGc
  | .reopen _ => .reopen

def writeLimit : ℕ := if env.maxWriteConcurrency = 0 then 2 ^ 64 - 1 else env.maxWriteConcurrency

end ShardEnv

/-! ### The state -/

/-- The queue of a partition's writes. -/
structure WriteQueue (τ : Type) where
  /-- A task of the partition has been started. -/
  running : Bool := false
  waiting : List (ShardRequest τ) := []
deriving DecidableEq, Repr

/-- A call that has not returned. -/
inductive Frame (τ : Type)
  /-- The task of a request is running. -/
  | run (r : ShardRequest τ)
  /-- `TryDispatchPendingWrites`, with the partitions it has not come to yet. -/
  | dispatch (tables : List τ)
  /-- The end of `OnTaskFinished`: the request is sent back. -/
  | retry (r : ShardRequest τ)
  /-- The end of `OnTaskFinished`: the request is to wait for a reopen. -/
  | reopen (r : ShardRequest τ)
deriving DecidableEq, Repr

/-- The request a call has in hand. -/
def Frame.inHand {τ : Type} : Frame τ → Option (ShardRequest τ)
  | .retry r | .reopen r => some r
  | .run _ | .dispatch _ => none

/-- The partitions a call will come to. -/
def Frame.tables {τ : Type} : Frame τ → List τ
  | .dispatch tables => tables
  | _ => []

/-- **A shard.** -/
structure Shard (τ : Type) where
  requests : List (ShardRequest τ) := []
  /-- `pending_queues_`. -/
  queues : AssocMap τ (WriteQueue τ) := .empty
  tasks : List (ShardRequest τ) := []
  /-- The requests for which a task was taken that was never started. -/
  stranded : List (ShardRequest τ) := []
  numActiveWrite : ℕ := 0
  /-- `pending_reopens_`: the requests that wait for the reopen of a partition. -/
  reopens : AssocMap τ (List (ShardRequest τ)) := .empty
  /-- The calls that have not returned, the innermost first. -/
  stack : List (Frame τ) := []
  /-- The background requests that have been added and are not done. -/
  undone : List (ShardRequest τ) := []
  /-- The retries that are left to each submission. -/
  oomRetry : ℕ → ℕ := fun _ ↦ 0
  /-- The reopens that are left to each submission. -/
  reopenRetry : ℕ → ℕ := fun _ ↦ 0
  accepted : List ℕ := []
  done : List (ShardRequest τ × KvError) := []
  waited : List (ShardRequest τ) := []
  /-- Those that were sent again after it. -/
  resent : List (ShardRequest τ) := []
  refused : List (ShardRequest τ) := []

namespace Shard

variable {τ : Type} [DecidableEq τ] (env : ShardEnv τ) (s : Shard τ)

/-- The requests that wait in the queue of a partition. -/
def waiting (t : τ) : List (ShardRequest τ) := ((s.queues.get? t).map (·.waiting)).getD []

/-- The running flag of a partition. -/
def running (t : τ) : Bool := ((s.queues.get? t).map (·.running)).getD false

/-- The requests that wait for the reopen of a partition. -/
def waiters (t : τ) : List (ShardRequest τ) := (s.reopens.get? t).getD []

variable (r : ShardRequest τ) (err : KvError) (resend : ShardRequest τ → Bool)

/-- `PendingWriteQueue::PushBack`, on the queue of the request's partition, which is made if there
is none. -/
def pushBack : Shard τ :=
  let q := (s.queues.get? (env.tableOf r)).getD {}
  { s with queues := s.queues.set (env.tableOf r) { q with waiting := q.waiting ++ [r] } }

/-- `PendingWriteQueue::PushFront`, likewise. -/
def pushFront : Shard τ :=
  let q := (s.queues.get? (env.tableOf r)).getD {}
  { s with queues := s.queues.set (env.tableOf r) { q with waiting := r :: q.waiting } }

/-- `TryStartPendingWrite`. A request that gets no task is put back where it was. -/
def tryStart (t : τ) : Shard τ :=
  match s.queues.get? t with
  | some ⟨false, r :: rest⟩ =>
    if (env.typeOf r).takesWriteTask ∧ env.writeLimit ≤ s.numActiveWrite then s
    else
      let s' := { s with
        queues := s.queues.set t ⟨true, rest⟩
        numActiveWrite := s.numActiveWrite + (env.typeOf r).takesWriteTask.toNat }
      -- an empty batch gets a task, which is not started
      if env.typeOf r = .batchWrite 0 then { s' with stranded := r :: s.stranded }
      else { s' with tasks := r :: s.tasks, stack := .run r :: s.stack }
  | _ => s

def onReceivedReq : Shard τ :=
  if (env.typeOf r).readOnly then { s with tasks := r :: s.tasks, stack := .run r :: s.stack }
  else (s.pushBack env r).tryStart env (env.tableOf r)

def enqueueForAutoReopen : Shard τ :=
  let t := env.tableOf r
  let s' := { s with
    reopens := s.reopens.set t (s.waiters t ++ [r])
    waited := s.waited ++ [r] }
  if (s.reopens.get? t).isSome then s' else (s'.pushFront env (.reopen t)).tryStart env t

/-- The callback of an automatic reopen: its waiters are sent again, or failed with its error. What
`SendRequest` returns for each of them is `resend`. -/
def reopened (t : τ) (err : KvError) (resend : ShardRequest τ → Bool) : Shard τ :=
  let back := (s.waiters t).filter fun r ↦ decide (err = .noError) && resend r
  let out := (s.waiters t).filter fun r ↦ !(decide (err = .noError) && resend r)
  { s with
    reopens := s.reopens.erase t
    requests := s.requests ++ back
    done := s.done ++ out.map fun r ↦ (r, if err = .noError then .notRunning else err)
    resent := s.resent ++ back
    refused := s.refused ++ out }

def setDone : Shard τ :=
  let s' := { s with done := s.done ++ [(r, err)], undone := s.undone.erase r }
  match r with
  | .reopen t => s'.reopened t err resend
  | _ => s'

/-- The retries that are left to a request; the shard's own ones have none. -/
def oomLeft : ShardRequest τ → ℕ
  | .client id => s.oomRetry id
  | _ => 0

def reopenLeft : ShardRequest τ → ℕ
  | .client id => s.reopenRetry id
  | _ => 0

def countOom : ShardRequest τ → Shard τ
  | .client id => { s with oomRetry := Function.update s.oomRetry id (s.oomRetry id - 1) }
  | _ => s

def countReopen : ShardRequest τ → Shard τ
  | .client id => { s with reopenRetry := Function.update s.reopenRetry id (s.reopenRetry id - 1) }
  | _ => s

/-- How a request fares when its task returns: it is completed, or the call that is to deal with it
at the end of `OnTaskFinished`. -/
def settle : Shard τ × List (Frame τ) :=
  if err = .outOfMem ∧ 0 < s.oomLeft r then (s.countOom r, [.retry r])
  else if err = .resourceMissing ∧ (env.typeOf r).autoReopenRetry ∧ 0 < s.reopenLeft r ∧
      env.reopens then
    (s.countReopen r, [.reopen r])
  else (s.setDone r err resend, [])

/-- `OnTaskFinished` up to its first call, with the calls that follow. The order in which the queues
are gone through is that of a hash table. -/
def onTaskFinished (order : List τ) (rest : List (Frame τ)) : Option (Shard τ) :=
  let t := env.tableOf r
  if (env.typeOf r).readOnly then some { s with tasks := s.tasks.erase r, stack := rest }
  else
    (s.queues.get? t).bind fun q ↦
      let queues := if q.waiting = [] then s.queues.erase t
        else s.queues.set t { q with running := false }
      if order.Perm (queues.pairs.map (·.1)) then
        some { s with
          queues := queues
          tasks := s.tasks.erase r
          numActiveWrite := s.numActiveWrite - (env.typeOf r).takesWriteTask.toNat
          stack := .dispatch order :: rest }
      else none

end Shard

/-! ### Steps -/

/-- What can happen on a shard. -/
inductive ShardEvent (τ : Type)
  | accept (id : ℕ)
  /-- A request is taken from `requests_`. -/
  | receive (i : ℕ)
  /-- A task that has yielded goes on. -/
  | resume (r : ShardRequest τ)
  | yield
  /-- The running task adds a background request for its partition, which has none of the kind. -/
  | addPending (r : ShardRequest τ)
  /-- The running task returns an error, or none. -/
  | finish (err : KvError) (order : List τ) (resend : ShardRequest τ → Bool)
  | proceed

def ShardEvent.step {τ : Type} [DecidableEq τ] (env : ShardEnv τ) (s : Shard τ) :
    ShardEvent τ → Option (Shard τ)
  | .accept id =>
    if id ∈ s.accepted then none
    else some { s with
      accepted := id :: s.accepted
      requests := s.requests ++ [.client id]
      oomRetry := Function.update s.oomRetry id env.oomRetryTimes
      reopenRetry := Function.update s.reopenRetry id env.reopenRetryTimes }
  | .receive i =>
    match s.stack with
    | [] => (s.requests[i]?).map fun r ↦
        Shard.onReceivedReq env { s with requests := s.requests.eraseIdx i } r
    | _ :: _ => none
  | .resume r =>
    match s.stack with
    | [] => if r ∈ s.tasks then some { s with stack := [.run r] } else none
    | _ :: _ => none
  | .yield =>
    match s.stack with
    | .run _ :: rest => some { s with stack := rest }
    | _ => none
  | .addPending r =>
    match s.stack with
    | .run r₀ :: _ =>
      if (env.typeOf r₀).readOnly = false ∧ r.isBackground ∧ env.tableOf r = env.tableOf r₀ ∧
          r ∉ s.undone then
        some (Shard.pushBack env { s with undone := r :: s.undone } r)
      else none
    | _ => none
  | .finish err order resend =>
    match s.stack with
    | .run r :: rest =>
      let (s', tail) := s.settle env r err resend
      s'.onTaskFinished env r order (tail ++ rest)
    | _ => none
  | .proceed =>
    match s.stack with
    | .dispatch [] :: rest => some { s with stack := rest }
    | .dispatch (t :: ts) :: rest =>
      some (Shard.tryStart env { s with stack := .dispatch ts :: rest } t)
    | .retry r :: rest => some { s with stack := rest, requests := s.requests ++ [r] }
    | .reopen r :: rest => some (Shard.enqueueForAutoReopen env { s with stack := rest } r)
    | _ => none

/-- **What each step does.** -/
inductive ShardEvent.Effect {τ : Type} [DecidableEq τ] (env : ShardEnv τ) (s : Shard τ) :
    ShardEvent τ → Shard τ → Prop
  | accept {id : ℕ} (hid : id ∉ s.accepted) :
    Effect env s (.accept id) { s with
      accepted := id :: s.accepted
      requests := s.requests ++ [.client id]
      oomRetry := Function.update s.oomRetry id env.oomRetryTimes
      reopenRetry := Function.update s.reopenRetry id env.reopenRetryTimes }
  | read {i : ℕ} {r : ShardRequest τ} (hstack : s.stack = []) (hi : s.requests[i]? = some r)
    (hr : (env.typeOf r).readOnly = true) :
    Effect env s (.receive i) { s with
      requests := s.requests.eraseIdx i
      tasks := r :: s.tasks
      stack := .run r :: s.stack }
  | write {i : ℕ} {r : ShardRequest τ} (hstack : s.stack = []) (hi : s.requests[i]? = some r)
    (hr : (env.typeOf r).readOnly = false) :
    Effect env s (.receive i) ((Shard.pushBack env
      { s with requests := s.requests.eraseIdx i } r).tryStart env (env.tableOf r))
  | resume {r : ShardRequest τ} (hstack : s.stack = []) (hr : r ∈ s.tasks) :
    Effect env s (.resume r) { s with stack := [.run r] }
  | yield {r : ShardRequest τ} {rest : List (Frame τ)} (hstack : s.stack = .run r :: rest) :
    Effect env s .yield { s with stack := rest }
  | addPending {r r₀ : ShardRequest τ} {rest : List (Frame τ)} (hstack : s.stack = .run r₀ :: rest)
    (hr₀ : (env.typeOf r₀).readOnly = false) (hr : r.isBackground = true)
    (ht : env.tableOf r = env.tableOf r₀) (hnew : r ∉ s.undone) :
    Effect env s (.addPending r) (Shard.pushBack env { s with undone := r :: s.undone } r)
  | finish {r : ShardRequest τ} {rest : List (Frame τ)} {err : KvError} {order : List τ}
    {resend : ShardRequest τ → Bool} {s' : Shard τ} (hstack : s.stack = .run r :: rest)
    (hf : (s.settle env r err resend).1.onTaskFinished env r order
      ((s.settle env r err resend).2 ++ rest) = some s') :
    Effect env s (.finish err order resend) s'
  | leave {rest : List (Frame τ)} (hstack : s.stack = .dispatch [] :: rest) :
    Effect env s .proceed { s with stack := rest }
  | next {t : τ} {ts : List τ} {rest : List (Frame τ)}
    (hstack : s.stack = .dispatch (t :: ts) :: rest) :
    Effect env s .proceed (Shard.tryStart env { s with stack := .dispatch ts :: rest } t)
  | sendBack {r : ShardRequest τ} {rest : List (Frame τ)} (hstack : s.stack = .retry r :: rest) :
    Effect env s .proceed { s with stack := rest, requests := s.requests ++ [r] }
  | attach {r : ShardRequest τ} {rest : List (Frame τ)} (hstack : s.stack = .reopen r :: rest) :
    Effect env s .proceed (Shard.enqueueForAutoReopen env { s with stack := rest } r)

theorem ShardEvent.effect {τ : Type} [DecidableEq τ] {env : ShardEnv τ} {s s' : Shard τ}
    {e : ShardEvent τ} (h : e.step env s = some s') : e.Effect env s s' := by
  cases e with
  | accept id =>
    obtain ⟨hid, h⟩ := Option.ite_none_left_eq_some.1 h
    cases h
    exact .accept hid
  | receive i =>
    rw [step] at h
    split at h
    · next hstack =>
      obtain ⟨r, hi, rfl⟩ := Option.map_eq_some_iff.1 h
      rw [Shard.onReceivedReq]
      split
      · next hr => exact .read hstack hi hr
      · next hr => exact .write hstack hi (Bool.eq_false_iff.2 hr)
    · cases h
  | resume r =>
    rw [step] at h
    split at h
    · next hstack =>
      obtain ⟨hr, rfl⟩ := Option.ite_some_none_eq_some.1 h
      exact .resume hstack hr
    · cases h
  | yield =>
    rw [step] at h
    split at h
    · next hstack =>
      cases h
      exact .yield hstack
    · cases h
  | addPending r =>
    rw [step] at h
    split at h
    · next hstack =>
      obtain ⟨⟨hr₀, hr, ht, hnew⟩, rfl⟩ := Option.ite_some_none_eq_some.1 h
      exact .addPending hstack hr₀ hr ht hnew
    · cases h
  | finish err order resend =>
    rw [step] at h
    split at h
    · next hstack => exact .finish hstack h
    · cases h
  | proceed =>
    rw [step] at h
    split at h
    · next hstack =>
      cases h
      exact .leave hstack
    · next hstack =>
      cases h
      exact .next hstack
    · next hstack =>
      cases h
      exact .sendBack hstack
    · next hstack =>
      cases h
      exact .attach hstack
    · cases h

/-- The states a shard goes through, from an empty one. -/
def ShardRuns {τ : Type} [DecidableEq τ] (env : ShardEnv τ)
    (G : Shard τ → ShardEvent τ → Prop) : Shard τ → Prop :=
  Transition.Reach (fun s e t ↦ ShardEvent.step env s e = some t) G {}

end EloqStore
