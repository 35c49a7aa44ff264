import EloqStore.Foundation.Tally
import EloqStore.Partition.CachedPages

/-!
# Looking up a page

`FindPage` gives a task a handle to the cached page of a logical page of a snapshot. If the slot of
the snapshot has no pointer, it takes a cached page (`AllocPage`, which may evict one), puts a
pointer to it into the slot, and reads; the task yields while the read is in flight. A task that
finds the pointer in the meantime pins the page, and waits in its `waiting_`. When the read ends
all of them are woken: after a success each looks at the slot once more, after a failure each takes
its pin off, and the last one frees the page.

The tasks run on one thread, so what happens between two yields is one step. The order of the
active list, by which `AllocPage` chooses a page to evict, is not followed: any page that is active
and not pinned may be evicted, at any time. Each read has a number, by which a call that fails
remembers the read it waited for.
-/

namespace EloqStore

open Swizzling (Slot Status)

/-- A call of `FindPage` by a task, for a page of a snapshot. -/
inductive FindCall
  /-- The task makes no call and holds nothing. -/
  | idle
  | loading (snapshot page addr read : ℕ)
  | waiting (snapshot page addr read : ℕ)
  | woken (snapshot page addr read : ℕ)
  /-- The call has returned a handle. -/
  | holding (snapshot page addr : ℕ)
  | failed (snapshot page : ℕ) (err : KvError) (read? : Option ℕ)
deriving DecidableEq, Repr

namespace FindCall

/-- The cached page the call has pinned. -/
def handle? : FindCall → Option ℕ
  | .waiting _ _ a _ | .woken _ _ a _ | .holding _ _ a => some a
  | .idle | .loading _ _ _ _ | .failed _ _ _ _ => none

/-- The cached page the call reads into. -/
def loads? : FindCall → Option ℕ
  | .loading _ _ a _ => some a
  | .idle | .waiting _ _ _ _ | .woken _ _ _ _ | .holding _ _ _ | .failed _ _ _ _ => none

/-- `WakeAll` of a cached page, for one task. -/
def wake (a : ℕ) : FindCall → FindCall
  | .waiting m p b k => if b = a then .woken m p b k else .waiting m p b k
  | c => c

end FindCall

/-- How a read has ended. -/
inductive ReadOutcome
  | inFlight
  | ok
  | error (err : KvError)
deriving DecidableEq, Repr

/-- A read of a page of a snapshot into a cached page. -/
structure PageRead where
  snapshot : ℕ
  page : ℕ
  addr : ℕ
  outcome : ReadOutcome := .inFlight
deriving DecidableEq, Repr

/-- The read into the cached page has failed. -/
def PageRead.failedInto (a : ℕ) (r : PageRead) : Bool :=
  decide (r.addr = a) && match r.outcome with
    | .error _ => true
    | .inFlight | .ok => false

/-- What is fixed while pages are looked up. -/
structure SnapshotEnv where
  filePage : ℕ → ℕ → Option ℕ
  registered : ℕ → Bool
  /-- The number of cached pages the pool may have. -/
  poolSize : ℕ

/-- **The cached pages and the calls of `FindPage`.** -/
structure PageReads where
  /-- The cached pages, and the slots of the snapshots. -/
  cache : PageCache
  /-- `ref_cnt_` of each cached page. -/
  pins : ℕ → ℕ := fun _ ↦ 0
  /-- `err_` of each cached page. -/
  error : ℕ → KvError := fun _ ↦ .noError
  calls : List FindCall
  /-- The last read into each cached page. -/
  current : ℕ → ℕ := fun _ ↦ 0
  reads : List PageRead := []
  /-- The cached pages that were freed after their read had failed. -/
  freed : List ℕ := []

namespace PageReads

variable (env : SnapshotEnv) (s : PageReads)

/-- `Handle(page)`. -/
def pin (a : ℕ) : PageReads := { s with pins := Function.update s.pins a (s.pins a + 1) }

/-- `Handle::Reset`. -/
def unpin (a : ℕ) : PageReads := { s with pins := Function.update s.pins a (s.pins a - 1) }

/-- A call has got to the next place. -/
def goto (i : ℕ) (c : FindCall) : PageReads := { s with calls := s.calls.set i c }

/-- `FreePage`, of a page whose read has failed. -/
def freePage (a : ℕ) : PageReads :=
  { s with
    cache := s.cache.failWrite a
    error := Function.update s.error a .noError
    freed := a :: s.freed }

/-- A page can be evicted: `Evict` goes through the active list and skips pinned pages. -/
def canEvict (a : ℕ) : Prop := (s.cache.pages a).status = .active ∧ s.pins a = 0

instance (a : ℕ) : Decidable (s.canEvict a) := inferInstanceAs (Decidable (_ ∧ _))

/-- No page is free, of those there are or could be made. -/
def isFull : Prop := ∀ a < env.poolSize, (s.cache.pages a).status ≠ .free

instance : Decidable (s.isFull env) := inferInstanceAs (Decidable (∀ a < _, _))

/-- `AllocPage` fails: every page is pinned, or on no list. -/
def allPinned : Prop := s.isFull env ∧ ∀ a < env.poolSize, ¬ s.canEvict a

instance : Decidable (s.allPinned env) := inferInstanceAs (Decidable (_ ∧ _))

/-- `AllocPage`: a free page, or one that is evicted. -/
def allocPage (a : ℕ) : Option PageReads :=
  if a < env.poolSize ∧ (s.cache.pages a).status = .free then some s
  else if a < env.poolSize ∧ s.isFull env ∧ s.canEvict a then
    some { s with cache := s.cache.recycle env.registered a }
  else none

/-- A turn of the loop of `FindPage`; `a?` is what `AllocPage` returns, if it is called. -/
def findPage (i m p : ℕ) (a? : Option ℕ) : Option PageReads :=
  match s.cache.slots m p with
  | some (.pointer a) =>
    if (s.cache.pages a).status = .detached then
      some ((s.pin a).goto i (.waiting m p a (s.current a)))
    else some ((s.pin a).goto i (.holding m p a))
  | _ =>
    match a? with
    | none =>
      if s.allPinned env then some (s.goto i (.failed m p .outOfMem none)) else none
    | some a => (s.allocPage env a).bind fun s' ↦
        (s'.cache.toFile env.filePage m p).map fun f ↦
          { s'.goto i (.loading m p a s'.reads.length) with
            cache := s'.cache.startLoad m p a f
            current := Function.update s'.current a s'.reads.length
            reads := s'.reads ++ [{ snapshot := m, page := p, addr := a }] }

def wakeAll (a : ℕ) : PageReads := { s with calls := s.calls.map (FindCall.wake a) }

def endRead (k : ℕ) (r : PageRead) : PageReads := { s with reads := s.reads.set k r }

end PageReads

/-- What can happen to the calls. -/
inductive FindEvent
  /-- A task calls `FindPage`. -/
  | find (task snapshot page : ℕ) (addr? : Option ℕ)
  /-- A task that has been woken goes on. -/
  | resume (task : ℕ) (addr? : Option ℕ)
  | loaded (task : ℕ)
  | loadFails (task : ℕ) (err : KvError)
  | evict (addr : ℕ)
  /-- The task is done with what it got. -/
  | release (task : ℕ)
deriving DecidableEq, Repr

def FindEvent.step (env : SnapshotEnv) (s : PageReads) : FindEvent → Option PageReads
  | .find i m p a? =>
    if s.calls[i]? = some .idle ∧ env.registered m ∧ (env.filePage m p).isSome then
      s.findPage env i m p a?
    else none
  | .resume i a? =>
    match s.calls[i]? with
    | some (.woken m p a k) =>
      if s.error a ≠ .noError then
        let s' := (s.unpin a).goto i (.failed m p (s.error a) (some k))
        some (if s'.pins a = 0 then s'.freePage a else s')
      else ((s.unpin a).goto i .idle).findPage env i m p a?
    | _ => none
  | .loaded i =>
    match s.calls[i]? with
    | some (.loading m p a k) =>
      let s' := { s with cache := s.cache.finishLoad a m }.endRead k ⟨m, p, a, .ok⟩
      some (((s'.wakeAll a).pin a).goto i (.holding m p a))
    | _ => none
  | .loadFails i err =>
    match s.calls[i]? with
    | some (.loading m p a k) =>
      if err = .noError then none
      else
        let s' := { s with cache := s.cache.dropLoad a m }.endRead k ⟨m, p, a, .error err⟩
        let s'' := if s'.pins a ≠ 0 then
            { s' with error := Function.update s'.error a err }.wakeAll a
          else s'.freePage a
        some (s''.goto i (.failed m p err (some k)))
    | _ => none
  | .evict a =>
    if s.canEvict a then some { s with cache := s.cache.recycle env.registered a } else none
  | .release i =>
    match s.calls[i]? with
    | some (.holding _ _ a) => some ((s.unpin a).goto i .idle)
    | some (.failed _ _ _ _) => some (s.goto i .idle)
    | _ => none

/-- The states the calls go through. -/
def FindRuns (env : SnapshotEnv) (init : PageReads) : PageReads → Prop :=
  Transition.Reach (fun s e t ↦ FindEvent.step env s e = some t) (fun _ _ ↦ True) init

/-! ### What holds of each call -/

/-- The cached page a call is about. -/
def FindCall.addr? : FindCall → Option ℕ
  | .loading _ _ a _ | .waiting _ _ a _ | .woken _ _ a _ | .holding _ _ a => some a
  | .idle | .failed _ _ _ _ => none

namespace PageReads

/-- **A read is in flight**, and the slot of its page points to the cached page it is into. -/
structure InFlight (env : SnapshotEnv) (s : PageReads) (m p a k : ℕ) : Prop where
  registered : env.registered m = true
  load : (a, m) ∈ s.cache.loads
  slot : s.cache.slots m p = some (.pointer a)
  current : s.current a = k
  read : s.reads[k]? = some ⟨m, p, a, .inFlight⟩
  error : s.error a = .noError

/-- **What a call that has been woken finds**: a page that was read, or the error of the read. -/
structure Woken (env : SnapshotEnv) (s : PageReads) (m p a k : ℕ) : Prop where
  registered : env.registered m = true
  mapped : (env.filePage m p).isSome = true
  read : s.reads[k]? = some ⟨m, p, a, .ok⟩ ∧ s.error a = .noError ∧
      (s.cache.pages a).status = .active ∨
    s.reads[k]? = some ⟨m, p, a, .error (s.error a)⟩ ∧ s.error a ≠ .noError

def CallOk (env : SnapshotEnv) (s : PageReads) : FindCall → Prop
  | .idle => True
  | .loading m p a k | .waiting m p a k => s.InFlight env m p a k
  | .woken m p a k => s.Woken env m p a k
  | .holding m p a => (s.cache.pages a).status = .active ∧ (s.cache.pages a).pageId = some p ∧
      ∃ f, env.filePage m p = some f ∧ (s.cache.pages a).content = s.cache.disk f
  | .failed m p err (some k) => ∃ a, s.reads[k]? = some ⟨m, p, a, .error err⟩
  | .failed _ _ err none => err = .outOfMem

/-- A step leaves everything about a cached page as it is. -/
structure SameAt (env : SnapshotEnv) (s s' : PageReads) (a : ℕ) : Prop where
  page : s'.cache.pages a = s.cache.pages a
  error : s'.error a = s.error a
  current : s'.current a = s.current a
  load : ∀ m, (a, m) ∈ s.cache.loads → (a, m) ∈ s'.cache.loads
  slot : ∀ m p, env.registered m = true → s.cache.slots m p = some (.pointer a) →
    s'.cache.slots m p = some (.pointer a)
  read : ∀ (k : ℕ) (r : PageRead), s.reads[k]? = some r → r.addr = a → s'.reads[k]? = some r

variable {env : SnapshotEnv} {s s' : PageReads} {c : FindCall} {m p a k i : ℕ}

/-- **What holds of a call goes on to hold** if the cached page it is about stays as it is. -/
theorem CallOk.frame (h : s.CallOk env c) (hdisk : s'.cache.disk = s.cache.disk)
    (hdone : ∀ (k : ℕ) (r : PageRead), s.reads[k]? = some r → r.outcome ≠ .inFlight →
      s'.reads[k]? = some r)
    (hsame : ∀ a, c.addr? = some a → SameAt env s s' a) : s'.CallOk env c := by
  cases c with
  | idle => trivial
  | loading m p a k | waiting m p a k =>
    have ha := hsame a rfl
    exact ⟨h.registered, ha.load m h.load, ha.slot m p h.registered h.slot,
      ha.current.trans h.current, ha.read k _ h.read rfl, ha.error.trans h.error⟩
  | woken m p a k =>
    have ha := hsame a rfl
    refine ⟨h.registered, h.mapped, ?_⟩
    rw [ha.page, ha.error]
    exact h.read.imp (fun hr ↦ ⟨ha.read k _ hr.1 rfl, hr.2⟩) fun hr ↦ ⟨ha.read k _ hr.1 rfl, hr.2⟩
  | holding m p a =>
    rw [CallOk, (hsame a rfl).page, hdisk]
    exact h
  | failed m p err read? =>
    cases read? with
    | none => exact h
    | some k =>
      obtain ⟨a, hr⟩ := h
      exact ⟨a, hdone k _ hr (by simp)⟩

/-! ### The invariant -/

def handles (s : PageReads) : List ℕ := s.calls.filterMap FindCall.handle?

/-- The cached pages that the calls read into. -/
def loading (s : PageReads) : List ℕ := s.calls.filterMap FindCall.loads?

/-- **The invariant.** -/
structure Inv (env : SnapshotEnv) (s : PageReads) : Prop where
  /-- The slots of the snapshots can be relied on. -/
  coherent : Swizzling.Coherent env.filePage (fun m ↦ env.registered m = true) s.cache
  /-- A pointer to a page under a read is that of the snapshot it is read through. -/
  through : Swizzling.LoadedThrough (fun m ↦ env.registered m = true) s.cache
  /-- A page is pinned by the calls that have a handle to it. -/
  pins : ∀ a, s.pins a = s.handles.count a
  loads : s.loading.Perm (s.cache.loads.map (·.1))
  calls : ∀ c ∈ s.calls, s.CallOk env c
  /-- A page whose read has failed is on no list, and some task is still to leave it. -/
  error : ∀ a, s.error a ≠ .noError → (s.cache.pages a).status = .detached ∧
    a ∉ s.cache.loads.map (·.1) ∧ 0 < s.pins a
  freed : ∀ a, s.reads.countP (PageRead.failedInto a) =
    s.freed.count a + if s.error a = .noError then 0 else 1

theorem Inv.status_of_addr (h : s.Inv env) (hc : c ∈ s.calls) (ha : c.addr? = some a) :
    (s.cache.pages a).status ≠ .free := by
  have hok := h.calls c hc
  cases c with
  | idle | failed => simp [FindCall.addr?] at ha
  | loading m p b k | waiting m p b k =>
    cases ha
    rw [h.coherent.load _ hok.load]
    simp
  | woken m p b k =>
    cases ha
    obtain ⟨-, -, hact⟩ | ⟨-, herr⟩ := hok.read
    · simp [hact]
    · simp [(h.error _ herr).1]
  | holding m p b =>
    cases ha
    simp [hok.1]

/-- A page that no call has a handle to, and that is not being read, is no call's. -/
theorem Inv.addr_ne (h : s.Inv env) (hpins : s.pins a = 0) (hload : a ∉ s.cache.loads.map (·.1))
    (hc : c ∈ s.calls) : c.addr? ≠ some a := by
  intro ha
  have hhandle : c.handle? ≠ some a := fun heq ↦ by
    have hpos := List.count_pos_iff.2 (List.mem_filterMap.2 ⟨c, hc, heq⟩)
    rw [h.pins] at hpins
    exact absurd hpins hpos.ne'
  cases c with
  | idle | failed => simp [FindCall.addr?] at ha
  | loading m p b k =>
    cases ha
    exact hload (List.mem_map.2 ⟨_, (h.calls _ hc).load, rfl⟩)
  | waiting | woken | holding => exact hhandle ha

end PageReads

end EloqStore
