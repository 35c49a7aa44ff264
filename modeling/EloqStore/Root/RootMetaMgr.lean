import EloqStore.Foundation.AssocMap
import EloqStore.Foundation.Transition
import EloqStore.Types

/-!
# The cache of root entries

A shard keeps the root entries of its partitions in memory, counts the bytes they take, and evicts
entries that no handle pins when the bytes exceed a limit. The unpinned entries form a list in the
order they were last used. An entry without a mapper is **empty**: the stub of a first write, or
what a drop leaves. When its last handle goes it is put down for erasure, which happens at the next
lookup of any partition. Cached pages belong to an entry, and an eviction recycles them.

The invariant (`RootCache.Ok`) is that the bytes add up, that exactly the unpinned entries are on
the list, that handles are counted right, and that **an empty entry that no handle pins has no
cached page**. The last part is what the code does not keep:

* a drop empties an entry and leaves its cached pages;
* the stub of a first write that is aborted has the pages it wrote.

Either entry then fails a check when it is evicted, or is erased while cached pages point to it. A
third slip is in the eviction loop: recycling a page looks a partition up, and so may erase the
entry the loop has set its cursor on. Without these (`RootEvent.Clean`) no check fails
(`RootCache.sound_of_clean`).
-/

namespace EloqStore

open AssocMap List Option Transition

/-! ### The cache -/

/-- The root entry of a partition. The root ids and the manifest size are set and cleared together
with the mapper. -/
structure RootEntry where
  bytes : ℕ := 0
  refCnt : ℕ := 0
  locked : Bool := false
  mapper : Bool := false
  cachedPages : List ℕ := []
deriving DecidableEq, Repr

/-- A handle of a root entry, with the cached pages its owner pins. -/
structure RootHandle where
  table : ℕ
  pins : List ℕ := []
deriving DecidableEq, Repr

/-- **The root cache of a shard.** -/
structure RootCache where
  capacityBytes : ℕ
  usedBytes : ℕ := 0
  entries : AssocMap ℕ RootEntry := .empty
  /-- The unpinned entries, the last used one first. -/
  lru : List ℕ := []
  pendingErase : List ℕ := []
  handles : List RootHandle := []
  /-- A `CHECK` has failed, or freed memory was used. -/
  crashed : Bool := false
  /-- The number of cached pages each entry had when it went. -/
  gone : List ℕ := []

namespace RootCache

variable (s : RootCache)

def check (b : Bool) : RootCache := { s with crashed := s.crashed || !b }

/-- Put an entry at the front of the list. -/
def enqueueFront (t : ℕ) : RootCache := { s.check (t ∉ s.lru) with lru := t :: s.lru }

def dequeue (t : ℕ) : RootCache := { s.check (t ∈ s.lru) with lru := s.lru.erase t }

def setEntry (t : ℕ) (e : RootEntry) : RootCache := { s with entries := s.entries.set t e }

def updateBytes (t : ℕ) (e : RootEntry) (bytes : ℕ) : RootCache where
  __ := s.setEntry t { e with bytes := bytes }
  usedBytes :=
    if e.bytes ≤ bytes then s.usedBytes + (bytes - e.bytes) else s.usedBytes - (e.bytes - bytes)

/-- An entry goes, with the pages that are still cached. -/
def remove (t : ℕ) (e : RootEntry) (pages : ℕ) : RootCache where
  __ := s.dequeue t
  usedBytes := s.usedBytes - e.bytes
  entries := s.entries.erase t
  gone := pages :: s.gone

/-- Erase an entry that no handle pins. -/
def eraseEntry (t : ℕ) : RootCache :=
  match s.entries.get? t with
  | none => s
  | some e => (s.check (e.refCnt = 0)).remove t e e.cachedPages.length

/-- Erase what was put down for erasure. -/
def processPendingErase : RootCache :=
  { s.pendingErase.foldl eraseEntry s with pendingErase := [] }

def insertEntry (t : ℕ) (e : RootEntry) : RootCache := (s.setEntry t e).enqueueFront t

def pin (t : ℕ) (e : RootEntry) : RootCache :=
  let y := s.check (e.refCnt ≠ 0 ∨ t ∈ s.lru)
  let y := if e.refCnt = 0 then y.dequeue t else y
  { y.setEntry t { e with refCnt := e.refCnt + 1 } with handles := ⟨t, []⟩ :: s.handles }

def unpin (i t : ℕ) (e : RootEntry) : RootCache :=
  let e' := { e with refCnt := e.refCnt - 1 }
  let y := { s.setEntry t e' with handles := s.handles.eraseIdx i }
  if e'.refCnt = 0 then
    let y := y.enqueueFront t
    if e.mapper then y else { y with pendingErase := y.pendingErase ++ [t] }
  else y

/-- A cached page of a partition is pinned. -/
def pagePinned (t p : ℕ) : Bool := s.handles.any fun h ↦ decide (h.table = t ∧ p ∈ h.pins)

/-- The checks of `EvictRootForCache`, and the recycling of the cached pages. Each page's partition
is looked up. -/
def evictRootForCache (t : ℕ) (e : RootEntry) : RootCache :=
  let y := s.check (e.refCnt = 0)
  if e.mapper then
    let y := y.check (e.cachedPages.all fun p ↦ !s.pagePinned t p)
    if e.cachedPages = [] then y else y.processPendingErase
  else y.check (e.cachedPages = [])

/-- The eviction loop, over the unpinned entries from the least recently used one on. The cursor is
moved on before the victim is evicted; the last entry stays. -/
def evictLoop : RootCache → List ℕ → RootCache
  | s, [] => s
  | s, t :: rest =>
    if s.usedBytes ≤ s.capacityBytes then s
    else match s.entries.get? t, rest.find? (· ∈ s.lru) with
      | none, _ => evictLoop s rest
      | some _, none => s
      | some e, some cursor =>
        if e.locked then evictLoop s rest
        else
          let y := s.evictRootForCache t e
          let y := y.check (cursor ∈ y.lru)
          evictLoop (y.remove t e (if e.mapper then 0 else e.cachedPages.length)) rest

/-- Evict entries while the bytes exceed the limit. -/
def evictIfNeeded : RootCache := s.evictLoop s.lru.reverse

end RootCache

/-! ### Runs -/

/-- What happens to the root cache. -/
inductive RootEvent
  /-- `FindRoot` of a partition: a handle, or the start of a load. -/
  | lookup (t : ℕ)
  | loaded (t bytes : ℕ)
  | loadFails (t : ℕ)
  | createStub (t : ℕ)
  /-- A handle is given up, by a reader or by an aborted write. -/
  | release (i : ℕ)
  /-- The owner of a handle has read or written a page that is cached now. -/
  | cachePage (i p : ℕ)
  | pinPage (i p : ℕ)
  | unpinPage (i k : ℕ)
  | recyclePage (t p : ℕ)
  /-- The write task with the handle commits. -/
  | commit (i bytes : ℕ)
  /-- A drop or a clean reopen empties an entry. -/
  | clear (t : ℕ)
  /-- A reopen without a remote manifest empties an entry, or makes an empty one. -/
  | clearOrCreate (t : ℕ)
  | install (t bytes : ℕ)
deriving DecidableEq, Repr

namespace RootCache

variable (s : RootCache)

/-- The entry of a partition, made if need be, and the cache. -/
def getOrCreate (t : ℕ) : RootEntry × RootCache :=
  let y := s.processPendingErase
  match y.entries.get? t with
  | some e => (e, y)
  | none => ({}, y.insertEntry t {})

/-- `UpdateRoot` on an entry: it has a mapper now, and takes so many bytes. -/
def updateRoot (t : ℕ) (e : RootEntry) (bytes : ℕ) : RootCache :=
  (s.updateBytes t { e with mapper := true } bytes).evictIfNeeded

end RootCache

def RootEvent.run (s : RootCache) : RootEvent → Option RootCache
  | .lookup t =>
    let y := s.processPendingErase
    match y.entries.get? t with
    | none => some (y.insertEntry t { locked := true })
    | some e => if e.locked then none else some (y.pin t e)
  | .loaded t bytes =>
    match s.entries.get? t with
    | none => none
    | some e =>
      if e.locked then
        let y := s.updateRoot t e bytes
        if y.capacityBytes < y.usedBytes then some (y.eraseEntry t)
        else
          match y.entries.get? t with
          | none => none
          | some e =>
            let e := { e with locked := false }
            some ((y.setEntry t e).pin t e)
      else none
  | .loadFails t =>
    match s.entries.get? t with
    | none => none
    | some e => if e.locked then some (s.eraseEntry t) else none
  | .createStub t =>
    let y := s.processPendingErase
    match y.entries.get? t with
    | some _ => none
    | none => some ((y.insertEntry t {}).pin t {})
  | .release i =>
    match s.handles[i]? with
    | none => none
    | some h =>
      if h.pins = [] then (s.entries.get? h.table).map fun e ↦ s.unpin i h.table e else none
  | .cachePage i p =>
    match s.handles[i]? with
    | none => none
    | some h =>
      let y := s.processPendingErase
      match y.entries.get? h.table with
      | none => some y
      | some e => some (y.setEntry h.table { e with cachedPages := p :: e.cachedPages })
  | .pinPage i p =>
    match s.handles[i]? with
    | none => none
    | some h => some { s with handles := s.handles.set i { h with pins := p :: h.pins } }
  | .unpinPage i k =>
    match s.handles[i]? with
    | none => none
    | some h => some { s with handles := s.handles.set i { h with pins := h.pins.eraseIdx k } }
  | .recyclePage t p =>
    if s.pagePinned t p then none
    else
      let y := s.processPendingErase
      match y.entries.get? t with
      | none => some y
      | some e => some (y.setEntry t { e with cachedPages := e.cachedPages.erase p })
  | .commit i bytes =>
    match s.handles[i]? with
    | none => none
    | some h =>
      let y := s.processPendingErase
      match y.entries.get? h.table with
      | none => some (y.check false)
      | some e =>
        let y := y.updateRoot h.table e bytes
        (y.entries.get? h.table).map fun e ↦ y.unpin i h.table e
  | .clear t =>
    let y := s.processPendingErase
    match y.entries.get? t with
    | none => some y
    | some e => some (y.updateBytes t { e with mapper := false } 0)
  | .clearOrCreate t =>
    let y := s.getOrCreate t
    some (y.2.updateBytes t { y.1 with mapper := false } 0)
  | .install t bytes =>
    let y := s.getOrCreate t
    some (y.2.updateRoot t y.1 bytes)

abbrev RootRuns (G : RootCache → RootEvent → Prop) : RootCache → RootCache → Prop :=
  Transition.Reach (fun s e t ↦ RootEvent.run s e = some t) G

/-- **The condition on events**: an entry that a drop empties, or whose last handle goes while it is
empty, has no cached pages, and no erasure is pending when a load ends. -/
def RootEvent.Clean (s : RootCache) : RootEvent → Prop
  | .clear t | .clearOrCreate t =>
    ∀ e ∈ s.entries.get? t, e.refCnt = 0 → e.cachedPages = []
  | .release i => ∀ h ∈ s.handles[i]?, ∀ e ∈ s.entries.get? h.table,
      e.refCnt = 1 → e.mapper = false → e.cachedPages = []
  | .loaded _ _ => s.pendingErase = []
  | _ => True

instance (s : RootCache) : DecidablePred (RootEvent.Clean s) := by
  intro e
  cases e <;> unfold RootEvent.Clean <;> infer_instance

/-! ### The invariant -/

namespace RootCache

/-- The number of handles of a partition. -/
def handleCount (s : RootCache) (t : ℕ) : ℕ := s.handles.countP (·.table = t)

/-- An entry with a number of handles, put down for erasure or not. -/
structure EntryOk (count : ℕ) (pending : Prop) (e : RootEntry) : Prop where
  refs : e.refCnt = count
  /-- An entry that is being loaded is not pinned and has no cached pages. -/
  locked : e.locked = true → e.refCnt = 0 ∧ e.cachedPages = [] ∧ ¬ pending
  /-- **An unpinned empty entry has no cached pages.** -/
  empty : e.refCnt = 0 → e.mapper = false → e.cachedPages = []
  /-- What is to be erased is unpinned and empty. -/
  pending : pending → e.refCnt = 0 ∧ e.mapper = false

/-- **The invariant of the root cache.** -/
structure Ok (s : RootCache) : Prop where
  used : s.usedBytes = s.entries.weight (·.bytes)
  nodup : s.lru.Nodup
  /-- Exactly the unpinned entries are on the list. -/
  lru : ∀ t, t ∈ s.lru ↔ ∃ e, s.entries.get? t = some e ∧ e.refCnt = 0
  entry : ∀ t e, s.entries.get? t = some e → EntryOk (s.handleCount t) (t ∈ s.pendingErase) e
  held : ∀ h ∈ s.handles, ∃ e, s.entries.get? h.table = some e
  safe : s.crashed = false
  gone : ∀ n ∈ s.gone, n = 0

theorem EntryOk.mono {n : ℕ} {p q : Prop} {e : RootEntry} (h : EntryOk n p e) (hp : q → p) :
    EntryOk n q e :=
  { h with
    locked := fun hl ↦ ⟨(h.locked hl).1, (h.locked hl).2.1, fun hq ↦ (h.locked hl).2.2 (hp hq)⟩
    pending := fun hq ↦ h.pending (hp hq) }

theorem check_of_true (s : RootCache) {b : Bool} (h : b = true) : s.check b = s := by
  rw [check, h, Bool.not_true, Bool.or_false]

namespace Ok

variable {s : RootCache}

variable {e : RootEntry} {t : ℕ} {y : RootCache} {x : RootHandle}

theorem mem_lru (h : s.Ok) (he : s.entries.get? t = some e) (href : e.refCnt = 0) : t ∈ s.lru :=
  (h.lru t).2 ⟨e, he, href⟩

theorem no_handle (h : s.Ok) (he : s.entries.get? t = some e) (href : e.refCnt = 0) :
    ∀ x ∈ s.handles, x.table ≠ t := by
  have hcount : s.handles.countP (·.table = t) = 0 := (h.entry t e he).refs.symm.trans href
  simpa using countP_eq_zero.1 hcount

theorem clearPending (h : s.Ok) : Ok { s with pendingErase := [] } where
  __ := h
  entry t e he := (h.entry t e he).mono (by simp)

/-- **An unpinned entry without cached pages goes.** -/
theorem remove (h : s.Ok) (he : s.entries.get? t = some e) (href : e.refCnt = 0) :
    (s.remove t e 0).Ok := by
  have hmem := h.mem_lru he href
  have hget : ∀ {t' e'}, (s.remove t e 0).entries.get? t' = some e' →
      t' ≠ t ∧ s.entries.get? t' = some e' := by
    intro t' e' he'
    rw [RootCache.remove, get?_erase] at he'
    exact ite_none_left_eq_some.1 he'
  refine ⟨?_, h.nodup.erase t, fun t' ↦ ?_, fun t' e' he' ↦ h.entry t' e' (hget he').2,
    fun x hx ↦ ?_, ?_, fun n hn ↦ ?_⟩
  · show s.usedBytes - e.bytes = (s.entries.erase t).weight (·.bytes)
    have := weight_erase (fun e : RootEntry ↦ e.bytes) he
    have := h.used
    omega
  · show t' ∈ s.lru.erase t ↔ _
    rw [h.nodup.mem_erase_iff, h.lru]
    constructor
    · rintro ⟨hne, e', he', href'⟩
      exact ⟨e', (get?_erase_of_ne hne).trans he', href'⟩
    · rintro ⟨e', he', href'⟩
      exact ⟨(hget he').1, e', (hget he').2, href'⟩
  · obtain ⟨e', he'⟩ := h.held x hx
    exact ⟨e', (get?_erase_of_ne (h.no_handle he href x hx)).trans he'⟩
  · show (s.crashed || !decide (t ∈ s.lru)) = false
    simp [h.safe, hmem]
  · rcases mem_cons.1 hn with rfl | hn
    · rfl
    · exact h.gone n hn

/-- An entry that was put down for erasure is erased. -/
theorem eraseEntry (h : s.Ok)
    (ht : ∀ e, s.entries.get? t = some e → e.refCnt = 0 ∧ e.cachedPages = []) :
    (s.eraseEntry t).Ok := by
  unfold RootCache.eraseEntry
  split
  · exact h
  · next e he =>
    obtain ⟨href, hpages⟩ := ht e he
    rw [check_of_true s (decide_eq_true href), hpages]
    exact h.remove he href

/-- What stays the same when entries go. -/
structure Shrinks (s y : RootCache) : Prop where
  get : ∀ t e, y.entries.get? t = some e → s.entries.get? t = some e
  handles : y.handles = s.handles
  capacity : y.capacityBytes = s.capacityBytes

theorem Shrinks.refl (s : RootCache) : Shrinks s s := ⟨fun _ _ h ↦ h, rfl, rfl⟩

theorem Shrinks.trans {x z : RootCache} (h : Shrinks x y) (h' : Shrinks y z) : Shrinks x z :=
  ⟨fun t e he ↦ h.get t e (h'.get t e he), h'.handles.trans h.handles,
    h'.capacity.trans h.capacity⟩

theorem shrinks_remove (s : RootCache) (t : ℕ) (e : RootEntry) (n : ℕ) :
    Shrinks s (s.remove t e n) := by
  refine ⟨fun t' e' he' ↦ ?_, rfl, rfl⟩
  rw [RootCache.remove, get?_erase] at he'
  exact (ite_none_left_eq_some.1 he').2

theorem shrinks_eraseEntry (s : RootCache) (t : ℕ) : Shrinks s (s.eraseEntry t) := by
  unfold RootCache.eraseEntry
  split
  · exact .refl s
  · next e _ =>
    have hrest := shrinks_remove (s.check (e.refCnt = 0)) t e e.cachedPages.length
    exact ⟨hrest.get, hrest.handles, hrest.capacity⟩

private theorem foldl_eraseEntry (l : List ℕ) (h : s.Ok)
    (hl : ∀ t ∈ l, ∀ e, s.entries.get? t = some e → e.refCnt = 0 ∧ e.mapper = false) :
    (l.foldl RootCache.eraseEntry s).Ok ∧ Shrinks s (l.foldl RootCache.eraseEntry s) := by
  induction l generalizing s with
  | nil => exact ⟨h, .refl s⟩
  | cons t l ih =>
    have hstep : (s.eraseEntry t).Ok := h.eraseEntry fun e he ↦ by
      obtain ⟨href, hmapper⟩ := hl t (by simp) e he
      exact ⟨href, (h.entry t e he).empty href hmapper⟩
    have hshrinks := shrinks_eraseEntry s t
    obtain ⟨hok, hrest⟩ := ih hstep fun t' ht' e he ↦
      hl t' (mem_cons_of_mem _ ht') e (hshrinks.get t' e he)
    exact ⟨hok, hshrinks.trans hrest⟩

/-- **The entries put down for erasure are erased.** -/
theorem processPendingErase (h : s.Ok) :
    s.processPendingErase.Ok ∧ Shrinks s s.processPendingErase := by
  obtain ⟨hok, hshrinks⟩ := foldl_eraseEntry s.pendingErase h fun t ht e he ↦
    (h.entry t e he).pending ht
  exact ⟨hok.clearPending, hshrinks.get, hshrinks.handles, hshrinks.capacity⟩

theorem processPendingErase_of_nil (hp : s.pendingErase = []) : s.processPendingErase = s := by
  obtain ⟨capacity, used, entries, lru, pending, handles, crashed, gone⟩ := s
  obtain rfl : pending = [] := hp
  rfl

/-- A new entry, unpinned and without cached pages. -/
theorem insertEntry (h : s.Ok) (hnone : s.entries.get? t = none) (hbytes : e.bytes = 0)
    (href : e.refCnt = 0) (hpages : e.cachedPages = []) (hpending : s.pendingErase = []) :
    (s.insertEntry t e).Ok := by
  have hget : ∀ {t' e'}, (s.entries.set t e).get? t' = some e' →
      t' = t ∧ e' = e ∨ t' ≠ t ∧ s.entries.get? t' = some e' := by
    intro t' e' he'
    rw [get?_set] at he'
    split at he'
    · next heq => exact .inl ⟨heq, (some.inj he').symm⟩
    · next hne => exact .inr ⟨hne, he'⟩
  have hnotin : t ∉ s.lru := fun hmem ↦ by
    obtain ⟨e', he', -⟩ := (h.lru t).1 hmem
    cases hnone.symm.trans he'
  have hnohandle : ∀ x ∈ s.handles, x.table ≠ t := fun x hx heq ↦ by
    obtain ⟨e', he'⟩ := h.held x hx
    cases hnone.symm.trans (heq ▸ he')
  refine ⟨?_, nodup_cons.2 ⟨hnotin, h.nodup⟩, fun t' ↦ ?_, fun t' e' he' ↦ ?_, fun x hx ↦ ?_, ?_,
    h.gone⟩
  · show s.usedBytes = (s.entries.set t e).weight (·.bytes)
    rw [weight_set_of_none _ hnone, hbytes, h.used, Nat.add_zero]
  · show t' ∈ t :: s.lru ↔ ∃ e', (s.entries.set t e).get? t' = some e' ∧ e'.refCnt = 0
    by_cases heq : t' = t
    · subst heq
      simp [href]
    · rw [mem_cons, get?_set_of_ne heq, h.lru]
      simp [heq]
  · show EntryOk (s.handleCount t') (t' ∈ s.pendingErase) e'
    rcases hget he' with ⟨rfl, rfl⟩ | ⟨-, he'⟩
    · have hcount : s.handles.countP (·.table = t') = 0 :=
        countP_eq_zero.2 (by simpa using hnohandle)
      exact ⟨href.trans hcount.symm, fun _ ↦ ⟨href, hpages, by simp [hpending]⟩, fun _ _ ↦ hpages,
        by simp [hpending]⟩
    · exact h.entry t' e' he'
  · obtain ⟨e', he'⟩ := h.held x hx
    exact ⟨e', (get?_set_of_ne (hnohandle x hx) e).trans he'⟩
  · show (s.crashed || !decide (t ∉ s.lru)) = false
    simp [h.safe, hnotin]

/-- **One entry changes**, and with it whether it is on the list, its handles and whether it is put
down for erasure; what the other entries have stays. -/
structure Change (s y : RootCache) (t : ℕ) (e : RootEntry) : Prop where
  entries : y.entries = s.entries.set t e
  used : ∀ e₀, s.entries.get? t = some e₀ → y.usedBytes + e₀.bytes = s.usedBytes + e.bytes
  nodup : y.lru.Nodup
  /-- The entry is on it if no handle pins it. -/
  lru : t ∈ y.lru ↔ e.refCnt = 0
  entry : EntryOk (y.handleCount t) (t ∈ y.pendingErase) e
  /-- No other entry is put down for erasure. -/
  other : ∀ t', t' ≠ t → (t' ∈ y.lru ↔ t' ∈ s.lru) ∧ y.handleCount t' = s.handleCount t' ∧
    (t' ∈ y.pendingErase → t' ∈ s.pendingErase)
  /-- Handles are only added to the entry. -/
  held : ∀ x ∈ y.handles, x.table = t ∨ x ∈ s.handles
  safe : y.crashed = s.crashed
  gone : y.gone = s.gone

section

variable (h : s.Ok) {e₀ : RootEntry} (he₀ : s.entries.get? t = some e₀)

include h he₀

theorem change (c : Change s y t e) :
    y.Ok := by
  have hget : ∀ {t' x}, y.entries.get? t' = some x →
      t' = t ∧ x = e ∨ t' ≠ t ∧ s.entries.get? t' = some x := by
    intro t' x hx
    rw [c.entries, get?_set] at hx
    split at hx
    · next heq => exact .inl ⟨heq, (some.inj hx).symm⟩
    · next hne => exact .inr ⟨hne, hx⟩
  refine ⟨?_, c.nodup, fun t' ↦ ?_, fun t' x hx ↦ ?_, fun x hx ↦ ?_, c.safe.trans h.safe, ?_⟩
  · have := weight_set (fun e : RootEntry ↦ e.bytes) he₀ e
    have := h.used
    have := c.used e₀ he₀
    rw [c.entries]
    omega
  · rw [c.entries]
    by_cases heq : t' = t
    · subst heq
      rw [c.lru, get?_set_self]
      simp
    · rw [(c.other t' heq).1, get?_set_of_ne heq, h.lru]
  · rcases hget hx with ⟨rfl, rfl⟩ | ⟨hne, hx⟩
    · exact c.entry
    · obtain ⟨-, hcount, hpending⟩ := c.other t' hne
      rw [hcount]
      exact (h.entry t' x hx).mono hpending
  · rw [c.entries]
    by_cases heq : x.table = t
    · exact ⟨e, heq ▸ s.entries.get?_set_self x.table e⟩
    · obtain ⟨x', hx'⟩ := h.held x ((c.held x hx).resolve_left heq)
      exact ⟨x', (get?_set_of_ne heq e).trans hx'⟩
  · rw [c.gone]
    exact h.gone

/-- An entry is changed: its mapper, its pages or its bytes. -/
theorem setEntry (used : ℕ) (hused : used + e₀.bytes = s.usedBytes + e.bytes)
    (hentry : EntryOk (s.handleCount t) (t ∈ s.pendingErase) e) :
    Ok { s.setEntry t e with usedBytes := used } := by
  refine h.change he₀ ⟨rfl, fun e₁ he₁ ↦ ?_, h.nodup, ?_, hentry, fun _ _ ↦ ⟨.rfl, rfl, id⟩,
    fun x hx ↦ .inr hx, rfl, rfl⟩
  · cases he₀.symm.trans he₁
    exact hused
  · show t ∈ s.lru ↔ e.refCnt = 0
    rw [h.lru, he₀, hentry.refs, ← (h.entry t e₀ he₀).refs]
    simp

/-- The bytes of an entry that has just been changed are set. -/
theorem updateBytes (hbytes : e.bytes = e₀.bytes) (bytes : ℕ)
    (hentry : EntryOk (s.handleCount t) (t ∈ s.pendingErase) e) : (s.updateBytes t e bytes).Ok := by
  refine h.setEntry he₀ _ ?_ { hentry with }
  have hle : e₀.bytes ≤ s.usedBytes :=
    h.used ▸ le_weight (fun e : RootEntry ↦ e.bytes) he₀
  rw [hbytes]
  show _ = s.usedBytes + bytes
  split
  · omega
  · omega

end

theorem pin (h : s.Ok) (he : s.entries.get? t = some e) (hunlocked : e.locked = false)
    (hpending : t ∉ s.pendingErase) : (s.pin t e).Ok := by
  have hpin : s.pin t e = { s with
      lru := s.lru.erase t, entries := s.entries.set t { e with refCnt := e.refCnt + 1 },
      handles := ⟨t, []⟩ :: s.handles } := by
    by_cases href : e.refCnt = 0
    · have hmem := h.mem_lru he href
      simp [RootCache.pin, check, dequeue, RootCache.setEntry, href, hmem]
    · have hmem : t ∉ s.lru := fun hmem ↦ by
        obtain ⟨e', he', href'⟩ := (h.lru t).1 hmem
        rw [he] at he'
        exact href (some.inj he' ▸ href')
      simp [RootCache.pin, check, RootCache.setEntry, href, erase_of_not_mem hmem]
  rw [hpin]
  refine h.change he ⟨rfl, fun e₁ he₁ ↦ ?_, h.nodup.erase t, ?_, ⟨?_, ?_, ?_, ?_⟩,
    fun t' hne ↦ ⟨?_, ?_, id⟩, fun x hx ↦ ?_, rfl, rfl⟩
  · cases he.symm.trans he₁
    rfl
  · simp [h.nodup.mem_erase_iff]
  · rw [handleCount, countP_cons_of_pos (by simp)]
    exact congrArg (· + 1) (h.entry t e he).refs
  · simp [hunlocked]
  · simp
  · exact fun ht ↦ absurd ht hpending
  · simp [h.nodup.mem_erase_iff, hne]
  · exact countP_cons_of_neg (by simpa using Ne.symm hne)
  · rcases mem_cons.1 hx with rfl | hx
    · exact .inl rfl
    · exact .inr hx

theorem countP_eraseIdx {l : List RootHandle} {i : ℕ} (hx : l[i]? = some x) (t : ℕ) : l.countP
    (·.table = t) = (l.eraseIdx i).countP (·.table = t) + if x.table = t then 1 else 0 := by
  obtain ⟨hi, rfl⟩ := List.getElem?_eq_some_iff.1 hx
  rw [← (getElem_cons_eraseIdx_perm hi).countP_eq _, countP_cons]
  simp

/-- **A handle is given up.** If it was the last one and the entry is empty, the entry is put down
for erasure and must not have cached pages. -/
theorem unpin (h : s.Ok) {i : ℕ} (hx : s.handles[i]? = some x)
    (he : s.entries.get? x.table = some e)
    (hempty : e.refCnt = 1 → e.mapper = false → e.cachedPages = []) :
    (s.unpin i x.table e).Ok := by
  have hentry := h.entry x.table e he
  have hcount := hentry.refs
  rw [handleCount, countP_eraseIdx hx, if_pos rfl] at hcount
  have hunlocked : e.locked ≠ true := fun hl ↦ by
    have := (hentry.locked hl).1
    omega
  have hnotpending : x.table ∉ s.pendingErase := fun ht ↦ by
    have := (hentry.pending ht).1
    omega
  have hnotin : x.table ∉ s.lru := fun hmem ↦ by
    obtain ⟨e', he', href'⟩ := (h.lru _).1 hmem
    cases he.symm.trans he'
    omega
  have hother : ∀ t', t' ≠ x.table →
      (s.handles.eraseIdx i).countP (·.table = t') = s.handleCount t' := fun t' hne ↦ by
    rw [handleCount, countP_eraseIdx hx, if_neg (Ne.symm hne), Nat.add_zero]
  have hused : ∀ e₁, s.entries.get? x.table = some e₁ →
      s.usedBytes + e₁.bytes = s.usedBytes + e.bytes := fun e₁ he₁ ↦ by
    rw [some.inj (he.symm.trans he₁)]
  have hpages : e.refCnt - 1 = 0 → e.mapper = false → e.cachedPages = [] :=
    fun hr ↦ hempty (by omega)
  by_cases hlast : e.refCnt - 1 = 0
  · have hchange : ∀ pending, (x.table ∈ pending → e.mapper = false) →
        (∀ t', t' ≠ x.table → t' ∈ pending → t' ∈ s.pendingErase) →
        Ok { s with
          entries := s.entries.set x.table { e with refCnt := e.refCnt - 1 },
          handles := s.handles.eraseIdx i, lru := x.table :: s.lru, pendingErase := pending } := by
      intro pending hmapper hpending
      refine h.change he ⟨rfl, hused, nodup_cons.2 ⟨hnotin, h.nodup⟩, by simp [hlast],
        ⟨?_, fun hl ↦ absurd hl hunlocked, hpages, fun ht ↦ ⟨hlast, hmapper ht⟩⟩,
        fun t' hne ↦ ⟨by simp [hne], hother t' hne, hpending t' hne⟩,
        fun z hz ↦ .inr (mem_of_mem_eraseIdx hz), rfl, rfl⟩
      show e.refCnt - 1 = (s.handles.eraseIdx i).countP _
      omega
    have hcheck : (s.crashed || !decide (x.table ∉ s.lru)) = s.crashed := by simp [hnotin]
    simp only [RootCache.unpin, RootCache.setEntry, enqueueFront, check, hlast, if_true, hcheck]
    by_cases hm : e.mapper = true
    · rw [if_pos hm]
      exact hlast ▸ hchange s.pendingErase (fun ht ↦ absurd ht hnotpending) fun _ _ ht ↦ ht
    · rw [if_neg hm]
      refine hlast ▸ hchange (s.pendingErase ++ [x.table]) (fun _ ↦ by simpa using hm)
        fun t' hne ht ↦ ?_
      simpa [hne] using ht
  · simp only [RootCache.unpin, RootCache.setEntry, hlast, if_false]
    refine h.change he ⟨rfl, hused, h.nodup, by simp [hnotin, hlast],
      ⟨?_, fun hl ↦ absurd hl hunlocked, hpages, fun ht ↦ absurd ht hnotpending⟩,
      fun t' hne ↦ ⟨.rfl, hother t' hne, id⟩, fun z hz ↦ .inr (mem_of_mem_eraseIdx hz), rfl, rfl⟩
    show e.refCnt - 1 = (s.handles.eraseIdx i).countP _
    omega

theorem setHandle (h : s.Ok) {i : ℕ} (hx : s.handles[i]? = some x) (pins : List ℕ) :
    Ok { s with handles := s.handles.set i { x with pins := pins } } := by
  have htables : (s.handles.set i { x with pins := pins }).map (·.table) =
      s.handles.map (·.table) := by
    obtain ⟨hi, rfl⟩ := List.getElem?_eq_some_iff.1 hx
    have htable : s.handles[i].table = (s.handles.map (·.table)).get ⟨i, by simpa using hi⟩ := by
      simp
    rw [map_set, htable, get_eq_getElem, set_getElem_self]
  have hcount : ∀ t, (s.handles.set i { x with pins := pins }).countP (·.table = t) =
      s.handleCount t := fun t ↦ by
    have := congrArg (countP (· = t)) htables
    rwa [countP_map, countP_map] at this
  refine ⟨h.used, h.nodup, h.lru, fun t e he ↦ ?_, fun z hz ↦ ?_, h.safe, h.gone⟩
  · exact { h.entry t e he with refs := (h.entry t e he).refs.trans (hcount t).symm }
  · rcases mem_or_eq_of_mem_set hz with hz | rfl
    · exact h.held z hz
    · exact h.held x (mem_of_getElem? hx)

/-! ### Eviction -/

/-- Recycling the cached pages of an unpinned entry fails no check. -/
theorem evictRootForCache (h : s.Ok) (hp : s.pendingErase = []) (he : s.entries.get? t = some e)
    (href : e.refCnt = 0) : s.evictRootForCache t e = s := by
  have hpinned : ∀ p, s.pagePinned t p = false := fun p ↦ by
    rw [pagePinned, List.any_eq_false]
    intro x hx
    simp [h.no_handle he href x hx]
  simp only [RootCache.evictRootForCache, check_of_true s (decide_eq_true href)]
  by_cases hm : e.mapper = true
  · rw [if_pos hm, check_of_true s (by simp [hpinned]), processPendingErase_of_nil hp, ite_self]
  · rw [if_neg hm]
    exact check_of_true s (decide_eq_true ((h.entry t e he).empty href (by simpa using hm)))

/-- What an eviction leaves: pinned entries and those that are being loaded stay. -/
structure Evicts (s y : RootCache) : Prop extends Shrinks s y where
  ok : y.Ok
  pending : y.pendingErase = []
  loading : ∀ t e, s.entries.get? t = some e → e.locked = true → y.entries.get? t = some e

/-- **The eviction loop keeps the invariant.** -/
theorem evictLoop (l : List ℕ) (h : s.Ok) (hp : s.pendingErase = [])
    (hl : ∀ t ∈ l, ∀ e, s.entries.get? t = some e → e.refCnt = 0) :
    Evicts s (RootCache.evictLoop s l) := by
  induction l generalizing s with
  | nil => exact ⟨.refl s, h, hp, fun _ _ he _ ↦ he⟩
  | cons t l ih =>
    have hrest : ∀ t ∈ l, ∀ e, s.entries.get? t = some e → e.refCnt = 0 :=
      fun t' ht' ↦ hl t' (mem_cons_of_mem _ ht')
    unfold RootCache.evictLoop
    split
    · exact ⟨.refl s, h, hp, fun _ _ he _ ↦ he⟩
    split
    · exact ih h hp hrest
    · exact ⟨.refl s, h, hp, fun _ _ he _ ↦ he⟩
    · next e cursor he hcursor =>
      split
      · exact ih h hp hrest
      · next hunlocked =>
        have href := hl t (by simp) e he
        have hmem : cursor ∈ s.lru := by simpa using find?_some hcursor
        have hpages : (if e.mapper = true then 0 else e.cachedPages.length) = 0 := by
          by_cases hm : e.mapper = true
          · rw [if_pos hm]
          · rw [if_neg hm, (h.entry t e he).empty href (by simpa using hm), length_nil]
        simp only [h.evictRootForCache hp he href, check_of_true s (decide_eq_true hmem), hpages]
        have hshrinks := shrinks_remove s t e 0
        have hloop := ih (h.remove he href) hp fun t' ht' e' he' ↦
          hrest t' ht' e' (hshrinks.get t' e' he')
        refine ⟨hshrinks.trans hloop.toShrinks, hloop.ok, hloop.pending, fun t' e' he' hl' ↦ ?_⟩
        refine hloop.loading t' e' ?_ hl'
        have hne : t' ≠ t := by
          rintro rfl
          exact hunlocked (some.inj (he.symm.trans he') ▸ hl')
        exact (get?_erase_of_ne hne).trans he'

theorem evictIfNeeded (h : s.Ok) (hp : s.pendingErase = []) : Evicts s s.evictIfNeeded := by
  refine h.evictLoop _ hp fun t ht e he ↦ ?_
  obtain ⟨e', he', href⟩ := (h.lru t).1 (mem_reverse.1 ht)
  rwa [some.inj (he.symm.trans he')]

/-- **`UpdateRoot`** on an entry. The entry stays if it is pinned or being loaded. -/
theorem updateRoot (h : s.Ok) (hp : s.pendingErase = []) (he : s.entries.get? t = some e)
    (bytes : ℕ) :
    Evicts (s.updateBytes t { e with mapper := true } bytes) (s.updateRoot t e bytes) := by
  have hok : (s.updateBytes t { e with mapper := true } bytes).Ok := by
    refine h.updateBytes (e := { e with mapper := true }) he rfl bytes
      { h.entry t e he with empty := by simp, pending := fun ht ↦ ?_ }
    cases hp ▸ ht
  exact hok.evictIfNeeded hp

theorem getOrCreate (h : s.Ok) (t : ℕ) :
    (s.getOrCreate t).2.Ok ∧ (s.getOrCreate t).2.pendingErase = [] ∧
      (s.getOrCreate t).2.entries.get? t = some (s.getOrCreate t).1 ∧
      (s.entries.get? t = some (s.getOrCreate t).1 ∨ (s.getOrCreate t).1 = {}) := by
  obtain ⟨hok, hshrinks⟩ := h.processPendingErase
  cases he : s.processPendingErase.entries.get? t with
  | some e =>
    have heq : s.getOrCreate t = (e, s.processPendingErase) := by rw [RootCache.getOrCreate, he]
    rw [heq]
    exact ⟨hok, rfl, he, .inl (hshrinks.get t e he)⟩
  | none =>
    have heq : s.getOrCreate t = ({}, s.processPendingErase.insertEntry t {}) := by
      rw [RootCache.getOrCreate, he]
    rw [heq]
    exact ⟨hok.insertEntry he rfl rfl rfl rfl, rfl, get?_set_self _ t _, .inr rfl⟩

theorem clearEntry (h : s.Ok) (he : s.entries.get? t = some e)
    (hpages : e.refCnt = 0 → e.cachedPages = []) :
    (s.updateBytes t { e with mapper := false } 0).Ok :=
  h.updateBytes (e := { e with mapper := false }) he rfl 0
    { h.entry t e he with
      empty := fun hr _ ↦ hpages hr
      pending := fun ht ↦ ⟨((h.entry t e he).pending ht).1, rfl⟩ }

/-! ### The events keep the invariant -/

open RootEvent

section

variable (h : s.Ok)

include h

theorem lookup (hstep : run s (.lookup t) = some y) : y.Ok := by
  obtain ⟨hok, -⟩ := h.processPendingErase
  simp only [run] at hstep
  split at hstep
  · next he =>
    cases hstep
    exact hok.insertEntry he rfl rfl rfl rfl
  · next e he =>
    obtain ⟨hunlocked, hy⟩ := ite_none_left_eq_some.1 hstep
    cases hy
    exact hok.pin he (by simpa using hunlocked) (by simp [RootCache.processPendingErase])

theorem loaded {bytes : ℕ} (hclean : RootEvent.Clean s (.loaded t bytes))
    (hstep : run s (.loaded t bytes) = some y) : y.Ok := by
  simp only [run] at hstep
  split at hstep
  · cases hstep
  · next e he =>
    obtain ⟨hl, hstep⟩ := ite_none_right_eq_some.1 hstep
    have hevicts := h.updateRoot hclean he bytes
    have hget : (s.updateRoot t e bytes).entries.get? t =
        some { e with mapper := true, bytes := bytes } :=
      hevicts.loading t _ (get?_set_self _ t _) hl
    obtain ⟨href, hpages, -⟩ := (h.entry t e he).locked hl
    split at hstep
    · cases hstep
      refine hevicts.ok.eraseEntry fun e' he' ↦ ?_
      cases hget.symm.trans he'
      exact ⟨href, hpages⟩
    · rw [hget] at hstep
      cases hstep
      have hset := hevicts.ok.setEntry
        (e := { e with mapper := true, bytes := bytes, locked := false }) hget _ rfl
        { hevicts.ok.entry t _ hget with
          locked := by simp
          empty := by simp
          pending := by simp [hevicts.pending] }
      refine Ok.pin hset (get?_set_self _ t _) rfl ?_
      show t ∉ (s.updateRoot t e bytes).pendingErase
      simp [hevicts.pending]

theorem release {i : ℕ} (hclean : RootEvent.Clean s (.release i))
    (hstep : run s (.release i) = some y) : y.Ok := by
  simp only [run] at hstep
  split at hstep
  · cases hstep
  · next x hx =>
    obtain ⟨-, hstep⟩ := ite_none_right_eq_some.1 hstep
    obtain ⟨e, he, rfl⟩ := map_eq_some_iff.1 hstep
    exact h.unpin hx he (hclean x hx e he)

/-- The entry of a handle is there when a lookup is over, and it is pinned. -/
theorem exists_entry_of_handle (hx : x ∈ s.handles) :
    ∃ e, s.processPendingErase.entries.get? x.table = some e ∧ e.refCnt ≠ 0 := by
  obtain ⟨hok, hshrinks⟩ := h.processPendingErase
  have hx' : x ∈ s.processPendingErase.handles := hshrinks.handles ▸ hx
  obtain ⟨e, he⟩ := hok.held x hx'
  exact ⟨e, he, fun href ↦ hok.no_handle he href x hx' rfl⟩

theorem cachePage {i p : ℕ} (hstep : run s (.cachePage i p) = some y) :
    y.Ok := by
  obtain ⟨hok, -⟩ := h.processPendingErase
  simp only [run] at hstep
  split at hstep
  · cases hstep
  · next x hx =>
    obtain ⟨e, he, href⟩ := h.exists_entry_of_handle (mem_of_getElem? hx)
    simp only [he] at hstep
    cases hstep
    exact hok.setEntry he _ rfl
      { hok.entry _ e he with
        locked := fun hl ↦ absurd ((hok.entry _ e he).locked hl).1 href
        empty := fun hr ↦ absurd hr href }

theorem recyclePage {p : ℕ} (hstep : run s (.recyclePage t p) = some y) :
    y.Ok := by
  obtain ⟨hok, -⟩ := h.processPendingErase
  obtain ⟨-, hstep⟩ := ite_none_left_eq_some.1 hstep
  split at hstep
  · cases hstep
    exact hok
  · next e he =>
    cases hstep
    have hentry := hok.entry t e he
    refine hok.setEntry he _ rfl { hentry with
      locked := fun hl ↦ ⟨(hentry.locked hl).1, ?_, (hentry.locked hl).2.2⟩
      empty := fun hr hm ↦ ?_ }
    · show e.cachedPages.erase p = []
      rw [(hentry.locked hl).2.1, erase_nil]
    · show e.cachedPages.erase p = []
      rw [hentry.empty hr hm, erase_nil]

theorem commit {i bytes : ℕ} (hstep : run s (.commit i bytes) = some y) :
    y.Ok := by
  obtain ⟨hok, hshrinks⟩ := h.processPendingErase
  simp only [run] at hstep
  split at hstep
  · cases hstep
  · next x hx =>
    obtain ⟨e, he, -⟩ := h.exists_entry_of_handle (mem_of_getElem? hx)
    simp only [he] at hstep
    obtain ⟨e', he', rfl⟩ := map_eq_some_iff.1 hstep
    have hevicts := hok.updateRoot rfl he bytes
    have hx' : (s.processPendingErase.updateRoot x.table e bytes).handles[i]? = some x := by
      rw [hevicts.handles]
      exact (congrArg (·[i]?) hshrinks.handles).trans hx
    refine hevicts.ok.unpin hx' he' fun _ hm ↦ ?_
    -- the entry is the one that was just given a mapper
    have hmapper := hevicts.get _ _ he'
    rw [RootCache.updateBytes, RootCache.setEntry, get?_set_self] at hmapper
    cases hmapper
    cases hm

theorem clear (hclean : RootEvent.Clean s (.clear t)) (hstep : run s (.clear t) = some y) :
    y.Ok := by
  obtain ⟨hok, hshrinks⟩ := h.processPendingErase
  simp only [run] at hstep
  split at hstep
  · cases hstep
    exact hok
  · next e he =>
    cases hstep
    exact hok.clearEntry he (hclean e (hshrinks.get t e he))

theorem clearOrCreate (hclean : RootEvent.Clean s (.clearOrCreate t))
    (hstep : run s (.clearOrCreate t) = some y) : y.Ok := by
  obtain ⟨hok, -, hget, hentry⟩ := h.getOrCreate t
  cases hstep
  refine hok.clearEntry hget fun hr ↦ ?_
  rcases hentry with he | he
  · exact hclean _ he hr
  · rw [he]

theorem event {e : RootEvent} (hclean : e.Clean s) (hstep : e.run s = some y) :
    y.Ok := by
  cases e with
  | lookup t => exact h.lookup hstep
  | loaded t bytes => exact h.loaded hclean hstep
  | loadFails t =>
    simp only [run] at hstep
    split at hstep
    · cases hstep
    · next e he =>
      obtain ⟨hl, rfl⟩ := ite_some_none_eq_some.1 hstep
      refine h.eraseEntry fun e' he' ↦ ?_
      cases he.symm.trans he'
      exact ⟨((h.entry t e he).locked hl).1, ((h.entry t e he).locked hl).2.1⟩
  | createStub t =>
    simp only [run] at hstep
    split at hstep
    · cases hstep
    · next he =>
      cases hstep
      exact (h.processPendingErase.1.insertEntry he rfl rfl rfl rfl).pin
        (get?_set_self _ t _) rfl (by simp [RootCache.insertEntry, enqueueFront, check,
          RootCache.setEntry, RootCache.processPendingErase])
  | release i => exact h.release hclean hstep
  | cachePage i p => exact h.cachePage hstep
  | pinPage i p =>
    simp only [run] at hstep
    split at hstep
    · cases hstep
    · next x hx =>
      cases hstep
      exact h.setHandle hx _
  | unpinPage i k =>
    simp only [run] at hstep
    split at hstep
    · cases hstep
    · next x hx =>
      cases hstep
      exact h.setHandle hx _
  | recyclePage t p => exact h.recyclePage hstep
  | commit i bytes => exact h.commit hstep
  | clear t => exact h.clear hclean hstep
  | clearOrCreate t => exact h.clearOrCreate hclean hstep
  | install t bytes =>
    obtain ⟨hok, hp, hget, -⟩ := h.getOrCreate t
    cases hstep
    exact (hok.updateRoot hp hget bytes).ok

end

theorem init (capacity : ℕ) : Ok { capacityBytes := capacity } where
  used := rfl
  nodup := nodup_nil
  lru t := by simp
  entry t e he := absurd he (by simp)
  held x hx := absurd hx (by simp)
  safe := rfl
  gone n hn := absurd hn (by simp)

end Ok

/-! ### Runs -/

/-- What is asked of the cache: the bytes add up, the list holds the unpinned entries that are not
being loaded, and no entry has gone with cached pages or failed a check. An entry that is being
loaded is on the list as well, where the eviction loop passes over it, so that the second part holds
for an entry just when it is not being loaded. -/
structure Sound (s : RootCache) : Prop where
  used : s.usedBytes = s.entries.weight (·.bytes)
  /-- Only entries are on the list, and none twice. -/
  entry : s.lru.Nodup ∧ ∀ t ∈ s.lru, ∃ e, s.entries.get? t = some e
  lru : ∀ t e, s.entries.get? t = some e →
    ((t ∈ s.lru ↔ e.refCnt = 0 ∧ e.locked = false) ↔ e.locked = false)
  gone : ∀ n ∈ s.gone, n = 0
  safe : s.crashed = false

theorem Ok.sound {s : RootCache} (h : s.Ok) : s.Sound where
  __ := h
  entry := ⟨h.nodup, fun t ht ↦ by
    obtain ⟨e, he, -⟩ := (h.lru t).1 ht
    exact ⟨e, he⟩⟩
  lru t e he := by
    have hmem : t ∈ s.lru ↔ e.refCnt = 0 := by simp [h.lru, he]
    rw [hmem]
    cases hl : e.locked with
    | false => simp
    | true => simp [((h.entry t e he).locked hl).1]

theorem Ok.of_run {capacity : ℕ} {s : RootCache}
    (hrun : RootRuns RootEvent.Clean { capacityBytes := capacity } s) : s.Ok :=
  hrun.invariant Ok (.init capacity) fun h hclean hstep ↦ h.event hclean hstep

/-- **In every run of lookups, loads, commits, aborts, drops, reopens, page reads and evictions in
which no emptied entry is left with cached pages, the root cache is sound.** -/
theorem sound_of_clean {capacity : ℕ} {s : RootCache}
    (hrun : RootRuns RootEvent.Clean { capacityBytes := capacity } s) : s.Sound :=
  (Ok.of_run hrun).sound

/-- A partition is loaded while two others, one of them dropped after its page was recycled, are
evicted. -/
theorem sound_of_clean_evicted :
    ∃ s, RootRuns RootEvent.Clean { capacityBytes := 15 } s ∧ s.gone = [0, 0] ∧ s.Sound :=
  exists_reach_and_of_exec (fun hrun ↦ sound_of_clean hrun)
    [.createStub 1, .cachePage 0 7, .commit 0 10, .lookup 1, .pinPage 0 7, .unpinPage 0 0,
      .release 0, .recyclePage 1 7, .clear 1, .createStub 2, .cachePage 0 8, .commit 0 10,
      .lookup 3, .loaded 3 10] (by decide +kernel)

/-- **What the code does without the condition.** A dropped partition keeps its cached page and
fails a check when it is evicted; the stub of an aborted first write is erased with a cached page;
and an entry that is being loaded is on the list. -/
theorem cached_page_of_empty_entry :
    (∃ s, RootRuns (fun _ _ ↦ True) { capacityBytes := 15 } s ∧ s.crashed = true) ∧
    (∃ s, RootRuns (fun _ _ ↦ True) { capacityBytes := 15 } s ∧ s.gone = [1]) ∧
    ∃ s, RootRuns (fun _ _ ↦ True) { capacityBytes := 15 } s ∧
      ∃ e, s.entries.get? 1 = some e ∧ e.locked = true ∧ 1 ∈ s.lru := by
  refine ⟨?_, ?_, ?_⟩
  · exact exists_reach_of_exec [.createStub 1, .cachePage 0 7, .commit 0 10, .clear 1,
      .createStub 2, .commit 0 10, .createStub 3, .commit 0 10] (by decide +kernel)
  · exact exists_reach_of_exec [.createStub 1, .cachePage 0 7, .release 0, .lookup 2]
      (by decide +kernel)
  · refine ⟨_, .step .start trivial (a := .lookup 1) rfl, ?_⟩
    exact ⟨{ locked := true }, rfl, rfl, by decide⟩

end RootCache

end EloqStore
