import EloqStore.Cloud.LocalCache

/-!
# Descriptor slots and the handles on them

In cloud and standby mode a partition can have files of several branches and terms with the same
file id, but its open descriptors are kept in **slots** that are keyed by the file id alone. A
handle that `OpenOrCreateFD` gives out is a reference to the slot: what is read or written through
it goes to the file whose descriptor the slot has at that moment.

When a slot is open for another branch or term than the one requested, `OpenOrCreateFD` closes its
descriptor and opens the requested file *in place*, whoever else holds a handle on the slot; when
one of the two terms is `0`, it takes the slot as it is. A close by file id, of the manifest or by
the local garbage collection, does not look at the handles either. And the slot's `dirty_` flag
stays set through all this, so that it is another file that is synchronised for it.

`FdTable.led_of_clean` has the runs in which none of this happens: every handle leads to the file it
was obtained for, and every flag is set and cleared for the file that was written.
-/

namespace EloqStore

open AssocMap List Option Transition

/-! ### Slots -/

/-- The lock of a slot. -/
inductive SlotLock
  | free
  /-- `OpenOrCreateFD` opens the file of an owner, for a handle. -/
  | opening (k : ℕ) (owner : Owner)
  /-- `CloseFile` is under way. -/
  | closing
deriving DecidableEq, Repr

/-- A descriptor slot. -/
structure FdSlot where
  /-- The branch and term of the file whose descriptor it has. -/
  current : Option Owner := none
  dirty : Bool := false
  /-- The owner of the file whose write has set the flag. -/
  written : Option Owner := none
  lock : SlotLock := .free
deriving DecidableEq, Repr

/-- What `OpenOrCreateFD` finds in a slot. -/
inductive CacheState
  | empty
  | cachedHit
  | cachedMismatch
deriving DecidableEq, Repr

def FdSlot.classify (slot : FdSlot) (requested : Owner) : CacheState :=
  match slot.current with
  | none => .empty
  | some cached => if cached.Mismatch requested then .cachedMismatch else .cachedHit

/-- What `classify` compares is set: the branch of the slot's file, and its term if that of the
request is. -/
def Owner.TermsSet (cached requested : Owner) : Prop :=
  cached.branchName ≠ "" ∧ (requested.term = 0 ↔ cached.term = 0)

instance (a b : Owner) : Decidable (a.TermsSet b) := inferInstanceAs (Decidable (_ ∧ _))

/-- **A hit is the right file**, when what is compared is set. -/
theorem FdSlot.current_of_cachedHit {slot : FdSlot} {requested : Owner}
    (h : slot.classify requested = .cachedHit)
    (hset : ∀ cached ∈ slot.current, cached.TermsSet requested) :
    slot.current = some requested := by
  unfold classify at h
  split at h
  · cases h
  · next cached hcur =>
    obtain ⟨hbranch, hterm⟩ := hset cached hcur
    split at h
    · cases h
    · next hmatch =>
      obtain ⟨branch, term⟩ := cached
      obtain ⟨branch', term'⟩ := requested
      simp only [Owner.Mismatch, not_or, not_and, not_not] at hmatch hbranch hterm
      have hterms : term = term' := by
        by_cases hzero : term' = 0
        · rw [hzero, hterm.1 hzero]
        · exact hmatch.1 hzero fun h ↦ hzero (hterm.2 h)
      rw [hcur, hmatch.2 hbranch, hterms]

/-- **The flag is in order**: the slot is dirty only while it has the file, of the active branch and
term, whose write has set the flag. -/
structure FdSlot.FlagOk (slot : FdSlot) (active : Owner) : Prop where
  current : slot.dirty = true → slot.current = some active
  written : slot.dirty = true → slot.written = some active
  lock : slot.dirty = true → ∀ k owner, slot.lock ≠ .opening k owner

theorem FdSlot.FlagOk.of_clean {slot : FdSlot} {active : Owner} (h : slot.dirty = false) :
    slot.FlagOk active :=
  ⟨fun hd ↦ absurd (h.symm.trans hd) nofun, fun hd ↦ absurd (h.symm.trans hd) nofun,
    fun hd ↦ absurd (h.symm.trans hd) nofun⟩

/-- A handle, with what it was obtained for. -/
structure FdHandle where
  file : LocalFile
  owner : Owner
deriving DecidableEq, Repr

/-- The slots of a partition. -/
structure FdTable where
  /-- The active branch and the term of the process, under which everything is written. -/
  active : Owner
  slots : AssocMap LocalFile FdSlot := .empty
  handles : AssocMap ℕ FdHandle := .empty
  /-- The files a write task is synchronising, by the names it uploads them under. -/
  syncing : List (LocalFile × Owner) := []
  /-- For every flag that was cleared: the file whose write had set it, and the file that was
  synchronised. -/
  cleared : List (Option Owner × Option Owner) := []

namespace FdTable

variable (s : FdTable) (file : LocalFile)

def slot : FdSlot := (s.slots.get? file).getD {}

def setSlot (slot : FdSlot) : FdTable :=
  { s with slots := s.slots.set file slot }

/-- **Where a read or write through a handle goes.** -/
def target (h : FdHandle) : Option Owner := (s.slot h.file).current

def NoHandle : Prop := ∀ x ∈ s.handles.pairs, x.2.file ≠ file

instance : Decidable (s.NoHandle file) :=
  inferInstanceAs (Decidable (∀ x ∈ s.handles.pairs, x.2.file ≠ file))

/-- The flag of a slot is cleared, a file having been synchronised. -/
def clearDirty (synced : Option Owner) : FdTable :=
  if (s.slot file).dirty then
    { s with
      slots := s.slots.set file { s.slot file with dirty := false, written := none }
      cleared := ((s.slot file).written, synced) :: s.cleared }
  else s

/-- What `SyncData` is to synchronise: the dirty slots, by the names of their files; the manifest
goes by the active branch and term. -/
def dirtyFiles : List (LocalFile × Owner) :=
  s.slots.pairs.filterMap fun x ↦
    if x.2.dirty then
      x.2.current.map fun owner ↦ (x.1, if x.1 = .manifest then s.active else owner)
    else none

end FdTable

/-! ### Events -/

/-- What happens to the slots of a partition. -/
inductive FdEvent
  /-- `OpenOrCreateFD` takes the slot as it is. -/
  | openHit (k : ℕ) (file : LocalFile) (owner : Owner)
  /-- `OpenOrCreateFD` finds the slot closed, or closes it for a mismatch, and begins to open. -/
  | openBegin (k : ℕ) (file : LocalFile) (owner : Owner)
  | openEnd (file : LocalFile) (ok : Bool)
  | release (k : ℕ)
  /-- A write task marks the slot of a handle it writes through. -/
  | markDirty (k : ℕ)
  /-- `CloseFile` begins: of a slot without references from the LRU list, or of the slot of a file
  id. -/
  | closeBegin (file : LocalFile) (evict : Bool)
  /-- The file is synchronised if it is dirty, and closed; or the synchronisation fails. -/
  | closeEnd (file : LocalFile) (ok : Bool)
  /-- `SyncData` begins. -/
  | syncBegin
  /-- `OnDataFileSealed` begins. -/
  | sealBegin (file : LocalFile)
  | syncEnd
  | abortWrite
deriving DecidableEq, Repr

namespace FdEvent

/-- What an event does; `none` if it cannot happen. -/
def run (s : FdTable) : FdEvent → Option FdTable
  | .openHit k file owner =>
    let slot := s.slot file
    if s.handles.get? k = none ∧ slot.lock = .free ∧ slot.classify owner = .cachedHit then
      some { s with handles := s.handles.set k ⟨file, owner⟩ }
    else none
  | .openBegin k file owner =>
    let slot := s.slot file
    if slot.lock = .free ∧ slot.classify owner ≠ .cachedHit then
      some (s.setSlot file { slot with current := none, lock := .opening k owner })
    else none
  | .openEnd file ok =>
    let slot := s.slot file
    match slot.lock with
    | .opening k owner =>
      if ok then
        if s.handles.get? k = none then
          some { s.setSlot file { slot with current := some owner, lock := .free } with
            handles := s.handles.set k ⟨file, owner⟩ }
        else none
      else some (s.setSlot file { slot with lock := .free })
    | _ => none
  | .release k => (s.handles.get? k).map fun _ ↦ { s with handles := s.handles.erase k }
  | .markDirty k =>
    ((s.handles.get? k).filter fun h ↦ h.owner = s.active).map fun h ↦
      s.setSlot h.file { s.slot h.file with dirty := true, written := some h.owner }
  | .closeBegin file evict =>
    let slot := s.slot file
    if slot.lock = .free ∧ slot.current ≠ none ∧
        (evict = true → s.NoHandle file ∧ file ∉ s.syncing.map (·.1)) then
      some (s.setSlot file { slot with lock := .closing })
    else none
  | .closeEnd file ok =>
    let slot := s.slot file
    if slot.lock = .closing then
      some <|
        if ok then
          let s' := s.clearDirty file slot.current
          s'.setSlot file { s'.slot file with current := none, lock := .free }
        else s.setSlot file { slot with lock := .free }
    else none
  | .syncBegin =>
    if s.syncing = [] ∧ ∀ x ∈ s.slots.pairs, x.2.dirty → x.2.lock = .free then
      some { s with syncing := s.dirtyFiles }
    else none
  | .sealBegin file =>
    let slot := s.slot file
    if s.syncing = [] ∧ slot.lock = .free ∧ slot.current ≠ none then
      some { s with syncing := [(file, s.active)] }
    else none
  | .syncEnd =>
    some { s.syncing.foldl (fun s x ↦ s.clearDirty x.1 (some x.2)) s with syncing := [] }
  | .abortWrite =>
    some (s.slots.pairs.foldl (fun s x ↦ s.clearDirty x.1 (s.slot x.1).current) s)

/-- **The condition on a step**:

* a slot that is taken as it is was opened for a branch, and either both terms are `0`, that of its
  file and the one requested, or neither is;
* a slot that is closed for a mismatch is not dirty and no handle on it is held;
* a slot that is closed by its file id has no handle held on it. -/
def Clean (s : FdTable) : FdEvent → Prop
  | .openHit _ file owner => ∀ cached ∈ (s.slot file).current, cached.TermsSet owner
  | .openBegin _ file _ =>
    (s.slot file).current ≠ none → (s.slot file).dirty = false ∧ s.NoHandle file
  | .closeBegin file evict => evict = false → s.NoHandle file
  | _ => True

instance (s : FdTable) (e : FdEvent) : Decidable (e.Clean s) := by
  cases e <;> dsimp only [Clean] <;> infer_instance

end FdEvent

/-- The states the slots of a partition reach by events that meet the guard. -/
def FdRuns (G : FdTable → FdEvent → Prop) (active : Owner) (s : FdTable) : Prop :=
  Transition.Reach (fun s e t ↦ FdEvent.run s e = some t) G { active } s

namespace FdTable

variable {s s' : FdTable} {file : LocalFile}

theorem slot_setSlot (s : FdTable) (file : LocalFile) (v : FdSlot) (j : LocalFile) :
    (s.setSlot file v).slot j = if j = file then v else s.slot j := by
  unfold slot setSlot
  rw [get?_set]
  split <;> rfl

theorem slot_of_mem {x : LocalFile × FdSlot} (h : x ∈ s.slots.pairs) : s.slot x.1 = x.2 :=
  congrArg (fun o : Option FdSlot ↦ o.getD {}) (lookup_of_mem s.slots.nodup h)

theorem NoHandle.file_ne (h : s.NoHandle file) {k : ℕ} {hd : FdHandle}
    (hk : s.handles.get? k = some hd) : hd.file ≠ file :=
  h (k, hd) (mem_of_lookup hk)

/-! ### The invariant -/

/-- **The slots in order**: a handle's slot has the file it was obtained for, a dirty slot has the
file whose write has set its flag. -/
structure Ok (s : FdTable) : Prop where
  /-- The slot of a handle is open for it and not locked. -/
  handle : ∀ {k hd}, s.handles.get? k = some hd →
    (s.slot hd.file).current = some hd.owner ∧ (s.slot hd.file).lock = .free
  flag : ∀ file, (s.slot file).FlagOk s.active
  /-- What is synchronised is of the active branch and term. -/
  syncing : ∀ x ∈ s.syncing, x.2 = s.active
  /-- Every flag was cleared for the file whose write had set it. -/
  cleared : ∀ x ∈ s.cleared, x.1 = x.2

theorem Ok.file_ne (h : s.Ok) (hlock : (s.slot file).lock ≠ .free) {k : ℕ} {hd : FdHandle}
    (hk : s.handles.get? k = some hd) : hd.file ≠ file := by
  rintro rfl
  exact hlock (h.handle hk).2

theorem Ok.setSlot (h : s.Ok) (file : LocalFile) {v : FdSlot}
    (hhandle : ∀ k hd, s.handles.get? k = some hd → hd.file = file →
      v.current = some hd.owner ∧ v.lock = .free)
    (hflag : v.FlagOk s.active) : (s.setSlot file v).Ok where
  handle {k hd} hk := by
    rw [slot_setSlot]
    split
    · next hfile => exact hhandle k hd hk hfile
    · exact h.handle hk
  flag j := by
    rw [slot_setSlot]
    split
    · exact hflag
    · exact h.flag j
  __ := h

@[simp] theorem handles_clearDirty (s : FdTable) (file : LocalFile) (synced : Option Owner) :
    (s.clearDirty file synced).handles = s.handles := by
  unfold clearDirty
  split <;> rfl

@[simp] theorem active_clearDirty (s : FdTable) (file : LocalFile) (synced : Option Owner) :
    (s.clearDirty file synced).active = s.active := by
  unfold clearDirty
  split <;> rfl

theorem dirty_clearDirty (s : FdTable) (file : LocalFile) (synced : Option Owner) :
    ((s.clearDirty file synced).slot file).dirty = false := by
  unfold clearDirty
  split
  · exact congrArg FdSlot.dirty ((s.slot_setSlot file _ file).trans (if_pos rfl))
  · next hdirty => exact eq_false_of_ne_true hdirty

/-- A flag is cleared for the file that is synchronised. -/
theorem Ok.clearDirty (h : s.Ok) {synced : Option Owner}
    (hsynced : (s.slot file).dirty = true → synced = some s.active) :
    (s.clearDirty file synced).Ok := by
  unfold FdTable.clearDirty
  split
  · next hdirty =>
    have hset : (s.setSlot file { s.slot file with dirty := false, written := none }).Ok :=
      h.setSlot file (fun k hd hk hfile ↦ hfile ▸ h.handle hk) (.of_clean rfl)
    refine ⟨hset.handle, hset.flag, hset.syncing, fun x hx ↦ ?_⟩
    obtain rfl | hx := mem_cons.1 hx
    · exact ((h.flag file).written hdirty).trans (hsynced hdirty).symm
    · exact h.cleared x hx
  · exact h

theorem Ok.foldl_clearDirty {ι : Type*} {l : List ι} (file : ι → LocalFile)
    {synced : FdTable → ι → Option Owner} {a : Owner}
    (hsynced : ∀ t : FdTable, t.Ok → t.active = a → ∀ x ∈ l,
      (t.slot (file x)).dirty = true → synced t x = some a)
    (h : s.Ok) (ha : s.active = a) :
    (l.foldl (fun t x ↦ t.clearDirty (file x) (synced t x)) s).Ok := by
  induction l generalizing s with
  | nil => exact h
  | cons x l ih =>
    refine ih (fun t ht hta y hy ↦ hsynced t ht hta y (mem_cons_of_mem _ hy)) ?_ ?_
    · refine h.clearDirty fun hdirty ↦ ?_
      rw [ha]
      exact hsynced s h ha x mem_cons_self hdirty
    · rw [active_clearDirty, ha]

theorem Ok.event (h : s.Ok) {e : FdEvent} (hclean : e.Clean s) (hstep : e.run s = some s') :
    s'.Ok := by
  cases e with
  | openHit k file owner =>
    obtain ⟨⟨-, hlock, hhit⟩, rfl⟩ := ite_some_none_eq_some.1 hstep
    refine ⟨fun {j hd} hj ↦ ?_, h.flag, h.syncing, h.cleared⟩
    rw [get?_set] at hj
    split at hj
    · cases hj
      exact ⟨FdSlot.current_of_cachedHit hhit hclean, hlock⟩
    · exact h.handle hj
  | openBegin k file owner =>
    obtain ⟨-, rfl⟩ := ite_some_none_eq_some.1 hstep
    refine h.setSlot file (fun j hd hj hfile ↦ ?_) (.of_clean ?_)
    · -- a handle on the slot would have it open, and then none is held
      have hcur : (s.slot file).current = some hd.owner := hfile ▸ (h.handle hj).1
      exact absurd hfile ((hclean (hcur ▸ some_ne_none _)).2.file_ne hj)
    · refine eq_false_of_ne_true fun hdirty ↦ ?_
      have hcur := (h.flag file).current hdirty
      simp [(hclean (hcur ▸ some_ne_none _)).1] at hdirty
  | openEnd file ok =>
    simp only [FdEvent.run] at hstep
    split at hstep
    · next k owner hlock =>
      have hfree : (s.slot file).lock ≠ .free := by simp [hlock]
      have hdirty : (s.slot file).dirty = false :=
        eq_false_of_ne_true fun hdirty ↦ (h.flag file).lock hdirty k owner hlock
      cases ok with
      | true =>
        obtain ⟨-, rfl⟩ := ite_some_none_eq_some.1 hstep
        have hset : (s.setSlot file { s.slot file with current := some owner, lock := .free }).Ok :=
          h.setSlot file (fun j hd hj hfile ↦ absurd hfile (h.file_ne hfree hj)) (.of_clean hdirty)
        refine ⟨fun {j hd} hj ↦ ?_, hset.flag, hset.syncing, hset.cleared⟩
        rw [get?_set] at hj
        split at hj
        · cases hj
          show ((s.setSlot file _).slot file).current = _ ∧ ((s.setSlot file _).slot file).lock = _
          rw [slot_setSlot, if_pos rfl]
          exact ⟨rfl, rfl⟩
        · exact hset.handle hj
      | false =>
        cases hstep
        exact h.setSlot file (fun j hd hj hfile ↦ absurd hfile (h.file_ne hfree hj))
          (.of_clean hdirty)
    · cases hstep
  | release k =>
    obtain ⟨hd, -, rfl⟩ := map_eq_some_iff.1 hstep
    refine ⟨fun {j hd} hj ↦ ?_, h.flag, h.syncing, h.cleared⟩
    rw [get?_erase] at hj
    obtain ⟨-, hj⟩ := ite_none_left_eq_some.1 hj
    exact h.handle hj
  | markDirty k =>
    obtain ⟨hd, hk, rfl⟩ := map_eq_some_iff.1 hstep
    obtain ⟨hk, howner⟩ := filter_eq_some_iff.1 hk
    have howner : hd.owner = s.active := of_decide_eq_true howner
    obtain ⟨hcur, hlock⟩ := h.handle hk
    refine h.setSlot hd.file (fun j hd' hj hfile ↦ hfile ▸ h.handle hj) ⟨fun _ ↦ ?_, fun _ ↦ ?_, ?_⟩
    · exact howner ▸ hcur
    · exact congrArg some howner
    · exact fun _ k owner hopen ↦ by cases hlock.symm.trans hopen
  | closeBegin file evict =>
    obtain ⟨⟨-, -, hevict⟩, rfl⟩ := ite_some_none_eq_some.1 hstep
    have hnone : s.NoHandle file := by
      cases evict with
      | true => exact (hevict rfl).1
      | false => exact hclean rfl
    refine h.setSlot file (fun j hd hj hfile ↦ absurd hfile (hnone.file_ne hj)) ?_
    exact ⟨(h.flag file).current, (h.flag file).written, fun _ _ _ hopen ↦ by cases hopen⟩
  | closeEnd file ok =>
    obtain ⟨hlock, rfl⟩ := ite_some_none_eq_some.1 hstep
    have hfree : (s.slot file).lock ≠ .free := by simp [hlock]
    cases ok with
    | true =>
      have hclear := h.clearDirty (h.flag file).current
      refine hclear.setSlot file (fun j hd hj hfile ↦ ?_) (.of_clean (s.dirty_clearDirty file _))
      rw [handles_clearDirty] at hj
      exact absurd hfile (h.file_ne hfree hj)
    | false =>
      refine h.setSlot file (fun j hd hj hfile ↦ absurd hfile (h.file_ne hfree hj)) ?_
      exact ⟨(h.flag file).current, (h.flag file).written, fun _ _ _ hopen ↦ by cases hopen⟩
  | syncBegin =>
    obtain ⟨-, rfl⟩ := ite_some_none_eq_some.1 hstep
    refine ⟨h.handle, h.flag, fun x hx ↦ ?_, h.cleared⟩
    obtain ⟨y, hy, hx⟩ := mem_filterMap.1 hx
    obtain ⟨hdirty, hx⟩ := ite_none_right_eq_some.1 hx
    obtain ⟨owner, howner, rfl⟩ := map_eq_some_iff.1 hx
    rw [← slot_of_mem hy] at hdirty howner
    have hactive := some.inj (howner.symm.trans ((h.flag y.1).current hdirty))
    split
    · rfl
    · exact hactive
  | sealBegin file =>
    obtain ⟨-, rfl⟩ := ite_some_none_eq_some.1 hstep
    refine ⟨h.handle, h.flag, fun x hx ↦ ?_, h.cleared⟩
    obtain rfl := mem_singleton.1 hx
    rfl
  | syncEnd =>
    cases hstep
    have hfold := Ok.foldl_clearDirty (l := s.syncing) Prod.fst
      (fun _ _ _ x hx _ ↦ congrArg some (h.syncing x hx)) h rfl
    exact ⟨hfold.handle, hfold.flag, fun x hx ↦ absurd hx not_mem_nil, hfold.cleared⟩
  | abortWrite =>
    cases hstep
    refine Ok.foldl_clearDirty Prod.fst (fun t ht hta x _ hdirty ↦ ?_) h rfl
    rw [← hta]
    exact (ht.flag x.1).current hdirty

/-- **The slots, as the tasks see them.** -/
structure Sound (s : FdTable) : Prop where
  /-- What is read or written through a handle goes to the file it was obtained for. -/
  handle : ∀ k hd, s.handles.get? k = some hd → s.target hd = some hd.owner
  dirty : ∀ file, (s.slot file).dirty = true → (s.slot file).current = (s.slot file).written
  /-- Every flag was cleared for the file whose write had set it. -/
  cleared : ∀ x ∈ s.cleared, x.1 = x.2

theorem Ok.sound (h : s.Ok) : s.Sound where
  handle _ _ hk := (h.handle hk).1
  dirty file hdirty := ((h.flag file).current hdirty).trans ((h.flag file).written hdirty).symm
  cleared := h.cleared

/-- **Handles and flags**: in every run whose steps all meet the condition, every handle leads to
the file it was obtained for as long as it is held, and every flag is set and cleared for the file
that was written. -/
theorem led_of_clean {active : Owner} (h : FdRuns FdEvent.Clean active s) : s.Sound := by
  refine (Reach.invariant Ok ⟨?_, ?_, ?_, ?_⟩ ?_ h).sound
  · exact by simp
  · exact fun file ↦ .of_clean rfl
  · exact fun x hx ↦ absurd hx not_mem_nil
  · exact fun x hx ↦ absurd hx not_mem_nil
  · intro s e t hs hclean hstep
    exact hs.event hclean hstep

/-- The files `data_5` of the branches `main` and `fork`. -/
def data5 : LocalFile := .data 5

/-- A writer and a reader have a handle on a file of the active branch; it is synchronised and given
up, evicted, and then opened for another branch. -/
theorem led_of_clean_evicted :
    ∃ s, FdRuns FdEvent.Clean ⟨"fork", 1⟩ s ∧ (s.slot data5).current = some ⟨"main", 1⟩ ∧
      s.cleared.length = 1 ∧ s.Sound := by
  obtain ⟨s, hrun, hcur, hlen⟩ : ∃ s, FdRuns FdEvent.Clean ⟨"fork", 1⟩ s ∧
      (s.slot data5).current = some ⟨"main", 1⟩ ∧ s.cleared.length = 1 :=
    exists_reach_of_exec [.openBegin 0 data5 ⟨"fork", 1⟩, .openEnd data5 true, .markDirty 0,
        .openHit 1 data5 ⟨"fork", 1⟩, .syncBegin, .syncEnd, .release 0, .release 1,
        .closeBegin data5 true, .closeEnd data5 true, .openBegin 2 data5 ⟨"main", 1⟩,
        .openEnd data5 true] (by decide +kernel)
  exact ⟨s, hrun, hcur, hlen, led_of_clean hrun⟩

/-- **Three ways a handle or a flag goes astray**: a file of another branch is opened through the
slot a writer holds, whose writes then go there, and that file is synchronised in place of the one
that was written; a request with term `0` gets the file of another term; and a slot is closed by its
file id under a reader. -/
theorem handles_astray :
    (∃ s hd, FdRuns (fun _ _ ↦ True) ⟨"fork", 1⟩ s ∧ s.handles.get? 0 = some hd ∧
      hd.owner = ⟨"fork", 1⟩ ∧ s.target hd = some ⟨"main", 1⟩ ∧
      s.cleared = [(some ⟨"fork", 1⟩, some ⟨"main", 1⟩)]) ∧
    (∃ s hd, FdRuns (fun _ _ ↦ True) ⟨"main", 3⟩ s ∧ s.handles.get? 1 = some hd ∧
      hd.owner = ⟨"main", 0⟩ ∧ s.target hd = some ⟨"main", 3⟩) ∧
    ∃ s hd, FdRuns (fun _ _ ↦ True) ⟨"main", 1⟩ s ∧ s.handles.get? 0 = some hd ∧
      s.target hd = none := by
  refine ⟨?_, ?_, ?_⟩
  · obtain ⟨s, hrun, hk, htarget, hcleared⟩ : ∃ s, FdRuns (fun _ _ ↦ True) ⟨"fork", 1⟩ s ∧
        s.handles.get? 0 = some ⟨data5, ⟨"fork", 1⟩⟩ ∧
        s.target ⟨data5, ⟨"fork", 1⟩⟩ = some ⟨"main", 1⟩ ∧
          s.cleared = [(some ⟨"fork", 1⟩, some ⟨"main", 1⟩)] :=
      exists_reach_of_exec [.openBegin 0 data5 ⟨"fork", 1⟩, .openEnd data5 true, .markDirty 0,
          .openBegin 1 data5 ⟨"main", 1⟩, .openEnd data5 true, .syncBegin, .syncEnd]
        (by decide +kernel)
    exact ⟨s, _, hrun, hk, rfl, htarget, hcleared⟩
  · obtain ⟨s, hrun, hk, htarget⟩ : ∃ s, FdRuns (fun _ _ ↦ True) ⟨"main", 3⟩ s ∧
        s.handles.get? 1 = some ⟨data5, ⟨"main", 0⟩⟩ ∧
        s.target ⟨data5, ⟨"main", 0⟩⟩ = some ⟨"main", 3⟩ :=
      exists_reach_of_exec
        [.openBegin 0 data5 ⟨"main", 3⟩, .openEnd data5 true, .openHit 1 data5 ⟨"main", 0⟩]
        (by decide +kernel)
    exact ⟨s, _, hrun, hk, rfl, htarget⟩
  · obtain ⟨s, hrun, hk, htarget⟩ : ∃ s, FdRuns (fun _ _ ↦ True) ⟨"main", 1⟩ s ∧
        s.handles.get? 0 = some ⟨data5, ⟨"main", 1⟩⟩ ∧ s.target ⟨data5, ⟨"main", 1⟩⟩ = none :=
      exists_reach_of_exec
        [.openBegin 0 data5 ⟨"main", 1⟩, .openEnd data5 true, .closeBegin data5 false,
          .closeEnd data5 true] (by decide +kernel)
    exact ⟨s, _, hrun, hk, htarget⟩

end FdTable

end EloqStore
