import EloqStore.Foundation.Transition
import EloqStore.Types

/-!
# The mapping snapshots of a partition and their registry

The mapping of a partition is a `MappingSnapshot`, kept alive by counted references: of the page
mapper that owns it, of readers and scans, of a collection that gathers the files in use, of the
write task, and, for pooled file pages, of the snapshot it has replaced. The root entry of the
partition has **registries** of its snapshots, one per class. When the last reference to a snapshot
goes, its destructor looks the root entry up by the partition's name (`FreeMappingSnapshot`): if
there is one, it puts the snapshot's pending-free file pages into the pool of the entry's mapper,
takes the snapshot out of the registries, and **checks that it was in one**.

The entry that is found need not be the one that registered the snapshot. `Drop`, a clean reopen and
a reopen without a remote manifest reset the entry's mapper and empty the registry of data snapshots
while readers may still hold one, or a write task that has ended without a commit and keeps its copy
until its task object is used again; and a collection keeps its snapshots after it has let go of the
entry, which may then be evicted and loaded again. In runs in which none of this happens
(`SnapshotEvent.Unheld`) the check holds whenever a snapshot is destroyed, and its pending-free file
pages go to the allocator they came from (`PartitionSnapshots.sound_of_unheld`).

Destruction is immediate: while an unreferenced snapshot is left, nothing else happens.
-/

namespace EloqStore

open List Option Transition

/-! ### The state -/

/-- A mapping snapshot. -/
structure MappingSnapshot where
  cls : FileClass
  /-- The incarnation of the partition it belongs to. A load, a first write and a reopen each begin
  a new one, with an allocator of its own. -/
  incarnation : ℕ
  /-- The file pages to put back into the pool when it is destroyed. -/
  toFreeFilePages : List ℕ := []
  nextSnapshot : Option ℕ := none
deriving DecidableEq, Repr

/-- A page mapper: the snapshot it owns, and the incarnation of its allocator. -/
structure SnapshotMapper where
  mapping : ℕ
  incarnation : ℕ
deriving DecidableEq, Repr

/-- The root entry, as far as snapshots are concerned. -/
structure SnapshotEntry where
  mapper : Option SnapshotMapper := none
  segmentMapper : Option ℕ := none
  mappingSnapshots : List ℕ := []
  segmentMappingSnapshots : List ℕ := []
deriving DecidableEq, Repr

def SnapshotEntry.registry (r : SnapshotEntry) : FileClass → List ℕ
  | .data => r.mappingSnapshots
  | .segment => r.segmentMappingSnapshots

/-- The snapshots the mappers of the entry own. -/
def SnapshotEntry.refs (r : SnapshotEntry) : List ℕ :=
  (r.mapper.map (·.mapping)).toList ++ r.segmentMapper.toList

/-- The copy-on-write root of a write task. -/
structure CowSnapshots where
  mapper : SnapshotMapper
  segmentMapper : Option ℕ
  /-- The snapshot it replaces; a first write has its own here. -/
  oldMapping : ℕ
  oldSegmentMapping : Option ℕ
deriving DecidableEq, Repr

/-- The snapshots a write task keeps alive. -/
def CowSnapshots.refs (c : CowSnapshots) : List ℕ :=
  c.mapper.mapping :: c.oldMapping :: (c.segmentMapper.toList ++ c.oldSegmentMapping.toList)

/-- Who keeps snapshots alive besides the entry and the write task. -/
structure SnapshotHolder where
  /-- A collection, which runs inside a write task; otherwise a reader, a scan, or the object of a
  write task that has ended with its copy. -/
  collects : Bool
  handle : Bool := true
  refs : List ℕ
deriving DecidableEq, Repr

/-- What the destructor of a snapshot has done. -/
structure DestroyedSnapshot where
  snapshot : MappingSnapshot
  /-- Whether it was registered, if there was a root entry. -/
  registered : Option Bool
  /-- The incarnation of the entry's mapper. -/
  pool : Option ℕ
deriving DecidableEq, Repr

/-- **The destructor did what it should**: there was no root entry, or the snapshot was registered
there and its pending-free file pages went to the allocator of its own incarnation. -/
def DestroyedSnapshot.Sound (d : DestroyedSnapshot) : Prop :=
  d.registered = none ∨
    d.registered = some true ∧
      (d.snapshot.toFreeFilePages ≠ [] → d.pool = some d.snapshot.incarnation)

instance (d : DestroyedSnapshot) : Decidable d.Sound := inferInstanceAs (Decidable (_ ∨ _))

/-- **The snapshots of a partition.** -/
structure PartitionSnapshots where
  /-- File pages are appended, and never reused. -/
  dataAppendMode : Bool
  snapshots : List (ℕ × MappingSnapshot) := []
  /-- The number of snapshots made so far. -/
  made : ℕ := 0
  incarnations : ℕ := 0
  entry : Option SnapshotEntry := none
  holders : List SnapshotHolder := []
  cow : Option CowSnapshots := none
  /-- A drop has reset the mapper and has not emptied the registry yet. -/
  dropping : Bool := false
  destroyed : List DestroyedSnapshot := []

namespace PartitionSnapshots

variable (s : PartitionSnapshots)

/-- The snapshots held besides those of the entry and the running write task. -/
def heldRefs : List ℕ := s.holders.flatMap (·.refs)

/-- The references to snapshots that come from elsewhere than snapshots. -/
def rootRefs : List ℕ :=
  s.entry.toList.flatMap (·.refs) ++ s.heldRefs ++ s.cow.toList.flatMap (·.refs)

def refs : List ℕ := s.rootRefs ++ s.snapshots.filterMap (·.2.nextSnapshot)

/-- The snapshots without a reference. -/
def garbage : List ℕ := (s.snapshots.map (·.1)).filter (· ∉ s.refs)

/-- A handle keeps the entry from being evicted. -/
def pinned : Bool := s.cow.isSome || s.holders.any (·.handle)

/-- A write task runs: one with a copy-on-write root, or one that collects. -/
def writing : Bool := s.cow.isSome || s.holders.any (·.collects)

def make (sn : MappingSnapshot) : PartitionSnapshots :=
  { s with snapshots := (s.made, sn) :: s.snapshots, made := s.made + 1 }

def modify (i : ℕ) (f : MappingSnapshot → MappingSnapshot) : PartitionSnapshots :=
  { s with snapshots := s.snapshots.map fun x ↦ if x.1 = i then (i, f x.2) else x }

variable (r : SnapshotEntry)

/-- Put an incarnation of the partition, with or without segments, into an entry. -/
def install (segments : Bool) : PartitionSnapshots :=
  let mapping := s.made
  let y := s.make { cls := .data, incarnation := s.incarnations }
  let r := { r with
    mapper := some ⟨mapping, s.incarnations⟩
    mappingSnapshots := mapping :: r.mappingSnapshots }
  if segments then
    let z := y.make { cls := .segment, incarnation := s.incarnations }
    { z with
      incarnations := s.incarnations + 1
      entry := some { r with
        segmentMapper := some y.made
        segmentMappingSnapshots := y.made :: r.segmentMappingSnapshots } }
  else { y with incarnations := s.incarnations + 1, entry := some r }

/-- `MakeCowRoot` on a partition that is there: copies of the mappers, both registered. -/
def copyRoot (m : SnapshotMapper) : PartitionSnapshots :=
  let mapping := s.made
  let y := s.make { cls := .data, incarnation := m.incarnation }
  let r' := { r with mappingSnapshots := mapping :: r.mappingSnapshots }
  match r.segmentMapper with
  | none =>
    { y with entry := some r', cow := some ⟨⟨mapping, m.incarnation⟩, none, m.mapping, none⟩ }
  | some sm =>
    let z := y.make { cls := .segment, incarnation := m.incarnation }
    { z with
      entry := some { r' with segmentMappingSnapshots := y.made :: r.segmentMappingSnapshots }
      cow := some ⟨⟨mapping, m.incarnation⟩, some y.made, m.mapping, some sm⟩ }

/-- `MakeCowRoot` on a partition that is not there: an empty mapper, over a stub entry. -/
def stubRoot : PartitionSnapshots :=
  let mapping := s.made
  let y := s.make { cls := .data, incarnation := s.incarnations }
  { y with
    incarnations := s.incarnations + 1
    entry := some { r with mappingSnapshots := mapping :: r.mappingSnapshots }
    cow := some ⟨⟨mapping, s.incarnations⟩, none, mapping, none⟩ }

/-- `UpdateRoot` with the copy-on-write root. -/
def updateRoot (c : CowSnapshots) : PartitionSnapshots :=
  let y := match r.mapper with
    | some m =>
      if s.dataAppendMode then s
      else s.modify m.mapping fun sn ↦ { sn with nextSnapshot := some c.mapper.mapping }
    | none => s
  { y with
    entry := some { r with
      mapper := some c.mapper
      segmentMapper := if c.segmentMapper.isSome then c.segmentMapper else r.segmentMapper }
    cow := none }

/-- **The destructor of a snapshot**, `FreeMappingSnapshot`. -/
def freeMappingSnapshot (i : ℕ) (sn : MappingSnapshot) : PartitionSnapshots :=
  { s with
    snapshots := s.snapshots.filter (·.1 ≠ i)
    entry := s.entry.map fun r ↦ { r with
      mappingSnapshots := r.mappingSnapshots.filter (· ≠ i)
      segmentMappingSnapshots := r.segmentMappingSnapshots.filter (· ≠ i) }
    destroyed :=
      { snapshot := sn
        registered := s.entry.map fun r ↦
          decide (i ∈ r.mappingSnapshots ∨ i ∈ r.segmentMappingSnapshots)
        pool := s.entry.bind fun r ↦ r.mapper.map (·.incarnation) } :: s.destroyed }

end PartitionSnapshots

/-! ### Runs -/

/-- What happens to the snapshots of a partition. -/
inductive SnapshotEvent
  | load (segments : Bool)
  /-- A reopen without a remote manifest makes an empty entry. -/
  | createStub
  /-- A reader or a scan takes a handle and the published mappings. -/
  | pin
  | hold
  /-- A holder gives up one of its snapshots. -/
  | release (i k : ℕ)
  /-- A holder without snapshots is done. -/
  | finish (i : ℕ)
  /-- A collection takes a handle and all registered snapshots of a class. -/
  | gather (cls : FileClass)
  /-- A collection gives up its handle, and goes on with its snapshots. -/
  | unpin (i : ℕ)
  /-- A write task makes its copy-on-write root. -/
  | begin
  | ensureSegmentMapper
  | addFreeFilePage (fp : ℕ)
  | commit
  | abort
  /-- A write task ends well without a commit: a truncate finds the partition empty, or a compaction
  finds nothing to do. Its object keeps the copy. -/
  | endUncommitted
  /-- `Drop`, a clean reopen or a reopen without a remote manifest resets the mapper. -/
  | dropMapper
  /-- It empties the registry of data snapshots. -/
  | clearRegistry
  | reopen (segments : Bool)
  | evict
  | eraseEmpty
  /-- A snapshot without a reference is destroyed. -/
  | destroy (i : ℕ)
deriving DecidableEq, Repr

namespace SnapshotEvent

variable (s : PartitionSnapshots)

/-- What an event does when nothing is left to destroy. -/
def act : SnapshotEvent → Option PartitionSnapshots
  | load segments => if s.entry = none then some (s.install {} segments) else none
  | createStub =>
    if s.entry = none ∧ s.writing = false then some { s with entry := some {} } else none
  | pin => s.entry.bind fun r ↦ r.mapper.map fun m ↦
      { s with holders := ⟨false, true, m.mapping :: r.segmentMapper.toList⟩ :: s.holders }
  | hold => s.entry.map fun _ ↦ { s with holders := ⟨false, true, []⟩ :: s.holders }
  | release i k => some { s with
      holders := s.holders.modify i fun h ↦ { h with refs := h.refs.eraseIdx k } }
  | finish i =>
    if (s.holders[i]?.map (·.refs)) = some [] then
      some { s with holders := s.holders.eraseIdx i }
    else none
  | gather cls =>
    if s.dataAppendMode = true ∧ s.cow = none then s.entry.bind fun r ↦ r.mapper.map fun _ ↦
      { s with holders := ⟨true, true, r.registry cls⟩ :: s.holders }
    else none
  | unpin i => some { s with holders := s.holders.modify i fun h ↦
      { h with handle := h.handle && !h.collects } }
  | begin =>
    if s.writing then none
    else match s.entry with
      | none => some (s.stubRoot {})
      | some r =>
        match r.mapper with
        | none => some (s.stubRoot r)
        | some m => some (s.copyRoot r m)
  | ensureSegmentMapper =>
    match s.entry, s.cow with
    | some r, some c =>
      if c.segmentMapper.isSome then none
      else
        let y := s.make { cls := .segment, incarnation := c.mapper.incarnation }
        some { y with
          entry := some { r with segmentMappingSnapshots := s.made :: r.segmentMappingSnapshots }
          cow := some { c with segmentMapper := some s.made } }
    | _, _ => none
  | addFreeFilePage fp =>
    if s.dataAppendMode then none
    else s.cow.map fun c ↦ s.modify c.oldMapping fun sn ↦
      { sn with toFreeFilePages := sn.toFreeFilePages ++ [fp] }
  | commit =>
    match s.entry, s.cow with
    | some r, some c => some (s.updateRoot r c)
    | _, _ => none
  | abort => s.cow.map fun c ↦
      { s.modify c.oldMapping fun sn ↦ { sn with toFreeFilePages := [] } with cow := none }
  | endUncommitted => s.cow.bind fun c ↦
      -- it has given up no file page
      if ∀ x ∈ s.snapshots, x.1 = c.oldMapping → x.2.toFreeFilePages = [] then
        some { s with cow := none, holders := ⟨false, true, c.refs⟩ :: s.holders }
      else none
  | dropMapper =>
    if s.writing then none
    else s.entry.map fun r ↦ { s with entry := some { r with mapper := none }, dropping := true }
  | clearRegistry => s.entry.map fun r ↦
      { s with entry := some { r with mappingSnapshots := [] }, dropping := false }
  | reopen segments =>
    -- a local store is not reopened, and the other modes append
    if s.dataAppendMode = true ∧ s.writing = false then some (s.install (s.entry.getD {}) segments)
    else none
  | evict => if s.pinned then none else s.entry.map fun _ ↦ { s with entry := none }
  | eraseEmpty =>
    if s.pinned then none
    else s.entry.bind fun r ↦ if r.mapper = none then some { s with entry := none } else none
  | destroy _ => none

def run (e : SnapshotEvent) : Option PartitionSnapshots :=
  if s.garbage = [] then
    -- a drop resets the mapper and empties the registry in one go
    if s.dropping = decide (e = clearRegistry) then e.act s else none
  else match e with
    | destroy i =>
      if i ∈ s.garbage then (s.snapshots.lookup i).map fun sn ↦ s.freeMappingSnapshot i sn else none
    | _ => none

/-- **The condition on events**: a drop, an eviction and the erasure of an entry find no snapshot
held by a reader, a scan, a collection or a write task that has ended, and a drop finds no file page
that waits to be freed. -/
def Unheld : SnapshotEvent → Prop
  | dropMapper => s.heldRefs = [] ∧ ∀ x ∈ s.snapshots, x.2.toFreeFilePages = []
  | evict | eraseEmpty => s.heldRefs = []
  | _ => True

instance : DecidablePred (Unheld s) := by
  intro e
  cases e <;> unfold Unheld <;> infer_instance

end SnapshotEvent

/-- The runs of a partition's snapshots. -/
abbrev SnapshotRuns (G : PartitionSnapshots → SnapshotEvent → Prop) :
    PartitionSnapshots → PartitionSnapshots → Prop :=
  Transition.Reach (fun s e t ↦ SnapshotEvent.run s e = some t) G

/-! ### The invariant -/

namespace PartitionSnapshots

section

variable (made : ℕ) (l : List (ℕ × MappingSnapshot)) (cow : Option CowSnapshots) (r : SnapshotEntry)

/-- A snapshot, if it is alive, is one of the class and the incarnation. -/
def IsOf (i : ℕ) (cls : FileClass) (incarnation : ℕ) : Prop :=
  i < made ∧ ∀ x ∈ l, x.1 = i → x.2.cls = cls ∧ x.2.incarnation = incarnation

/-- **What a write task's root is**, over an entry. -/
structure CowOk (c : CowSnapshots) : Prop where
  mapper : IsOf made l c.mapper.mapping .data c.mapper.incarnation
  segment : ∀ i, c.segmentMapper = some i → ∃ n, IsOf made l i .segment n
  /-- It replaces the published mapping of the same incarnation. -/
  copied : ∀ m, r.mapper = some m → m.mapping < c.mapper.mapping ∧ c.oldMapping = m.mapping ∧
    c.mapper.incarnation = m.incarnation
  stub : r.mapper = none → c.oldMapping = c.mapper.mapping

/-- Pending-free file pages of a snapshot are of the published mapper's incarnation, or of a first
write. -/
def FreesTo (x : ℕ × MappingSnapshot) : Prop :=
  (∃ m, r.mapper = some m ∧ x.2.incarnation = m.incarnation) ∨
    r.mapper = none ∧ ∃ c, cow = some c ∧ x.1 = c.mapper.mapping

/-- **What an entry is** over the snapshots alive. -/
structure EntryOk : Prop where
  /-- **Every snapshot alive is registered.** -/
  registered : ∀ x ∈ l, x.1 ∈ r.registry x.2.cls
  mapper : ∀ m, r.mapper = some m → IsOf made l m.mapping .data m.incarnation
  segment : ∀ i, r.segmentMapper = some i → ∃ n, IsOf made l i .segment n
  free : ∀ x ∈ l, x.2.toFreeFilePages ≠ [] → FreesTo cow r x
  cow : ∀ c, cow = some c → CowOk made l r c

/-- Snapshots are made, changed and destroyed: each keeps its class and its incarnation. -/
def Keeps (made' : ℕ) (l' : List (ℕ × MappingSnapshot)) : Prop :=
  made ≤ made' ∧ ∀ x ∈ l', x.1 < made →
    ∃ y ∈ l, y.1 = x.1 ∧ y.2.cls = x.2.cls ∧ y.2.incarnation = x.2.incarnation

end

/-- **The invariant of a partition's snapshots.** -/
structure Ok (s : PartitionSnapshots) : Prop where
  made : ∀ x ∈ s.snapshots, x.1 < s.made
  /-- A snapshot is replaced by a later one. -/
  next : ∀ x ∈ s.snapshots, ∀ j, x.2.nextSnapshot = some j → x.1 < j ∧ x.2.cls = .data
  append : s.dataAppendMode = true → ∀ x ∈ s.snapshots, x.2.toFreeFilePages = []
  absent : s.entry = none → s.heldRefs = [] ∧ s.cow = none
  entry : ∀ r, s.entry = some r → EntryOk s.made s.snapshots s.cow r
  dropping : s.dropping = true → s.heldRefs = [] ∧ s.cow = none ∧
    ∀ r, s.entry = some r → r.mapper = none
  /-- Every destructor so far did what it should. -/
  destroyed : ∀ d ∈ s.destroyed, d.Sound

section

variable {made made' : ℕ} {l l' : List (ℕ × MappingSnapshot)} (hk : Keeps made l made' l')

include hk

theorem IsOf.keeps {i : ℕ} {cls : FileClass} {n : ℕ} (h : IsOf made l i cls n) :
    IsOf made' l' i cls n := by
  refine ⟨h.1.trans_le hk.1, fun x hx hxi ↦ ?_⟩
  obtain ⟨y, hy, hid, hcls, hinc⟩ := hk.2 x hx (hxi ▸ h.1)
  rw [← hcls, ← hinc]
  exact h.2 y hy (hid.trans hxi)

variable {r r' : SnapshotEntry} (hmapper : r'.mapper = r.mapper)

include hmapper

theorem CowOk.keeps {c : CowSnapshots} (h : CowOk made l r c) : CowOk made' l' r' c :=
  ⟨h.mapper.keeps hk, fun i hi ↦ (h.segment i hi).imp fun _ hn ↦ hn.keeps hk, hmapper ▸ h.copied,
    hmapper ▸ h.stub⟩

theorem EntryOk.keeps {cow : Option CowSnapshots} (h : EntryOk made l cow r)
    (hseg : r'.segmentMapper = r.segmentMapper) (hreg : ∀ x ∈ l', x.1 ∈ r'.registry x.2.cls)
    (hfree : ∀ x ∈ l', x.2.toFreeFilePages ≠ [] → FreesTo cow r x) : EntryOk made' l' cow r' where
  registered := hreg
  mapper m hm := (h.mapper m (hmapper ▸ hm)).keeps hk
  segment i hi := (h.segment i (hseg ▸ hi)).imp fun _ hn ↦ hn.keeps hk
  cow c hc := (h.cow c hc).keeps hk hmapper
  free x hx hne := by
    rw [FreesTo, hmapper]
    exact hfree x hx hne

end

variable {s : PartitionSnapshots}

/-- A snapshot alive is referenced, if nothing is left to destroy. -/
theorem mem_refs_of_garbage (hg : s.garbage = []) {x : ℕ × MappingSnapshot}
    (hx : x ∈ s.snapshots) : x.1 ∈ s.refs := by
  by_contra hno
  have hmem : x.1 ∈ s.garbage :=
    mem_filter.2 ⟨mem_map_of_mem hx, decide_eq_true hno⟩
  rw [hg] at hmem
  cases hmem

namespace Ok

/-- **What nothing but snapshots refers to is gone.** A snapshot is referred to only by an earlier
one, so the earliest has no reference. -/
theorem none_alive (h : s.Ok) (hg : s.garbage = []) (P : ℕ × MappingSnapshot → Prop)
    (hdata : ∀ x ∈ s.snapshots, x.2.cls = .data → P x)
    (hroot : ∀ x ∈ s.snapshots, P x → x.1 ∉ s.rootRefs) : ∀ x ∈ s.snapshots, ¬P x := by
  suffices hind : ∀ n, ∀ x ∈ s.snapshots, x.1 = n → ¬P x by
    intro x hx
    exact hind x.1 x hx rfl
  intro n
  induction n using Nat.strongRecOn with
  | ind n ih =>
    intro x hx hxn hP
    rcases mem_append.1 (mem_refs_of_garbage hg hx) with hmem | hmem
    · exact hroot x hx hP hmem
    · obtain ⟨y, hy, hnext⟩ := mem_filterMap.1 hmem
      obtain ⟨hlt, hcls⟩ := h.next y hy x.1 hnext
      exact ih y.1 (hxn ▸ hlt) y hy rfl (hdata y hy hcls)

theorem snapshots_eq_nil (h : s.Ok) (hg : s.garbage = []) (hentry : s.entry = none) :
    s.snapshots = [] := by
  obtain ⟨hheld, hcow⟩ := h.absent hentry
  refine eq_nil_iff_forall_not_mem.2 fun x hx ↦ ?_
  refine h.none_alive hg (fun _ ↦ True) (fun _ _ _ ↦ trivial) (fun y _ _ ↦ ?_) x hx trivial
  simp [rootRefs, hentry, hheld, hcow]

variable {t : PartitionSnapshots} {r : SnapshotEntry} {c : CowSnapshots}
  {f : MappingSnapshot → MappingSnapshot}

/-- **Without a published mapping no data snapshot is alive**, if nothing is held. -/
theorem no_data (h : s.Ok) (hg : s.garbage = []) (hentry : s.entry = some r)
    (hmapper : r.mapper = none) (hheld : s.heldRefs = []) (hcow : s.cow = none) :
    ∀ x ∈ s.snapshots, x.2.cls ≠ .data := by
  refine h.none_alive hg (·.2.cls = .data) (fun _ _ hc ↦ hc) fun x hx hcls hmem ↦ ?_
  rw [rootRefs, hentry, hheld, hcow] at hmem
  have hseg : r.segmentMapper = some x.1 := by
    simpa [SnapshotEntry.refs, hmapper] using hmem
  obtain ⟨n, -, hall⟩ := (h.entry r hentry).segment x.1 hseg
  rw [(hall x hx rfl).1] at hcls
  exact absurd hcls (by decide)

/-! ### Parts of events -/

theorem setHolders (h : s.Ok) {holders : List SnapshotHolder} (hdrop : s.dropping = false)
    (habsent : s.entry = none → holders.flatMap (·.refs) = []) :
    Ok { s with holders := holders } :=
  { h with
    absent := fun hentry ↦ ⟨habsent hentry, (h.absent hentry).2⟩
    dropping := fun hd ↦ absurd (hdrop.symm.trans hd) (by simp) }

/-- **The entry and the write task's root change**, and no snapshot does. -/
theorem setEntry (h : s.Ok) {r : SnapshotEntry} {cow : Option CowSnapshots} {dropping : Bool}
    (hentry : EntryOk s.made s.snapshots cow r)
    (hdrop : dropping = true → s.heldRefs = [] ∧ cow = none ∧ r.mapper = none) :
    Ok { s with entry := some r, cow := cow, dropping := dropping } :=
  { h with
    absent := nofun
    entry := fun _ hr ↦ some.inj hr ▸ hentry
    dropping := fun hd ↦ ⟨(hdrop hd).1, (hdrop hd).2.1,
      fun _ hr ↦ some.inj hr ▸ (hdrop hd).2.2⟩ }

theorem keeps_make (sn : MappingSnapshot) :
    Keeps s.made s.snapshots (s.make sn).made (s.make sn).snapshots := by
  refine ⟨Nat.le_succ _, fun x hx hlt ↦ ?_⟩
  rcases mem_cons.1 hx with rfl | hx
  · exact absurd hlt (lt_irrefl _)
  · exact ⟨x, hx, rfl, rfl, rfl⟩

theorem isOf_made (h : s.Ok) (sn : MappingSnapshot) :
    IsOf (s.make sn).made (s.make sn).snapshots s.made sn.cls sn.incarnation := by
  refine ⟨Nat.lt_succ_self _, fun x hx hxi ↦ ?_⟩
  rcases mem_cons.1 hx with rfl | hx
  · exact ⟨rfl, rfl⟩
  · exact absurd hxi (h.made x hx).ne

section

variable (h : s.Ok) (hentry : s.entry = some r)

include h hentry

/-- **A snapshot is made and registered.** -/
theorem make {r' : SnapshotEntry} (sn : MappingSnapshot) (hfree : sn.toFreeFilePages = [])
    (hnext : sn.nextSnapshot = none) (hmapper : r'.mapper = r.mapper)
    (hseg : r'.segmentMapper = r.segmentMapper) (hmade : s.made ∈ r'.registry sn.cls)
    (hreg : ∀ cls, r.registry cls ⊆ r'.registry cls) : Ok { s.make sn with entry := some r' } where
  made x hx := by
    rcases mem_cons.1 hx with rfl | hx
    · exact Nat.lt_succ_self _
    · exact Nat.lt_succ_of_lt (h.made x hx)
  next x hx j hj := by
    rcases mem_cons.1 hx with rfl | hx
    · cases hnext.symm.trans hj
    · exact h.next x hx j hj
  append happ x hx := by
    rcases mem_cons.1 hx with rfl | hx
    · exact hfree
    · exact h.append happ x hx
  absent he := absurd he (by simp)
  entry r₁ hr := by
    cases hr
    have hr := h.entry r hentry
    refine hr.keeps (keeps_make sn) hmapper hseg (fun x hx ↦ ?_) fun x hx hne ↦ ?_
    · rcases mem_cons.1 hx with rfl | hx
      · exact hmade
      · exact hreg _ (hr.registered x hx)
    · rcases mem_cons.1 hx with rfl | hx
      · exact absurd hfree hne
      · exact hr.free x hx hne
  dropping hd := by
    obtain ⟨h₁, h₂, h₃⟩ := h.dropping hd
    refine ⟨h₁, h₂, fun r₁ hr ↦ ?_⟩
    cases hr
    exact hmapper.trans (h₃ r hentry)
  destroyed := h.destroyed

theorem make_data (incarnation : ℕ) :
    Ok { s.make { cls := .data, incarnation } with
      entry := some { r with mappingSnapshots := s.made :: r.mappingSnapshots } } :=
  h.make hentry _ rfl rfl rfl rfl mem_cons_self fun cls ↦ by
    cases cls with
    | data => exact subset_cons_self _ _
    | segment => exact Subset.refl _

theorem make_segment (incarnation : ℕ) :
    Ok { s.make { cls := .segment, incarnation } with
      entry := some { r with segmentMappingSnapshots := s.made :: r.segmentMappingSnapshots } } :=
  h.make hentry _ rfl rfl rfl rfl mem_cons_self fun cls ↦ by
    cases cls with
    | data => exact Subset.refl _
    | segment => exact subset_cons_self _ _

/-- **A mapper is published**, when no write task runs and no file page waits to be freed. -/
theorem setMapper {m : SnapshotMapper}
    (hm : IsOf s.made s.snapshots m.mapping .data m.incarnation) (hcow : s.cow = none)
    (hdrop : s.dropping = false) (hfree : ∀ x ∈ s.snapshots, x.2.toFreeFilePages = []) :
    Ok { s with entry := some { r with mapper := some m } } :=
  h.setEntry { h.entry r hentry with
    mapper := fun _ hm' ↦ some.inj hm' ▸ hm
    cow := by simp [hcow]
    free := fun x hx hne ↦ absurd (hfree x hx) hne } (by simp [hdrop])

theorem setSegmentMapper {i n : ℕ} (hi : IsOf s.made s.snapshots i .segment n)
    (hcow : s.cow = none) : Ok { s with entry := some { r with segmentMapper := some i } } := by
  refine h.setEntry { h.entry r hentry with
    segment := fun _ hj ↦ some.inj hj ▸ ⟨n, hi⟩
    cow := by simp [hcow] } fun hd ↦ ?_
  obtain ⟨h₁, h₂, h₃⟩ := h.dropping hd
  exact ⟨h₁, h₂, h₃ r hentry⟩

/-- A write task has its root, or another segment mapper. -/
theorem setCow (hc : CowOk s.made s.snapshots r c) (hdrop : s.dropping = false)
    (hcow : ∀ c', s.cow = some c' → c'.mapper = c.mapper) : Ok { s with cow := some c } :=
  { h with
    absent := fun he ↦ absurd (hentry.symm.trans he) (by simp)
    entry := fun r₁ hr ↦ by
      cases hentry.symm.trans hr
      refine { h.entry r hentry with
        cow := fun _ hc' ↦ some.inj hc' ▸ hc
        free := fun x hx hne ↦ ?_ }
      rcases (h.entry r hentry).free x hx hne with hm | ⟨hnone, c', hc', hxc⟩
      · exact .inl hm
      · exact .inr ⟨hnone, c, rfl, by rw [hxc, hcow c' hc']⟩
    dropping := fun hd ↦ absurd (hdrop.symm.trans hd) (by simp) }

end

theorem mem_modify {i : ℕ} {x : ℕ × MappingSnapshot} (hx : x ∈ (s.modify i f).snapshots) :
    ∃ y ∈ s.snapshots, x.1 = y.1 ∧ (x = y ∨ y.1 = i ∧ x.2 = f y.2) := by
  obtain ⟨y, hy, rfl⟩ := mem_map.1 hx
  refine ⟨y, hy, ?_⟩
  split
  · next hi => exact ⟨hi.symm, .inr ⟨hi, rfl⟩⟩
  · exact ⟨rfl, .inl rfl⟩

theorem keeps_modify (i : ℕ)
    (hf : ∀ sn, (f sn).cls = sn.cls ∧ (f sn).incarnation = sn.incarnation) :
    Keeps s.made s.snapshots (s.modify i f).made (s.modify i f).snapshots := by
  refine ⟨le_rfl, fun x hx _ ↦ ?_⟩
  obtain ⟨y, hy, hid, rfl | ⟨-, hval⟩⟩ := mem_modify hx
  · exact ⟨x, hy, rfl, rfl, rfl⟩
  · exact ⟨y, hy, hid.symm, by rw [hval, (hf y.2).1], by rw [hval, (hf y.2).2]⟩

section

variable (h : s.Ok)

include h

/-- A snapshot is changed: the file pages it will free, or the snapshot that replaces it. -/
theorem modify (i : ℕ) (hf : ∀ sn, (f sn).cls = sn.cls ∧ (f sn).incarnation = sn.incarnation)
    (hnext : ∀ x ∈ s.snapshots, x.1 = i → ∀ j, (f x.2).nextSnapshot = some j → x.1 < j ∧
      x.2.cls = .data)
    (happend : s.dataAppendMode = true → ∀ x ∈ s.snapshots, x.1 = i → (f x.2).toFreeFilePages = [])
    (hfree : ∀ r, s.entry = some r → ∀ x ∈ s.snapshots, x.1 = i → (f x.2).toFreeFilePages ≠ [] →
      FreesTo s.cow r x) : (s.modify i f).Ok where
  made x hx := by
    obtain ⟨y, hy, hid, -⟩ := mem_modify hx
    exact hid ▸ h.made y hy
  next x hx j hj := by
    obtain ⟨y, hy, hid, rfl | ⟨hyi, hval⟩⟩ := mem_modify hx
    · exact h.next x hy j hj
    · rw [hid, hval, (hf y.2).1]
      exact hnext y hy hyi j (hval ▸ hj)
  append happ x hx := by
    obtain ⟨y, hy, -, rfl | ⟨hyi, hval⟩⟩ := mem_modify hx
    · exact h.append happ x hy
    · rw [hval]
      exact happend happ y hy hyi
  __ := h
  entry r hr := by
    have hr' := h.entry r hr
    refine hr'.keeps (keeps_modify i hf) rfl rfl (fun x hx ↦ ?_) fun x hx hne ↦ ?_
    · obtain ⟨y, hy, hid, rfl | ⟨-, hval⟩⟩ := mem_modify hx
      · exact hr'.registered x hy
      · rw [hid, hval, (hf y.2).1]
        exact hr'.registered y hy
    · obtain ⟨y, hy, hid, rfl | ⟨hyi, hval⟩⟩ := mem_modify hx
      · exact hr'.free x hy hne
      · have hy' := hfree r hr y hy hyi (hval ▸ hne)
        rw [FreesTo, hid, hval, (hf y.2).2]
        exact hy'

/-- **A commit publishes the write task's mappers.** -/
theorem publish (hentry : s.entry = some r) (hcow : s.cow = some c) (hdrop : s.dropping = false) :
    Ok { s with
      entry := some { r with
        mapper := some c.mapper
        segmentMapper := if c.segmentMapper.isSome then c.segmentMapper else r.segmentMapper }
      cow := none } := by
  have hr := h.entry r hentry
  obtain ⟨hmapper, hseg, hcopied, -⟩ := hr.cow c hcow
  refine h.setEntry { hr with
    mapper := fun _ hm ↦ some.inj hm ▸ hmapper
    segment := fun i hi ↦ ?_
    cow := nofun
    free := fun x hx hne ↦ .inl ⟨c.mapper, rfl, ?_⟩ } (by simp [hdrop])
  · dsimp only at hi
    split at hi
    · exact hseg i hi
    · exact hr.segment i hi
  · rcases hr.free x hx hne with ⟨m, hm, hinc⟩ | ⟨-, c', hc', hxc⟩
    · rw [hinc, (hcopied m hm).2.2]
    · cases hcow.symm.trans hc'
      exact (hmapper.2 x hx hxc).2

/-- A write task gives up its root, when nothing waits to be freed because of it. -/
theorem clearCow
    (hfree : ∀ r, s.entry = some r → r.mapper = none →
      ∀ x ∈ s.snapshots, x.2.toFreeFilePages = []) : Ok { s with cow := none } :=
  { h with
    absent := fun he ↦ ⟨(h.absent he).1, rfl⟩
    entry := fun r hr ↦ by
      refine { h.entry r hr with cow := nofun, free := fun x hx hne ↦ ?_ }
      rcases (h.entry r hr).free x hx hne with hm | ⟨hnone, -⟩
      · exact .inl hm
      · exact absurd (hfree r hr hnone x hx) hne
    dropping := fun hd ↦ ⟨(h.dropping hd).1, rfl, (h.dropping hd).2.2⟩ }

theorem clearEntry (hheld : s.heldRefs = []) (hcow : s.cow = none) :
    Ok { s with entry := none } :=
  { h with
    absent := fun _ ↦ ⟨hheld, hcow⟩
    entry := nofun
    dropping := fun _ ↦ ⟨hheld, hcow, nofun⟩ }

theorem dropMapper (hentry : s.entry = some r) (hheld : s.heldRefs = []) (hcow : s.cow = none)
    (hfree : ∀ x ∈ s.snapshots, x.2.toFreeFilePages = []) :
    Ok { s with entry := some { r with mapper := none }, dropping := true } :=
  h.setEntry { h.entry r hentry with
    mapper := nofun
    cow := by simp [hcow]
    free := fun x hx hne ↦ absurd (hfree x hx) hne } fun _ ↦ ⟨hheld, hcow, rfl⟩

/-- It empties the registry of data snapshots, of which none is alive any more. -/
theorem clearRegistry (hg : s.garbage = []) (hdrop : s.dropping = true)
    (hact : SnapshotEvent.clearRegistry.act s = some t) : t.Ok := by
  obtain ⟨r, hentry, rfl⟩ := map_eq_some_iff.1 hact
  obtain ⟨hheld, hcow, hmapper⟩ := h.dropping hdrop
  have hr := h.entry r hentry
  refine h.setEntry { hr with registered := fun x hx ↦ ?_, cow := by simp [hcow] } nofun
  have hreg := hr.registered x hx
  cases hcls : x.2.cls with
  | data => exact absurd hcls (h.no_data hg hentry (hmapper r hentry) hheld hcow x hx)
  | segment => rwa [hcls] at hreg

/-- **A snapshot without a reference is destroyed as it should be.** -/
theorem freeMappingSnapshot {i : ℕ} {sn : MappingSnapshot} (hg : i ∈ s.garbage)
    (hmem : (i, sn) ∈ s.snapshots) : (s.freeMappingSnapshot i sn).Ok := by
  have hnot : i ∉ s.refs := of_decide_eq_true (mem_filter.1 hg).2
  have hkeeps : Keeps s.made s.snapshots s.made (s.snapshots.filter (·.1 ≠ i)) :=
    ⟨le_rfl, fun x hx _ ↦ ⟨x, mem_of_mem_filter hx, rfl, rfl, rfl⟩⟩
  refine ⟨fun x hx ↦ h.made x (mem_of_mem_filter hx),
    fun x hx ↦ h.next x (mem_of_mem_filter hx),
    fun happ x hx ↦ h.append happ x (mem_of_mem_filter hx),
    fun he ↦ h.absent (by simpa [PartitionSnapshots.freeMappingSnapshot] using he),
    fun r hr ↦ ?_, fun hd ↦ ?_, fun d hd ↦ ?_⟩
  · obtain ⟨r₀, hr₀, rfl⟩ := map_eq_some_iff.1 hr
    have hr := h.entry r₀ hr₀
    refine hr.keeps hkeeps (by rfl) (by rfl) (fun x hx ↦ ?_) fun x hx ↦
      hr.free x (mem_of_mem_filter hx)
    obtain ⟨hx, hxi⟩ := mem_filter.1 hx
    have hreg := hr.registered x hx
    cases hcls : x.2.cls with
    | data =>
      rw [hcls] at hreg
      exact mem_filter.2 ⟨hreg, hxi⟩
    | segment =>
      rw [hcls] at hreg
      exact mem_filter.2 ⟨hreg, hxi⟩
  · obtain ⟨h₁, h₂, h₃⟩ := h.dropping hd
    refine ⟨h₁, h₂, fun r hr ↦ ?_⟩
    obtain ⟨r₀, hr₀, rfl⟩ := map_eq_some_iff.1 hr
    exact h₃ r₀ hr₀
  · rcases mem_cons.1 hd with rfl | hd
    · cases hentry : s.entry with
      | none => exact .inl (by simp)
      | some r =>
        refine .inr ⟨?_, fun hne ↦ ?_⟩
        · have hreg := (h.entry r hentry).registered _ hmem
          have hor : i ∈ r.mappingSnapshots ∨ i ∈ r.segmentMappingSnapshots := by
            cases hcls : sn.cls with
            | data => exact .inl (by rwa [show (i, sn).2.cls = _ from hcls] at hreg)
            | segment => exact .inr (by rwa [show (i, sn).2.cls = _ from hcls] at hreg)
          simp [hor]
        · rcases (h.entry r hentry).free _ hmem hne with ⟨m, hm, hinc⟩ | ⟨-, c, hc, hic⟩
          · simp only [bind_some, hm, map_some]
            exact congrArg some hinc.symm
          · -- a first write refers to its own snapshot
            refine absurd ?_ hnot
            rw [show i = c.mapper.mapping from hic]
            simp [refs, rootRefs, hc, CowSnapshots.refs]
    · exact h.destroyed d hd

/-! ### Events -/

theorem createStub (hg : s.garbage = []) (hentry : s.entry = none) (hdrop : s.dropping = false) :
    Ok { s with entry := some {} } := by
  have hnil := h.snapshots_eq_nil hg hentry
  have hcow := (h.absent hentry).2
  exact h.setEntry ⟨by simp [hnil], nofun, nofun, by simp [hnil], by simp [hcow]⟩ (by simp [hdrop])

/-- **An incarnation is installed**, over an entry without a write task and when no file page waits
to be freed. -/
theorem install (hentry : s.entry = some r) (hcow : s.cow = none) (hdrop : s.dropping = false)
    (hfree : ∀ x ∈ s.snapshots, x.2.toFreeFilePages = []) (segments : Bool) :
    (s.install r segments).Ok := by
  have hmade := h.make_data hentry s.incarnations
  have hpub := hmade.setMapper (m := ⟨s.made, s.incarnations⟩) rfl (isOf_made h _) hcow hdrop
    fun x hx ↦ by
      rcases mem_cons.1 hx with rfl | hx
      · rfl
      · exact hfree x hx
  cases segments with
  | false => exact { hpub with }
  | true =>
    have hseg := hpub.make_segment rfl s.incarnations
    have hall := hseg.setSegmentMapper (i := s.made + 1) (n := s.incarnations) rfl
      (isOf_made hpub _) hcow
    exact { hall with }

/-- A first write makes its root over an empty entry. -/
theorem stubRoot (hentry : s.entry = some r) (hcow : s.cow = none) (hmapper : r.mapper = none)
    (hdrop : s.dropping = false) : (s.stubRoot r).Ok := by
  have hmade := h.make_data hentry s.incarnations
  have hset := hmade.setCow (c := ⟨⟨s.made, s.incarnations⟩, none, s.made, none⟩) rfl
    ⟨isOf_made h _, by simp, by simp [hmapper], fun _ ↦ rfl⟩ hdrop
    fun c' hc' ↦ absurd (hcow.symm.trans hc') (by simp)
  exact { hset with }

theorem copyRoot {m : SnapshotMapper} (hentry : s.entry = some r) (hcow : s.cow = none)
    (hmapper : r.mapper = some m) (hdrop : s.dropping = false) : (s.copyRoot r m).Ok := by
  have hmade := h.make_data hentry m.incarnation
  have hlt := ((h.entry r hentry).mapper m hmapper).1
  have hcopied : ∀ m', r.mapper = some m' → m'.mapping < s.made ∧ m.mapping = m'.mapping ∧
      m.incarnation = m'.incarnation := by
    intro m' hm'
    cases hmapper.symm.trans hm'
    exact ⟨hlt, rfl, rfl⟩
  unfold PartitionSnapshots.copyRoot
  split
  · exact hmade.setCow rfl
      ⟨isOf_made h _, by simp, hcopied, fun hnone ↦ absurd (hmapper.symm.trans hnone) (by simp)⟩
      hdrop fun c' hc' ↦ absurd (hcow.symm.trans hc') (by simp)
  · have hseg := hmade.make_segment rfl m.incarnation
    refine hseg.setCow rfl ⟨(isOf_made h _).keeps (keeps_make _), fun i hi ↦ ?_, hcopied,
      fun hnone ↦ absurd (hmapper.symm.trans hnone) (by simp)⟩ hdrop
      fun c' hc' ↦ absurd (hcow.symm.trans hc') (by simp)
    cases hi
    exact ⟨_, isOf_made hmade _⟩

theorem ensureSegmentMapper (hdrop : s.dropping = false)
    (hact : SnapshotEvent.ensureSegmentMapper.act s = some t) : t.Ok := by
  rw [SnapshotEvent.act] at hact
  split at hact
  · next r c hentry hcow =>
    obtain ⟨-, ⟨⟩⟩ := ite_none_left_eq_some.1 hact
    have hmade := h.make_segment hentry c.mapper.incarnation
    obtain ⟨h₁, -, h₃, h₄⟩ := (h.entry r hentry).cow c hcow
    refine hmade.setCow rfl ⟨h₁.keeps (keeps_make _), fun i hi ↦ ?_, h₃, h₄⟩ hdrop fun c' hc' ↦ ?_
    · cases hi
      exact ⟨_, isOf_made h _⟩
    · cases hcow.symm.trans hc'
      rfl
  · cases hact

/-- A file page of the replaced mapping will be freed with it. -/
theorem addFreeFilePage {fp : ℕ} (hact : (SnapshotEvent.addFreeFilePage fp).act s = some t) :
    t.Ok := by
  obtain ⟨happ, hact⟩ := ite_none_left_eq_some.1 hact
  obtain ⟨c, hcow, rfl⟩ := map_eq_some_iff.1 hact
  refine h.modify _ (fun _ ↦ ⟨rfl, rfl⟩) (fun x hx _ j hj ↦ h.next x hx j hj) (absurd · happ)
    fun r hr x hx hxc _ ↦ ?_
  obtain ⟨-, -, hcopied, hstub⟩ := (h.entry r hr).cow c hcow
  cases hmapper : r.mapper with
  | none => exact .inr ⟨hmapper, c, hcow, hxc.trans (hstub hmapper)⟩
  | some m =>
    have hxm : x.1 = m.mapping := hxc.trans (hcopied m hmapper).2.1
    exact .inl ⟨m, hmapper, (((h.entry r hr).mapper m hmapper).2 x hx hxm).2⟩

theorem updateRoot (hentry : s.entry = some r) (hcow : s.cow = some c)
    (hdrop : s.dropping = false) : (s.updateRoot r c).Ok := by
  unfold PartitionSnapshots.updateRoot
  obtain ⟨-, -, hcopied, -⟩ := (h.entry r hentry).cow c hcow
  split
  · next m hmapper =>
    split
    · exact h.publish hentry hcow hdrop
    · have hnext : (s.modify m.mapping fun sn ↦
          { sn with nextSnapshot := some c.mapper.mapping }).Ok := by
        refine h.modify m.mapping (fun _ ↦ ⟨rfl, rfl⟩) (fun x hx hxm j hj ↦ ?_)
          (fun happ x hx _ ↦ h.append happ x hx) fun r' hr x hx _ ↦ (h.entry r' hr).free x hx
        cases hj
        exact ⟨hxm ▸ (hcopied m hmapper).1, (((h.entry r hentry).mapper m hmapper).2 x hx hxm).1⟩
      exact hnext.publish hentry hcow hdrop
  · exact h.publish hentry hcow hdrop

theorem abort (hact : SnapshotEvent.abort.act s = some t) : t.Ok := by
  obtain ⟨c, hcow, rfl⟩ := map_eq_some_iff.1 hact
  refine clearCow (h.modify c.oldMapping (fun _ ↦ ⟨rfl, rfl⟩) (fun x hx _ j hj ↦ h.next x hx j hj)
    (fun _ _ _ _ ↦ rfl) fun r _ x _ _ hne ↦ absurd rfl hne) fun r hr hnone x hx ↦ ?_
  by_contra hne
  obtain ⟨y, hy, hid, rfl | ⟨-, hval⟩⟩ := mem_modify hx
  · rcases (h.entry r hr).free x hy hne with ⟨m, hm, -⟩ | ⟨-, c', hc', hxc⟩
    · cases hnone.symm.trans hm
    · cases hcow.symm.trans hc'
      have hold := ((h.entry r hr).cow c hcow).stub hnone
      obtain ⟨z, -, hz⟩ := mem_map.1 hx
      split at hz
      · exact hne (by rw [← hz])
      · next hzi => exact hzi (by rw [show z = x from hz, hxc, hold])
  · exact hne (by rw [hval])

/-- A write task that ends uncommitted becomes a holder of what it referred to. -/
theorem endUncommitted (hdrop : s.dropping = false)
    (hact : SnapshotEvent.endUncommitted.act s = some t) : t.Ok := by
  obtain ⟨c, hcow, hact⟩ := bind_eq_some_iff.1 hact
  obtain ⟨hnone, rfl⟩ := ite_some_none_eq_some.1 hact
  have hclear := h.clearCow fun r hr hmapper x hx ↦ ?_
  · refine hclear.setHolders hdrop fun hentry ↦ ?_
    cases (h.absent hentry).2.symm.trans hcow
  · by_contra hne
    rcases (h.entry r hr).free x hx hne with ⟨m, hm, -⟩ | ⟨-, c', hc', hxc⟩
    · cases hmapper.symm.trans hm
    · -- the pages of a first write wait at its own snapshot
      cases hcow.symm.trans hc'
      exact hne (hnone x hx (hxc.trans (((h.entry r hr).cow c hcow).stub hmapper).symm))

end

theorem heldRefs_modify (hs : List SnapshotHolder) (i : ℕ) {f : SnapshotHolder → SnapshotHolder}
    (hf : ∀ h, h.refs = [] → (f h).refs = []) (hnil : hs.flatMap (·.refs) = []) :
    (hs.modify i f).flatMap (·.refs) = [] := by
  rw [flatMap_eq_nil_iff] at hnil ⊢
  intro h hh
  obtain ⟨j, hj⟩ := mem_iff_getElem?.1 hh
  rw [getElem?_modify] at hj
  obtain ⟨h₀, hj₀, rfl⟩ := map_eq_some_iff.1 hj
  have hrefs := hnil h₀ (mem_of_getElem? hj₀)
  split
  · exact hf h₀ hrefs
  · exact hrefs

theorem cow_of_writing (hw : s.writing = false) : s.cow = none := by
  rw [writing, Bool.or_eq_false_iff] at hw
  exact not_isSome_iff_eq_none.1 (by simp [hw.1])

theorem cow_of_pinned (hp : s.pinned = false) : s.cow = none := by
  rw [pinned, Bool.or_eq_false_iff] at hp
  exact not_isSome_iff_eq_none.1 (by simp [hp.1])

/-- What an event does when nothing is left to destroy, under the condition. -/
theorem act (h : s.Ok) {e : SnapshotEvent} (hg : s.garbage = [])
    (hdrop : s.dropping = decide (e = .clearRegistry)) (hunheld : e.Unheld s)
    (hact : e.act s = some t) : t.Ok := by
  cases e with
  | load segments =>
    obtain ⟨hentry, rfl⟩ := ite_some_none_eq_some.1 hact
    have hnil := h.snapshots_eq_nil hg hentry
    have hstub := h.createStub hg hentry hdrop
    have hall := hstub.install rfl (h.absent hentry).2 hdrop
      (fun x hx ↦ absurd (show x ∈ s.snapshots from hx) (by simp [hnil])) segments
    cases segments with
    | false => exact hall
    | true => exact hall
  | createStub =>
    obtain ⟨⟨hentry, -⟩, rfl⟩ := ite_some_none_eq_some.1 hact
    exact h.createStub hg hentry hdrop
  | pin =>
    obtain ⟨r, hr, hact⟩ := bind_eq_some_iff.1 hact
    obtain ⟨m, -, rfl⟩ := map_eq_some_iff.1 hact
    exact h.setHolders hdrop fun he ↦ absurd (hr.symm.trans he) (by simp)
  | hold =>
    obtain ⟨r, hr, rfl⟩ := map_eq_some_iff.1 hact
    exact h.setHolders hdrop fun he ↦ absurd (hr.symm.trans he) (by simp)
  | release i k =>
    cases hact
    refine h.setHolders hdrop fun he ↦ heldRefs_modify _ _ (fun x hx ↦ ?_) (h.absent he).1
    simp [hx]
  | finish i =>
    obtain ⟨-, rfl⟩ := ite_some_none_eq_some.1 hact
    refine h.setHolders hdrop fun he ↦ ?_
    have hnil := (h.absent he).1
    rw [heldRefs, flatMap_eq_nil_iff] at hnil
    exact flatMap_eq_nil_iff.2 fun x hx ↦ hnil x (mem_of_mem_eraseIdx hx)
  | gather cls =>
    obtain ⟨-, hact⟩ := ite_none_right_eq_some.1 hact
    obtain ⟨r, hr, hact⟩ := bind_eq_some_iff.1 hact
    obtain ⟨m, -, rfl⟩ := map_eq_some_iff.1 hact
    exact h.setHolders hdrop fun he ↦ absurd (hr.symm.trans he) (by simp)
  | unpin i =>
    cases hact
    exact h.setHolders hdrop fun he ↦ heldRefs_modify _ _ (fun x hx ↦ hx) (h.absent he).1
  | begin =>
    obtain ⟨hw, hact⟩ := ite_none_left_eq_some.1 hact
    have hcow := cow_of_writing (Bool.not_eq_true _ ▸ hw)
    split at hact
    · next hentry =>
      cases hact
      have hstub := h.createStub hg hentry hdrop
      exact hstub.stubRoot rfl hcow rfl hdrop
    · next r hentry =>
      split at hact
      · next hmapper =>
        cases hact
        exact h.stubRoot hentry hcow hmapper hdrop
      · next m hmapper =>
        cases hact
        exact h.copyRoot hentry hcow hmapper hdrop
  | ensureSegmentMapper => exact h.ensureSegmentMapper hdrop hact
  | addFreeFilePage fp => exact h.addFreeFilePage hact
  | commit =>
    rw [SnapshotEvent.act] at hact
    split at hact
    · next r c hentry hcow =>
      cases hact
      exact h.updateRoot hentry hcow hdrop
    · cases hact
  | abort => exact h.abort hact
  | endUncommitted => exact h.endUncommitted hdrop hact
  | dropMapper =>
    obtain ⟨hw, hact⟩ := ite_none_left_eq_some.1 hact
    obtain ⟨r, hentry, rfl⟩ := map_eq_some_iff.1 hact
    exact h.dropMapper hentry hunheld.1 (cow_of_writing (Bool.not_eq_true _ ▸ hw)) hunheld.2
  | clearRegistry => exact h.clearRegistry hg hdrop hact
  | reopen segments =>
    obtain ⟨⟨happ, hw⟩, rfl⟩ := ite_some_none_eq_some.1 hact
    have hcow := cow_of_writing hw
    cases hentry : s.entry with
    | none =>
      have hstub := h.createStub hg hentry hdrop
      have hall := hstub.install rfl hcow hdrop (h.append happ) segments
      cases segments with
      | false => exact hall
      | true => exact hall
    | some r => exact h.install hentry hcow hdrop (h.append happ) segments
  | evict =>
    obtain ⟨hp, hact⟩ := ite_none_left_eq_some.1 hact
    obtain ⟨r, -, rfl⟩ := map_eq_some_iff.1 hact
    exact h.clearEntry hunheld (cow_of_pinned (Bool.not_eq_true _ ▸ hp))
  | eraseEmpty =>
    obtain ⟨hp, hact⟩ := ite_none_left_eq_some.1 hact
    obtain ⟨r, -, hact⟩ := bind_eq_some_iff.1 hact
    obtain ⟨-, rfl⟩ := ite_some_none_eq_some.1 hact
    exact h.clearEntry hunheld (cow_of_pinned (Bool.not_eq_true _ ▸ hp))
  | destroy i => simp [SnapshotEvent.act] at hact

/-- Every event keeps the invariant, if it meets the condition. -/
theorem event (h : s.Ok) {e : SnapshotEvent} (hunheld : e.Unheld s)
    (hrun : e.run s = some t) : t.Ok := by
  unfold SnapshotEvent.run at hrun
  split at hrun
  · next hg =>
    obtain ⟨hdrop, hact⟩ := ite_none_right_eq_some.1 hrun
    exact h.act hg hdrop hunheld hact
  · split at hrun
    · next i _ =>
      obtain ⟨hi, hrun⟩ := ite_none_right_eq_some.1 hrun
      obtain ⟨sn, hsn, rfl⟩ := map_eq_some_iff.1 hrun
      obtain ⟨l₁, l₂, hl, -⟩ := lookup_eq_some_iff.1 hsn
      exact h.freeMappingSnapshot hi (by simp [hl])
    · cases hrun

end Ok

/-- **Every snapshot is destroyed as it should be**, in every run in which a drop, an eviction or an
erasure finds no snapshot held: there is no root entry, or the snapshot is registered there and its
pending-free file pages go to the allocator of its own incarnation. -/
theorem sound_of_unheld (append : Bool) {s : PartitionSnapshots}
    (hrun : SnapshotRuns SnapshotEvent.Unheld { dataAppendMode := append } s) :
    ∀ d ∈ s.destroyed, d.Sound := by
  have hinit : Ok { dataAppendMode := append } :=
    ⟨by simp, by simp, by simp, by simp [heldRefs], by simp, by simp, by simp⟩
  exact (hrun.invariant Ok hinit fun h hg hstep ↦ h.event hg hstep).destroyed

/-- A pooled partition is written twice while a reader keeps the first mapping. -/
def readAcrossCommit : List SnapshotEvent :=
  [.begin, .commit, .pin, .begin, .addFreeFilePage 3, .commit]

theorem sound_of_unheld_released : ∃ s : PartitionSnapshots,
    SnapshotRuns SnapshotEvent.Unheld { dataAppendMode := false } s ∧ s.destroyed.length = 2 ∧
      ∀ d ∈ s.destroyed, d.Sound :=
  exists_reach_and_of_exec (fun hrun ↦ sound_of_unheld false hrun)
    (readAcrossCommit ++ [.release 0 0, .destroy 0, .finish 0, .dropMapper, .destroy 1,
      .clearRegistry, .eraseEmpty])
    (by decide +kernel)

/-- **A snapshot is destroyed that no registry has.**

* A reader holds the mapping across a commit, the partition is dropped and written anew, and the
  reader is done: the snapshot is not registered, and its file pages go to the pool of the new
  incarnation.
* A collection holds the mapping and has let go of the root entry, the entry is evicted and loaded
  again, and the collection is done. -/
theorem destroyed_unregistered :
    (∃ s : PartitionSnapshots, SnapshotRuns (fun _ _ ↦ True) { dataAppendMode := false } s ∧
      ∃ d ∈ s.destroyed, d.registered = some false ∧ d.snapshot.toFreeFilePages = [3] ∧
        d.snapshot.incarnation = 0 ∧ d.pool = some 1) ∧
    ∃ s : PartitionSnapshots, SnapshotRuns (fun _ _ ↦ True) { dataAppendMode := true } s ∧
      ∃ d ∈ s.destroyed, d.registered = some false :=
  ⟨exists_reach_of_exec
      (readAcrossCommit ++ [.dropMapper, .clearRegistry, .begin, .commit, .release 0 0, .destroy 0])
      (by decide +kernel),
    exists_reach_of_exec
      [.load false, .gather .data, .unpin 0, .evict, .load false, .release 0 0, .destroy 0]
      (by decide +kernel)⟩

end PartitionSnapshots

end EloqStore
