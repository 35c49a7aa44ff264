import EloqStore.Cloud.Loading
import EloqStore.Gc.Collector
import EloqStore.Partition.CreateBranch

/-!
# The manifests a branch keeps in the object store

A branch's content survives its instance only through the manifests of the branch in the object
store. A commit that writes the manifest uploads it; a load under a new term finds the manifest of
an older term and **promotes** it, uploading it again under the running term; a cloud collection
deletes the manifests of older terms, and the current one once no data file is left.

Here a branch is followed through all of them (`CloudRuns`), with the uploads failing as they may,
next to a record of the manifest its last durable commit wrote. For as long as that maps a page, it
should be in the object store, and no write should start from nothing (`Tracked.Held`).

A load may promote another branch's newer manifest, and a collection then takes the branch's own for
superseded. And a promotion whose upload fails is only logged: the load finds nothing, and a write
that begins takes the partition for a new one. So the condition (`CloudEvent.Careful`) rules out
both; it lets a collection run only when the manifest of the running term, if an older one is there,
is in the object store, and not with a listing without a file the manifest refers to.
-/

namespace EloqStore

open List ManifestName Option EloqStore.Partition Transition Partition

open LastMaximum

/-! ### The cloud collection -/

def putObject (objects : List (ManifestName × Manifest)) (n : ManifestName) (m : Manifest) :
    List (ManifestName × Manifest) :=
  objects.filter (fun o ↦ o.1 ≠ n) ++ [(n, m)]

theorem mem_putObject {objects : List (ManifestName × Manifest)} {n n' : ManifestName}
    {m m' : Manifest} :
    (n', m') ∈ putObject objects n m ↔ n' ≠ n ∧ (n', m') ∈ objects ∨ n' = n ∧ m' = m := by
  simp only [putObject, mem_append, mem_filter, mem_singleton, Prod.mk.injEq, decide_eq_true_eq]
  exact or_congr_left and_comm

/-- The manifests and archives among the objects, by their names; a name that cannot be parsed is
passed over. -/
def classifyManifests (objects : List (ManifestName × Manifest)) : List (ManifestName × Manifest) :=
  objects.filterMap fun o ↦ (parseManifestFileSuffix o.1.suffix).map (·, o.2)

/-- What a cloud collection meets besides the manifests. -/
structure CloudListing where
  termFile : Option ℕ
  dataFiles : List FileName
  snapshots : List MappingTbl
  failed : List ManifestName
deriving DecidableEq, Repr

/-- The root of an empty partition whose manifest has been deleted: the next write starts a new one.
-/
def RootMeta.withoutManifest (root : RootMeta) : RootMeta :=
  match root.mapper with
  | some m =>
    if root.rootId.isNone && root.ttlRootId.isNone && m.mappingCount == 0 then
      { root with manifestSize := 0 }
    else root
  | none => root

namespace Stored

variable (opts : KvOptions) (x : Stored)

/-- What the collection gathers: the files of the live mappings, then of the manifests, then of the
archives. -/
def gather (objects : List (ManifestName × Manifest)) (snapshots : List MappingTbl) : Collected :=
  let named := classifyManifests objects
  let manifests := named.filter (·.1.tag.isNone)
  let archives := named.filter (·.1.tag.isSome)
  ((manifests ++ archives).map (·.2)).foldl (Collected.processOneManifest opts)
    ⟨snapshots.flatMap fun tbl ↦ getRetainedFiles opts .data tbl x.part.branchFileMapping,
      seedActiveBranchGuardFromInMemory opts x.part⟩

def deletedFiles (objects : List (ManifestName × Manifest)) (l : CloudListing) : List FileName :=
  l.dataFiles.filter fun f ↦ decide (f.owner.term ≤ x.part.processTerm) &&
    !(x.gather opts objects l.snapshots).keeps x.part.activeBranch f

/-- Whether a listed manifest is deleted: the instance's own when every data file is, and those of
its branch under older terms. -/
def deletesManifest (objects : List (ManifestName × Manifest)) (l : CloudListing)
    (n : ManifestName) : Bool :=
  (n = x.part.ownManifest && (x.deletedFiles opts objects l).length == l.dataFiles.length) ||
    (decide (n.branch = x.part.activeBranch) && n.tag.isNone &&
      decide (n.term < x.part.processTerm))

/-- `ExecuteCloudGC`. Nothing is done without the term file, under another term than its, or when a
manifest of a later term is listed. -/
def executeCloudGC (l : CloudListing) : Stored :=
  match x.cloud with
  | none => x
  | some objects =>
    let named := classifyManifests objects
    if l.termFile ≠ some x.part.processTerm then x
    else if named.any fun o ↦ o.1.tag.isNone && decide (x.part.processTerm < o.1.term) then x
    else
      let gone := fun n ↦ x.deletesManifest opts objects l n && !l.failed.contains n
      { part :=
          if named.any fun o ↦ decide (o.1 = x.part.ownManifest) && gone o.1 then
            { x.part with entry := x.part.entry.map RootMeta.withoutManifest }
          else x.part
        cloud := some (objects.filter fun o ↦ !((parseManifestFileSuffix o.1.suffix).any gone)) }

end Stored

/-! ### Runs -/

/-- A branch's partition in the cloud, followed through a run. -/
structure Tracked where
  stored : Stored
  /-- The local manifest file, when a commit whose upload failed has left it ahead of the entry. -/
  leftover : Option Manifest := none
  /-- The manifest the branch's last durable commit wrote. -/
  committed : Option Manifest := none
deriving DecidableEq, Repr

/-- How the upload of a commit's manifest ends. -/
inductive UploadOutcome
  | stored
  /-- An appended log is refused, and the commit fails. -/
  | rejected
  /-- A rewritten manifest cannot be uploaded, and the process stops. -/
  | stopped
deriving DecidableEq, Repr

/-- What can happen to a branch's partition in the cloud. -/
inductive CloudEvent
  /-- The root is looked for; `uploaded` says whether a promoted manifest can be uploaded. -/
  | load (uploaded : Bool)
  /-- A write task begins, with the root it finds. -/
  | begin (uploaded : Bool)
  | step (a : TaskStep)
  /-- The task truncates the whole partition. -/
  | truncate
  | commit (outcome : UploadOutcome)
  | abort
  | release
  | evict
  /-- The local cache gives up the manifest file. -/
  | evictFile
  | collect (l : CloudListing)
  /-- The instance restarts, and removes the manifest files in its cache. -/
  | restart (term : ℕ)
  /-- Another branch's instance stores a manifest, or an archive is stored. -/
  | putOther (n : ManifestName) (m : Manifest)
  | deleteOther (n : ManifestName)
deriving DecidableEq, Repr

instance (n : ManifestName) : Decidable n.WellNamed :=
  decidable_of_iff (IsNormalized n.branch ∧ n.term < 2 ^ 64 ∧ n.tag ≠ some "")
    ⟨fun ⟨h₁, h₂, h₃⟩ ↦ ⟨h₁, h₂, h₃⟩, fun h ↦ ⟨h.branch, h.term, h.tag⟩⟩

/-- The object is not one of the branch's manifests. -/
def ManifestName.IsOther (n : ManifestName) (branch : BranchName) : Prop :=
  n.branch ≠ branch ∨ n.tag ≠ none

instance (n : ManifestName) (branch : BranchName) : Decidable (n.IsOther branch) :=
  inferInstanceAs (Decidable (_ ∨ _))

namespace Tracked

/-- The running partition, changed. -/
def withPart (x : Tracked) (s : Partition) : Tracked :=
  { x with stored := { x.stored with part := s } }

/-- A commit: the manifest it writes, if it writes one, is uploaded. -/
def commit (opts : KvOptions) (x : Tracked) (t : WriteTask) (outcome : UploadOutcome) :
    Option Tracked :=
  let s := x.stored.part
  let s' := s.updateMeta opts t
  if t.walBuilder.isEmpty && !needEmptySnapshot t then some (x.withPart s')
  else s'.manifest.bind fun m ↦
    match outcome with
    | .stored => some
        { stored := ⟨s', x.stored.cloud.map fun objects ↦ putObject objects s.ownManifest m⟩
          leftover := none
          committed := some m }
    | .rejected => some { x.withPart s.abort with leftover := some m }
    | .stopped => some { x.withPart (.fresh s.activeBranch s.processTerm) with leftover := none }

end Tracked

def CloudEvent.run (opts : KvOptions) (x : Tracked) : CloudEvent → Option Tracked
  | .load uploaded => some { x with stored := (x.stored.findRoot opts uploaded).1 }
  | .begin uploaded =>
    let y := x.stored.findRoot opts uploaded
    if y.2 = .ok ∨ y.2 = .notFound then
      (PartitionEvent.begin.run opts y.1.part).map fun s ↦ { x with stored := ⟨s, y.1.cloud⟩ }
    else none
  | .step a => ((PartitionEvent.step a).run opts x.stored.part).map x.withPart
  | .truncate => x.stored.part.task.map fun t ↦
      x.withPart { x.stored.part with task := some (truncated opts t) }
  | .commit outcome =>
    x.stored.part.task.bind fun t ↦ if t.reserved = [] then x.commit opts t outcome else none
  | .abort => (PartitionEvent.abort.run opts x.stored.part).map x.withPart
  | .release => (PartitionEvent.release.run opts x.stored.part).map x.withPart
  | .evict =>
    (PartitionEvent.evict.run opts x.stored.part).map fun s ↦
      { x.withPart { s with manifest := x.leftover.or s.manifest } with leftover := none }
  | .evictFile =>
    if x.stored.part.entry = none ∧ x.stored.part.task = none then
      some (x.withPart { x.stored.part with manifest := none })
    else none
  | .collect l =>
    if x.stored.part.task = none then some { x with stored := x.stored.executeCloudGC opts l }
    else none
  | .restart term =>
    if x.stored.part.processTerm ≤ term ∧ term < 2 ^ 64 then
      some { x.withPart (.fresh x.stored.part.activeBranch term) with leftover := none }
    else none
  | .putOther n m =>
    if n.WellNamed ∧ n.IsOther x.stored.part.activeBranch then
      some { x with stored := { x.stored with
        cloud := x.stored.cloud.map fun objects ↦ putObject objects n m } }
    else none
  | .deleteOther n =>
    if n.IsOther x.stored.part.activeBranch then
      some { x with stored := { x.stored with
        cloud := x.stored.cloud.map fun objects ↦ objects.filter fun o ↦ o.1 ≠ n } }
    else none

/-- The manifest maps a data page: the content is not empty. -/
def Manifest.MapsPage (m : Manifest) : Prop := ∃ q fp, (replay m).mappingTbl.toFilePage q = some fp

instance (m : Manifest) : Decidable m.MapsPage :=
  decidable_of_iff (∃ x ∈ (replay m).mappingTbl.mapped, True)
    ⟨fun ⟨x, hx, _⟩ ↦ ⟨x.2, x.1, MappingTbl.mem_mapped.1 hx⟩,
      fun ⟨q, fp, hq⟩ ↦ ⟨(fp, q), MappingTbl.mem_mapped.2 hq, trivial⟩⟩

/-- **The condition on a load**: a manifest that has to be selected in the object store is the
branch's own. -/
def Tracked.SelectsOwn (x : Tracked) : Prop :=
  ∀ objects ∈ x.stored.cloud, x.stored.part.entry = none → x.stored.part.manifest = none →
    Isolated (objects.map (·.1)) x.stored.part.activeBranch x.stored.part.processTerm

/-- **The condition on a collection**: manifests of older terms are superseded by one that is there,
and a file that one refers to, if it refers to any, is listed. -/
def Tracked.Superseded (opts : KvOptions) (x : Tracked) (l : CloudListing) : Prop :=
  ∀ objects ∈ x.stored.cloud,
    ((∃ n ∈ objects.map (·.1), n.branch = x.stored.part.activeBranch ∧ n.tag = none ∧
      n.term < x.stored.part.processTerm) → x.stored.part.ownManifest ∈ objects.map (·.1)) ∧
    ∀ o ∈ objects, o.1 = x.stored.part.ownManifest → o.2.MapsPage →
      ∃ f ∈ l.dataFiles, f ∈ getRetainedFiles opts .data (replay o.2).mappingTbl
        (replay o.2).branchMetadata.fileRanges

instance (x : Tracked) : Decidable x.SelectsOwn := inferInstanceAs (Decidable (∀ _ ∈ _, _))

instance (opts : KvOptions) (x : Tracked) (l : CloudListing) : Decidable (x.Superseded opts l) :=
  inferInstanceAs (Decidable (∀ _ ∈ _, _))

/-- **The condition.** A write does not begin with a promotion that cannot be uploaded. -/
def CloudEvent.Careful (opts : KvOptions) (x : Tracked) : CloudEvent → Prop
  | .load _ => x.SelectsOwn
  | .begin uploaded => x.SelectsOwn ∧ uploaded = true
  | .collect l => x.Superseded opts l
  | _ => True

instance CloudEvent.decidableCareful (opts : KvOptions) (x : Tracked) (e : CloudEvent) :
    Decidable (e.Careful opts x) := by
  cases e <;> dsimp only [CloudEvent.Careful] <;> infer_instance

/-- The runs of a branch in the cloud whose events meet a condition. -/
abbrev CloudRuns (opts : KvOptions) (G : Tracked → CloudEvent → Prop) : Tracked → Tracked → Prop :=
  Transition.Reach (fun x e y ↦ CloudEvent.run opts x e = some y) G

/-- The cached root, if there is one, is not a stub. -/
def Partition.NoStub (s : Partition) : Prop := ∀ sm?, s.mappers ≠ some (none, sm?)

namespace Partition.NoStub

variable {s s' : Partition}

theorem of_mappers (h : s.NoStub) (heq : s'.mappers = s.mappers) : s'.NoStub := fun sm? hstub ↦
  h sm? (heq ▸ hstub)

theorem of_unloaded (h : s.entry = none) : s.NoStub := fun sm? hstub ↦ by
  rw [mappers, h] at hstub
  cases hstub

theorem of_loaded {m : PageMapper} {sm? : Option PageMapper} (h : s.mappers = some (some m, sm?)) :
    s.NoStub := fun sm?' hstub ↦ by
  cases h.symm.trans hstub

/-- What is loaded is not a stub. -/
theorem findRoot {x : Stored} (h : x.part.NoStub) (opts : KvOptions) (uploaded : Bool) :
    (x.findRoot opts uploaded).1.part.NoStub := by
  unfold Stored.findRoot
  split
  · exact h
  split
  · exact of_loaded rfl
  split
  · exact h
  split
  · exact h
  · exact h
  · exact h
  · exact h
  split
  · exact h
  · exact of_loaded rfl

theorem freeMappingSnapshot (h : s.NoStub) : s.freeMappingSnapshot.NoStub := by
  unfold Partition.freeMappingSnapshot
  split
  · exact h
  · intro sm? hstub
    obtain ⟨root, hroot, heq⟩ := map_eq_some_iff.1 hstub
    obtain ⟨root', hroot', rfl⟩ := map_eq_some_iff.1 hroot
    refine h sm? (map_eq_some_iff.2 ⟨root', hroot', ?_⟩)
    simpa using heq

/-- What is published is not a stub. -/
theorem updateMeta (opts : KvOptions) {t : WriteTask} (ht : s.task = some t) :
    (s.updateMeta opts t).NoStub := by
  unfold Partition.updateMeta
  dsimp only
  split
  · next t' ht' =>
    intro sm? hstub
    obtain ⟨root, hroot, heq⟩ := map_eq_some_iff.1 hstub
    obtain ⟨root', -, rfl⟩ := map_eq_some_iff.1 hroot
    cases heq
  · next hnone =>
    -- a flush leaves the task running
    have hswitch : (s.switchManifest t).task ≠ none := by
      unfold switchManifest setCompression
      dsimp only
      split <;> simp
    refine absurd hnone ?_
    unfold flushManifest
    split
    · simp [ht]
    split
    · exact hswitch
    split
    · simp [appendManifest]
    · exact hswitch

end Partition.NoStub

theorem Partition.mappers_withoutManifest (s : Partition) :
    { s with entry := s.entry.map RootMeta.withoutManifest }.mappers = s.mappers := by
  have hroot : ∀ root : RootMeta, root.withoutManifest.mapper = root.mapper ∧
      root.withoutManifest.segmentMapper = root.segmentMapper := by
    intro root
    unfold RootMeta.withoutManifest
    split
    · split <;> exact ⟨rfl, rfl⟩
    · exact ⟨rfl, rfl⟩
  simp only [mappers, Option.map_map, Function.comp_def, hroot]

namespace Tracked

def objects (x : Tracked) : List (ManifestName × Manifest) := x.stored.cloud.getD []

/-- The object store holds a manifest of the branch, under a term. -/
def Lists (x : Tracked) (term : ℕ) (m : Manifest) : Prop :=
  (⟨x.stored.part.activeBranch, term, none⟩, m) ∈ x.objects

/-- **The last durable content is held**, as long as it is not empty: a manifest of the branch in
the object store replays to it, and no task takes the partition for a new one. -/
def Held (x : Tracked) : Prop :=
  ∀ m, x.committed = some m → m.MapsPage →
    (∃ term m', x.Lists term m' ∧ replay m' = replay m) ∧ x.stored.part.NoStub

/-- **The objects are well kept**, whatever their content. -/
structure WellStored (x : Tracked) : Prop where
  cloud : x.stored.cloud.isSome = true
  branch : IsNormalized x.stored.part.activeBranch
  term : x.stored.part.processTerm < 2 ^ 64
  named : ∀ o ∈ x.objects, o.1.WellNamed
  nodup : (x.objects.map (·.1)).Nodup
  /-- The branch has no manifest of a later term. -/
  terms : ∀ term m, x.Lists term m → term ≤ x.stored.part.processTerm

/-- **In order**: the content last committed, if it is not empty, is that of the branch's newest
manifest. -/
structure InOrder (x : Tracked) : Prop extends WellStored x where
  newest : ∀ m, x.committed = some m → m.MapsPage →
    ∃ term, x.Lists term m ∧ ∀ term' m', x.Lists term' m' → term' ≤ term
  known : ∀ m, x.committed = some m → m.MapsPage → x.stored.part.NoStub

/-- A partition at the start of an instance: nothing is loaded, and what was last committed is in
the branch's newest manifest. -/
structure Starts (x : Tracked) : Prop extends WellStored x where
  fresh : x.stored.part = .fresh x.stored.part.activeBranch x.stored.part.processTerm
  committed : ∀ m, x.committed = some m →
    ∃ term, greatestTerm (x.objects.map (·.1)) x.stored.part.activeBranch = some term ∧
      x.Lists term m

theorem Starts.inOrder {x : Tracked} (h : x.Starts) : x.InOrder := by
  refine ⟨h.toWellStored, fun m hm _ ↦ ?_, fun _ _ _ _ hstub ↦ ?_⟩
  · obtain ⟨term, hgreatest, hlist⟩ := h.committed m hm
    exact ⟨term, hlist, fun term' m' hlist' ↦
      (greatestTerm_eq_some hgreatest).2 term' (mem_map.2 ⟨_, hlist', rfl⟩)⟩
  · rw [h.fresh] at hstub
    cases hstub

namespace InOrder

variable {opts : KvOptions} {x y : Tracked}

variable (h : x.InOrder)

include h

theorem held : x.Held := fun m hm hmaps ↦ by
  obtain ⟨term, hlist, -⟩ := h.newest m hm hmaps
  exact ⟨⟨term, m, hlist, rfl⟩, h.known m hm hmaps⟩

theorem unique {n : ManifestName} {m m' : Manifest} (hm : (n, m) ∈ x.objects)
    (hm' : (n, m') ∈ x.objects) : m = m' := by
  have heq := inj_on_of_nodup_map h.nodup hm hm' rfl
  exact (Prod.mk.inj heq).2

/-- What does not touch the objects, nor the branch and term, keeps them in order. -/
theorem frame (hcloud : y.stored.cloud = x.stored.cloud)
    (hbranch : y.stored.part.activeBranch = x.stored.part.activeBranch)
    (hle : x.stored.part.processTerm ≤ y.stored.part.processTerm)
    (hterm : y.stored.part.processTerm < 2 ^ 64) (hcommitted : y.committed = x.committed)
    (hstub : ∀ m, x.committed = some m → m.MapsPage → y.stored.part.NoStub) : y.InOrder := by
  have hobjects : y.objects = x.objects := by rw [objects, hcloud, objects]
  have hlists : ∀ term m, y.Lists term m ↔ x.Lists term m := fun term m ↦ by
    rw [Lists, hobjects, hbranch, Lists]
  refine ⟨⟨hcloud ▸ h.cloud, hbranch ▸ h.branch, hterm, hobjects ▸ h.named, hobjects ▸ h.nodup,
    fun term m hlist ↦ (h.terms term m ((hlists term m).1 hlist)).trans hle⟩,
    fun m hm hmaps ↦ ?_, fun m hm ↦ hstub m (hcommitted ▸ hm)⟩
  obtain ⟨term, hlist, hmax⟩ := h.newest m (hcommitted ▸ hm) hmaps
  exact ⟨term, (hlists term m).2 hlist,
    fun term' m' hlist' ↦ hmax term' m' ((hlists term' m').1 hlist')⟩

/-- A change of the running partition that keeps its branch and term. -/
theorem withPart {s : Partition} (howner : s.owner = x.stored.part.owner)
    (hstub : x.stored.part.NoStub → s.NoStub) : (x.withPart s).InOrder := by
  obtain ⟨hbranch, hterm⟩ := Owner.mk.inj howner
  exact h.frame rfl hbranch hterm.symm.le (hterm ▸ h.term) rfl
    fun m hm hmaps ↦ hstub (h.known m hm hmaps)

/-- **The object store changes.** What matters of the branch's manifests is that the newest keeps
the content last committed. -/
theorem setObjects {objects : List (ManifestName × Manifest)}
    (hcloud : y.stored.cloud = some objects)
    (howner : y.stored.part.owner = x.stored.part.owner)
    (hnamed : ∀ o ∈ objects, o.1.WellNamed) (hnodup : (objects.map (·.1)).Nodup)
    (hterms : ∀ term m, (⟨x.stored.part.activeBranch, term, none⟩, m) ∈ objects →
      term ≤ x.stored.part.processTerm)
    (hnewest : ∀ m, y.committed = some m → m.MapsPage →
      ∃ term, (⟨x.stored.part.activeBranch, term, none⟩, m) ∈ objects ∧
        ∀ term' m', (⟨x.stored.part.activeBranch, term', none⟩, m') ∈ objects → term' ≤ term)
    (hstub : ∀ m, y.committed = some m → m.MapsPage → y.stored.part.NoStub) : y.InOrder := by
  obtain ⟨hbranch, hterm⟩ := Owner.mk.inj howner
  have hobjects : y.objects = objects := by rw [Tracked.objects, hcloud]; rfl
  refine ⟨⟨by rw [hcloud]; rfl, hbranch ▸ h.branch, hterm ▸ h.term, hobjects ▸ hnamed,
    hobjects ▸ hnodup, fun term m hlist ↦ ?_⟩, fun m hm hmaps ↦ ?_, hstub⟩
  · rw [hterm]
    rw [Lists, hobjects, hbranch] at hlist
    exact hterms term m hlist
  · obtain ⟨term, hlist, hmax⟩ := hnewest m hm hmaps
    refine ⟨term, ?_, fun term' m' hlist' ↦ hmax term' m' ?_⟩
    · rwa [Lists, hobjects, hbranch]
    · rwa [Lists, hobjects, hbranch] at hlist'

theorem cloud_eq : x.stored.cloud = some x.objects := by
  obtain ⟨objects, hobjects⟩ := isSome_iff_exists.1 h.cloud
  rw [Tracked.objects, hobjects]
  rfl

end InOrder

/-- Storing an object keeps every name there once. -/
theorem nodup_putObject {objects : List (ManifestName × Manifest)}
    (h : (objects.map (·.1)).Nodup) (n : ManifestName) (m : Manifest) :
    ((putObject objects n m).map (·.1)).Nodup := by
  rw [putObject, map_append, nodup_append]
  refine ⟨h.sublist (filter_sublist.map _), by simp, fun a ha b hb ↦ ?_⟩
  obtain ⟨o, ho, rfl⟩ := mem_map.1 ha
  rw [map_singleton, mem_singleton] at hb
  have hne := of_mem_filter ho
  rw [hb]
  simpa using hne

namespace InOrder

variable {opts : KvOptions} {x y : Tracked}

variable (h : x.InOrder)

include h

theorem named_map : ∀ n ∈ x.objects.map (·.1), n.WellNamed := fun n hn ↦ by
  obtain ⟨o, ho, rfl⟩ := mem_map.1 hn
  exact h.named o ho

/-- **An upload** under the running term: the newest manifest becomes the one committed. -/
theorem put {m : Manifest}
    (hcloud : y.stored.cloud = some (putObject x.objects x.stored.part.ownManifest m))
    (howner : y.stored.part.owner = x.stored.part.owner)
    (hcommitted : ∀ m', y.committed = some m' → m'.MapsPage → m' = m)
    (hstub : ∀ m', y.committed = some m' → m'.MapsPage → y.stored.part.NoStub) : y.InOrder := by
  have hterms : ∀ term m', (⟨x.stored.part.activeBranch, term, none⟩, m') ∈
      putObject x.objects x.stored.part.ownManifest m → term ≤ x.stored.part.processTerm := by
    intro term m' hlist
    rcases mem_putObject.1 hlist with ⟨-, hlist⟩ | ⟨heq, -⟩
    · exact h.terms term m' hlist
    · exact (congrArg ManifestName.term heq).le
  refine h.setObjects hcloud howner (fun o ho ↦ ?_) (nodup_putObject h.nodup _ _) hterms
    (fun m' hm' hmaps ↦ ?_) hstub
  · rcases mem_putObject.1 ho with ⟨-, ho⟩ | ⟨heq, -⟩
    · exact h.named o ho
    · rw [heq]
      exact ⟨h.branch, h.term, by simp [ownManifest]⟩
  · obtain rfl := hcommitted m' hm' hmaps
    exact ⟨x.stored.part.processTerm, mem_putObject.2 (.inr ⟨rfl, rfl⟩), hterms⟩

/-- **A promotion** stores the branch's newest manifest again, under the running term. -/
theorem load (uploaded : Bool) (hcareful : x.SelectsOwn) :
    InOrder { x with stored := (x.stored.findRoot opts uploaded).1 } := by
  have howner := Stored.findRoot_owner opts x.stored uploaded
  have hstub : ∀ m, x.committed = some m → m.MapsPage → _ := fun m hm hmaps ↦
    (h.known m hm hmaps).findRoot opts uploaded
  rcases Stored.findRoot_cloud opts x.stored uploaded with hcloud | ⟨hentry, hman, objects, source,
    promotedAs, n, m, hobjects, hfound, hmem, hsource, hcloud⟩
  · obtain ⟨hbranch, hterm⟩ := Owner.mk.inj howner
    exact h.frame hcloud hbranch hterm.symm.le (hterm ▸ h.term) rfl hstub
  · obtain rfl : x.objects = objects := by rw [Tracked.objects, hobjects]; rfl
    -- the manifest found is the branch's newest, of an older term
    obtain ⟨newest, hgreatest, hsuffix, hlt, -⟩ :=
      getManifest_found_of_isolated h.named_map h.branch
      h.term (hcareful _ hobjects hentry hman) (by rw [List.map_map]; exact hfound)
    obtain ⟨hlisted, hmax⟩ := greatestTerm_eq_some hgreatest
    obtain rfl : n = ⟨x.stored.part.activeBranch, newest, none⟩ :=
      suffix_inj (h.named _ hmem) (h.named_map _ hlisted) (hsource.trans hsuffix)
    have hput : x.objects ++ [(x.stored.part.ownManifest, m)] =
        putObject x.objects x.stored.part.ownManifest m := by
      rw [putObject, filter_eq_self.2 fun o ho ↦ ?_]
      refine decide_eq_true fun heq ↦ ?_
      exact absurd (hmax _ (mem_map.2 ⟨o, ho, heq⟩)) (Nat.not_le_of_lt (hlt rfl))
    refine h.put (hcloud.trans (congrArg some hput)) howner (fun m' hm' hmaps ↦ ?_) hstub
    obtain ⟨term, hlist, hmax'⟩ := h.newest m' hm' hmaps
    obtain rfl : term = newest :=
      le_antisymm (hmax term (mem_map.2 ⟨_, hlist, rfl⟩)) (hmax' newest m hmem)
    exact h.unique hlist hmem

/-- A task that begins finds the content, if there is any. -/
theorem begin (hcareful : x.SelectsOwn)
    (hfound : (x.stored.findRoot opts true).2 = .ok ∨ (x.stored.findRoot opts true).2 = .notFound) :
    InOrder { x with stored :=
      ⟨(x.stored.findRoot opts true).1.part.makeCowRoot opts,
        (x.stored.findRoot opts true).1.cloud⟩ } := by
  have hload : InOrder { x with stored := (x.stored.findRoot opts true).1 } := h.load true hcareful
  obtain ⟨hmappers, -, -, -, howner, -⟩ :=
    makeCowRoot_frame opts (x.stored.findRoot opts true).1.part
  obtain ⟨hbranch, hterm⟩ := Owner.mk.inj howner
  refine hload.frame rfl hbranch hterm.symm.le (hterm ▸ hload.term) rfl
    fun m hm hmaps ↦ ?_
  have hknown := hload.known m hm hmaps
  rcases Stored.findRoot_loaded opts x.stored true with hloaded | ⟨hunloaded, hok⟩
  · obtain ⟨root, hroot⟩ := isSome_iff_exists.1 hloaded
    refine hknown.of_mappers (hmappers.trans ?_)
    rw [findRoot, hroot]
    simp [mappers, hroot]
  · -- nothing would be found, although the newest manifest is listed
    obtain ⟨hman, hobjects⟩ := Stored.findRoot_eq_notFound hunloaded (hfound.resolve_left hok)
    have hnf := hobjects _ h.cloud_eq
    rw [show (fun o : ManifestName × Manifest ↦ o.1.suffix) = suffix ∘ (·.1) from rfl,
      ← List.map_map, getManifest_eq_notFound_iff h.named_map h.branch h.term] at hnf
    obtain ⟨term, hlist, -⟩ := h.newest m hm hmaps
    rcases hcareful _ h.cloud_eq hunloaded hman with hnew | ⟨-, -, hcase⟩
    · exact absurd (greatestTerm_eq_some hnew).1 hnf.1
    · split at hcase
      · exact absurd (hnf.2.2 _ hcase.2) hcase.1.ne
      · next hnone => exact absurd (mem_map.2 ⟨_, hlist, rfl⟩) (greatestTerm_eq_none hnone term)

theorem commit {t : WriteTask} {outcome : UploadOutcome} (ht : x.stored.part.task = some t)
    (hrun : x.commit opts t outcome = some y) : y.InOrder := by
  have howner := owner_updateMeta opts x.stored.part t
  have hstub := NoStub.updateMeta opts ht
  unfold Tracked.commit at hrun
  split at hrun
  · cases hrun
    exact h.withPart howner fun _ ↦ hstub
  · obtain ⟨m, -, hrun⟩ := bind_eq_some_iff.1 hrun
    cases outcome with
    | stored =>
      cases hrun
      refine h.put (by rw [h.cloud_eq]; rfl) howner (fun m' hm' _ ↦ ?_) fun _ _ _ ↦ hstub
      exact (some.inj hm').symm
    | rejected =>
      cases hrun
      exact h.frame rfl rfl le_rfl h.term rfl h.known
    | stopped =>
      cases hrun
      exact h.frame rfl rfl le_rfl h.term rfl fun _ _ _ ↦ .of_unloaded rfl

/-- **A manifest that is listed with one of its files is not deleted** as the last of an empty
partition. -/
private theorem not_deletesManifest_own {l : CloudListing} {m : Manifest}
    (hm : (x.stored.part.ownManifest, m) ∈ x.objects) (hnum : ¬ x.stored.part.ownManifest.IsNumeric)
    {f : FileName} (hf : f ∈ l.dataFiles)
    (hret : f ∈ getRetainedFiles opts .data (replay m).mappingTbl
      (replay m).branchMetadata.fileRanges) :
    x.stored.deletesManifest opts x.objects l x.stored.part.ownManifest = false := by
  have hparse : parseManifestFileSuffix x.stored.part.ownManifest.suffix =
      some x.stored.part.ownManifest := by
    rw [parseManifestFileSuffix_suffix (h.named _ hm), if_neg hnum]
  have hclass : (x.stored.part.ownManifest, m) ∈ classifyManifests x.objects :=
    mem_filterMap.2 ⟨_, hm, by rw [hparse]; rfl⟩
  have hkept : (x.stored.gather opts x.objects l.snapshots).keeps x.stored.part.activeBranch f =
      true := by
    refine Collected.keeps_of_mem (Collected.mem_foldl_of_manifest _ (m := m) ?_
      (mem_append_left _ hret)) _
    refine mem_map.2 ⟨_, mem_append_left _ (mem_filter.2 ⟨hclass, rfl⟩), rfl⟩
  have hlen : (x.stored.deletedFiles opts x.objects l).length < l.dataFiles.length := by
    refine length_filter_lt_length_iff_exists.2 ⟨f, hf, ?_⟩
    rw [hkept]
    simp
  have hne : ((x.stored.deletedFiles opts x.objects l).length == l.dataFiles.length) = false :=
    beq_false_of_ne hlen.ne
  simp [Stored.deletesManifest, hne, ownManifest]

/-- **A collection** deletes what is superseded. -/
theorem collect {l : CloudListing} (hcareful : (CloudEvent.collect l).Careful opts x) :
    Tracked.InOrder { x with stored := x.stored.executeCloudGC opts l } := by
  obtain ⟨hsuper, hfiles⟩ := hcareful x.objects h.cloud_eq
  unfold Stored.executeCloudGC
  rw [h.cloud_eq]
  dsimp only
  split
  · exact h
  split
  · exact h
  refine h.setObjects rfl ?_ (fun o ho ↦ h.named o (mem_of_mem_filter ho))
    (h.nodup.sublist (filter_sublist.map _))
    (fun term m hlist ↦ h.terms term m (mem_of_mem_filter hlist)) (fun m hm hmaps ↦ ?_)
    fun m hm hmaps ↦ (h.known m hm hmaps).of_mappers ?_
  · dsimp only
    split <;> rfl
  rotate_left
  · dsimp only
    split
    · exact mappers_withoutManifest x.stored.part
    · rfl
  · obtain ⟨term, hlist, hmax⟩ := h.newest m hm hmaps
    -- the newest manifest is of the running term
    have hterm : term = x.stored.part.processTerm := by
      refine le_antisymm (h.terms term m hlist) (not_lt.1 fun hlt ↦ ?_)
      obtain ⟨o, ho, hname⟩ := mem_map.1 (hsuper ⟨_, mem_map.2 ⟨_, hlist, rfl⟩, rfl, rfl, hlt⟩)
      obtain ⟨n, m'⟩ := o
      obtain rfl : n = x.stored.part.ownManifest := hname
      exact absurd (hmax _ m' ho) (Nat.not_le_of_lt hlt)
    subst hterm
    obtain ⟨f, hf, hret⟩ := hfiles _ hlist rfl hmaps
    refine ⟨x.stored.part.processTerm, mem_filter.2 ⟨hlist, ?_⟩,
      fun term' m' hlist' ↦ h.terms term' m' (mem_of_mem_filter hlist')⟩
    show (!(parseManifestFileSuffix x.stored.part.ownManifest.suffix).any _) = true
    have hwell : x.stored.part.ownManifest.WellNamed := h.named _ hlist
    rw [parseManifestFileSuffix_suffix hwell]
    by_cases hnum : x.stored.part.ownManifest.IsNumeric
    · rw [if_pos hnum]
      rfl
    · rw [if_neg hnum, any_some, h.not_deletesManifest_own hlist hnum hf hret]
      rfl

/-- Objects of other branches, and archives, come and go. -/
theorem other {objects : List (ManifestName × Manifest)} (hcloud : y.stored.cloud = some objects)
    (hpart : y.stored.part = x.stored.part) (hcommitted : y.committed = x.committed)
    (hnamed : ∀ o ∈ objects, o.1.WellNamed) (hnodup : (objects.map (·.1)).Nodup)
    (hsame : ∀ term m, (⟨x.stored.part.activeBranch, term, none⟩, m) ∈ objects ↔ x.Lists term m) :
    y.InOrder := by
  refine h.setObjects hcloud (by rw [hpart]) hnamed hnodup
    (fun term m hlist ↦ h.terms term m ((hsame term m).1 hlist)) (fun m hm hmaps ↦ ?_)
    fun m hm hmaps ↦ hpart ▸ h.known m (hcommitted ▸ hm) hmaps
  obtain ⟨term, hlist, hmax⟩ := h.newest m (hcommitted ▸ hm) hmaps
  exact ⟨term, (hsame term m).2 hlist,
    fun term' m' hlist' ↦ hmax term' m' ((hsame term' m').1 hlist')⟩

/-- **Every careful event keeps the branch in order.** -/
theorem event {e : CloudEvent} (hcareful : e.Careful opts x) (hrun : e.run opts x = some y) :
    y.InOrder := by
  cases e with
  | load uploaded =>
    cases hrun
    exact h.load uploaded hcareful
  | begin uploaded =>
    obtain ⟨hselects, rfl⟩ := hcareful
    obtain ⟨hfound, hrun⟩ := ite_none_right_eq_some.1 hrun
    obtain ⟨s, hs, rfl⟩ := map_eq_some_iff.1 hrun
    obtain ⟨-, rfl⟩ := ite_some_none_eq_some.1 hs
    exact h.begin hselects hfound
  | step a =>
    obtain ⟨s, hs, rfl⟩ := map_eq_some_iff.1 hrun
    obtain ⟨hmappers, -, -, howner⟩ := taskStep_frame (ok_of_toOption hs)
    exact h.withPart howner fun hstub ↦ hstub.of_mappers hmappers
  | truncate =>
    obtain ⟨t, -, rfl⟩ := map_eq_some_iff.1 hrun
    exact h.withPart rfl id
  | commit outcome =>
    obtain ⟨t, ht, hrun⟩ := bind_eq_some_iff.1 hrun
    obtain ⟨-, hrun⟩ := ite_none_right_eq_some.1 hrun
    exact h.commit ht hrun
  | abort =>
    obtain ⟨s, hs, rfl⟩ := map_eq_some_iff.1 hrun
    obtain ⟨-, rfl⟩ : x.stored.part.task ≠ none ∧ x.stored.part.abort = s := by
      simpa [PartitionEvent.run] using hs
    exact h.withPart rfl id
  | release =>
    have hrun' : some (x.withPart x.stored.part.freeMappingSnapshot) = some y := hrun
    cases hrun'
    refine h.withPart ?_ NoStub.freeMappingSnapshot
    unfold freeMappingSnapshot
    split <;> rfl
  | evict =>
    obtain ⟨s, hs, rfl⟩ := map_eq_some_iff.1 hrun
    obtain ⟨-, rfl⟩ : (x.stored.part.task = none ∧ x.stored.part.pendingFree = []) ∧
        { x.stored.part with entry := none } = s := by simpa [PartitionEvent.run] using hs
    exact h.frame rfl rfl le_rfl h.term rfl fun _ _ _ ↦ .of_unloaded rfl
  | evictFile =>
    obtain ⟨-, rfl⟩ := ite_some_none_eq_some.1 hrun
    exact h.withPart rfl id
  | collect l =>
    obtain ⟨-, rfl⟩ := ite_some_none_eq_some.1 hrun
    exact h.collect hcareful
  | restart term =>
    obtain ⟨hterm, rfl⟩ := ite_some_none_eq_some.1 hrun
    exact h.frame rfl rfl hterm.1 hterm.2 rfl fun _ _ _ ↦ .of_unloaded rfl
  | putOther n m =>
    obtain ⟨hn, rfl⟩ := ite_some_none_eq_some.1 hrun
    refine h.other (by rw [h.cloud_eq]; rfl) rfl rfl (fun o ho ↦ ?_) (nodup_putObject h.nodup n m)
      fun term m' ↦ ?_
    · rcases mem_putObject.1 ho with ⟨-, ho⟩ | ⟨heq, -⟩
      · exact h.named o ho
      · rw [heq]
        exact hn.1
    · rw [mem_putObject]
      have hne : (⟨x.stored.part.activeBranch, term, none⟩ : ManifestName) ≠ n := by
        rintro rfl
        exact hn.2.elim (fun hb ↦ hb rfl) fun ht ↦ ht rfl
      exact ⟨fun hm ↦ hm.elim And.right fun heq ↦ absurd heq.1 hne, fun hm ↦ .inl ⟨hne, hm⟩⟩
  | deleteOther n =>
    obtain ⟨hn, rfl⟩ := ite_some_none_eq_some.1 hrun
    refine h.other (by rw [h.cloud_eq]; rfl) rfl rfl (fun o ho ↦ h.named o (mem_of_mem_filter ho))
      (h.nodup.sublist (filter_sublist.map _)) fun term m' ↦ ?_
    have hne : (⟨x.stored.part.activeBranch, term, none⟩ : ManifestName) ≠ n := by
      rintro rfl
      exact hn.elim (fun hb ↦ hb rfl) fun ht ↦ ht rfl
    rw [mem_filter]
    exact ⟨And.left, fun hm ↦ ⟨hm, by simpa using hne⟩⟩

end InOrder

end Tracked

/-- **The last durable content stays in the object store**, in every run of a branch that selects
its own manifests and collects only under a manifest of the running term. -/
theorem committed_content_held (opts : KvOptions) {x₀ x : Tracked} (h₀ : x₀.Starts)
    (hrun : CloudRuns opts (CloudEvent.Careful opts) x₀ x) : x.Held :=
  (hrun.invariant Tracked.InOrder h₀.inOrder fun h hcareful hstep ↦ h.event hcareful hstep).held

/-- Append mode with an object store. -/
def bucketOptions : KvOptions := { sampleOptions with cloudStorePath := "bucket" }

/-- An empty object store, and an instance of `main` under term 1. -/
def emptyCloud : Tracked := { stored := ⟨.fresh "main" 1, some []⟩ }

theorem emptyCloud_starts : emptyCloud.Starts :=
  ⟨⟨rfl, by decide, by decide, by simp [Tracked.objects, emptyCloud],
    by simp [Tracked.objects, emptyCloud], by simp [Tracked.Lists, Tracked.objects, emptyCloud]⟩,
    rfl, by simp [emptyCloud]⟩

/-- A write of a page under term 1, a restart under term 2, and a compaction that finds nothing to
move and collects. -/
def promotedRun : List CloudEvent :=
  [.begin true, .step (.allocatePage none), .step (.setRoots (some 0) none 0), .commit .stored,
    .restart 2, .begin true, .commit .stored,
    .collect ⟨some 2, [⟨⟨.data, 0⟩, ⟨"main", 1⟩⟩], [[.filePageId 0]], []⟩]

/-- The promoted manifest is uploaded, and the page is still held under term 2. -/
theorem committed_content_held_after_promotedRun : ∃ x,
    CloudRuns bucketOptions (CloudEvent.Careful bucketOptions) emptyCloud x ∧
      x.objects.map (·.1) = [⟨"main", 2, none⟩] ∧ (∃ m ∈ x.committed, m.MapsPage) ∧ x.Held := by
  obtain ⟨x, hrun, hnames, hm⟩ : ∃ x,
      CloudRuns bucketOptions (CloudEvent.Careful bucketOptions) emptyCloud x ∧
      x.objects.map (·.1) = [⟨"main", 2, none⟩] ∧ ∃ m ∈ x.committed, m.MapsPage :=
    exists_reach_of_exec promotedRun (by decide)
  exact ⟨x, hrun, hnames, hm, committed_content_held bucketOptions emptyCloud_starts hrun⟩

/-- The manifest of a branch `feature` that took over `main`'s under term 2 and wrote another page
in the page's place. -/
def featureManifest : Manifest where
  snapshot :=
    { root := some 0, ttlRoot := none, maxFpId := 17, dictBytes := []
      mappingTbl := [.filePageId 16]
      branchMetadata := ⟨"feature", 2, [⟨"main", 1, 0, 0⟩, ⟨"feature", 2, 1, 0⟩]⟩
      segment := none }
  logs := []

/-- `main` restarts under term 3 next to that manifest, and a compaction finds nothing to move. -/
def adoptedRun : List CloudEvent :=
  [.begin true, .step (.allocatePage none), .step (.setRoots (some 0) none 0), .commit .stored,
    .putOther ⟨"feature", 2, none⟩ featureManifest, .restart 3, .begin true, .commit .stored,
    .collect ⟨some 3, [⟨⟨.data, 0⟩, ⟨"main", 1⟩⟩, ⟨⟨.data, 1⟩, ⟨"feature", 2⟩⟩],
      [[.filePageId 16]], []⟩]

/-- **A collection deletes the last manifest with the branch's content.** `feature`'s manifest is
the newest of all, so `main` promotes it under term 3, and the collection deletes `main`'s own
manifest of term 1 as superseded. No manifest that is left replays to what `main` committed. -/
theorem collection_loses_last_manifest : ∃ x,
    CloudRuns bucketOptions (fun _ _ ↦ True) emptyCloud x ∧
      x.objects.map (·.1) = [⟨"feature", 2, none⟩, ⟨"main", 3, none⟩] ∧
      (∃ m ∈ x.committed, m.MapsPage) ∧ ¬ x.Held := by
  obtain ⟨x, hrun, hnames, m, hm, hmaps, hlost⟩ : ∃ x,
      CloudRuns bucketOptions (fun _ _ ↦ True) emptyCloud x ∧
      x.objects.map (·.1) = [⟨"feature", 2, none⟩, ⟨"main", 3, none⟩] ∧
      ∃ m ∈ x.committed, m.MapsPage ∧ ∀ o ∈ x.objects, replay o.2 ≠ replay m :=
    exists_reach_of_exec adoptedRun (by decide)
  refine ⟨x, hrun, hnames, ⟨m, hm, hmaps⟩, fun hheld ↦ ?_⟩
  obtain ⟨⟨term, m', hlist, heq⟩, -⟩ := hheld m hm hmaps
  exact hlost _ hlist heq

end EloqStore
