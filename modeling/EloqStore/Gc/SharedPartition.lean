import EloqStore.Cloud.ManifestRetention
import EloqStore.Gc.Commits

/-!
# A collector among the writers of a partition

The branches of a partition share one directory, or one prefix of the object store. Each branch has
an instance that writes its own files and its own manifest; forks and archives add manifests that
refer to files of other branches. The instance of one branch, the **collector**, deletes files.

A collection takes many steps, and the other instances run between them (`SharedEvent`): it gathers
the files of its own live mappings, lists the manifests, archives and files, reads the listed
manifests one by one, and deletes the listed files that it then neither retains nor guards. While it
runs, the collector's own instance writes nothing, because the collection is part of a write task.

There are three collections. `TriggerFileGC` gathers the live mappings of both classes and runs the
local or the cloud collector; `TriggerLocalFileGC` gathers **the data mappings only** and runs the
local collector, which deletes segment files all the same.
-/

namespace EloqStore

/-! ### The state -/

/-- The collections. -/
inductive CollectorKind
  /-- `TriggerFileGC` without an object store. -/
  | triggerFileGC
  /-- `TriggerFileGC` with an object store. -/
  | triggerCloudGC
  | triggerLocalFileGC
deriving DecidableEq, Repr

/-- A mapping that a reader keeps alive. -/
structure Pin where
  /-- The branch of the reader's instance. -/
  branch : BranchName
  cls : FileClass
  tbl : MappingTbl
deriving DecidableEq, Repr

variable (opts : KvOptions) (collector : BranchName) (kind : CollectorKind) (s : Partition)

/-- Whether a collection of a branch gathers the files of a mapping. -/
def CollectorKind.gathers (collector : BranchName) (p : Pin) : Bool :=
  decide (p.branch = collector) && (kind != .triggerLocalFileGC || p.cls == .data)

/-- How far a collection is. -/
inductive GcPhase
  | idle
  /-- The files of the live mappings have been gathered. -/
  | built (kind : CollectorKind) (retained : List FileName)
  /-- The files have been listed, and the named manifests are still to be read; once they are, the
  listed files are deleted one by one. -/
  | scanning (kind : CollectorKind) (acc : Collected) (names : List ManifestName)
      (listed : List FileName)

namespace GcPhase

/-- Whether a collection is running. -/
def busy : GcPhase → Bool
  | .idle => false
  | .built _ _ | .scanning _ _ _ _ => true

/-- Whether it has listed what it will read and delete. -/
def listed : GcPhase → Bool
  | .idle | .built _ _ => false
  | .scanning _ _ _ _ => true

end GcPhase

/-- The branches of a partition, the store they share, and a collection. -/
structure Shared where
  instances : BranchName → Option Traced
  objects : List (ManifestName × Manifest)
  files : List FileName
  pins : List Pin
  phase : GcPhase

/-- The largest file id of a class that the committed manifest records. -/
def Traced.committedMax (x : Traced) (c : FileClass) : ℕ :=
  lastMax (durable x.part.manifest).ranges c

/-- The mappings of the published root. -/
def Partition.published : List Pin :=
  [FileClass.data, FileClass.segment].filterMap fun c ↦
    (s.liveMapper c).map fun m ↦ ⟨s.activeBranch, c, m.tbl⟩

/-- No task runs, and the root has been looked for. -/
def Partition.loaded : Bool :=
  s.task.isNone && (s.entry.isSome || s.manifest.isNone)

/-- An archive of the published root: everything it has, under the file ranges as they are. -/
def Partition.archiveManifest : Option Manifest :=
  s.liveRoot.bind fun root ↦ root.mapper.map fun mapper ↦
    ⟨{ root := root.rootId
       ttlRoot := root.ttlRootId
       maxFpId := mapper.allocator.maxFpId
       dictBytes := root.dictBytes
       mappingTbl := mapper.tbl
       branchMetadata := s.branchMetadata
       segment := root.segmentMapper.map fun m ↦ (m.allocator.maxFpId, m.tbl) }, []⟩

namespace Shared

/-- A partition never written, with the instance of its first branch. -/
def start (branch : BranchName) (term : ℕ) : Shared where
  instances b := if b = branch then some (.fresh branch term) else none
  objects := []
  files := []
  pins := []
  phase := .idle

variable (x : Shared)

/-- **What a new instance loads**, on the branch of the old one and under a term: with an object
store what `getManifest` selects there, and else its own manifest. The outer `none` is a load that
fails with another error than that nothing is found. -/
def loads (term : ℕ) (uploaded : Bool) : Option (Option (ManifestName × Manifest)) :=
  if deriveStoreMode opts = .cloud then
    match getManifest (x.objects.map (·.1.suffix)) s.activeBranch term uploaded with
    | .found source _ => (x.objects.find? (·.1.suffix = source)).map some
    | .notFound | .notUploaded _ _ => some none
    | .expiredTerm | .fatal => none
  else some (s.manifest.map (s.ownManifest, ·))

/-- Replace the instance of a branch. -/
def withInstance (b : BranchName) (inst : Traced) : Shared :=
  { x with instances := fun b' ↦ if b' = b then some inst else x.instances b' }

def store (n : ManifestName) : Option Manifest → Shared
  | none => x
  | some m => { x with objects := putObject x.objects n m }

/-- The files of a mapping that is alive, as its instance finds them. -/
def pinFiles (p : Pin) : List FileName :=
  match x.instances p.branch with
  | none => []
  | some inst => getRetainedFiles opts p.cls p.tbl inst.part.branchFileMapping

/-- What a collection gathers first: the files of the live mappings of its instance. -/
def retainedFiles : List FileName :=
  ((x.pins ++ s.published).filter (kind.gathers collector)).flatMap (x.pinFiles opts)

/-- The listed names: the manifests first, then the archives. A name that cannot be parsed is passed
over. -/
def listedNames : List ManifestName :=
  let names := (classifyManifests x.objects).map (·.1)
  names.filter (·.tag.isNone) ++ names.filter (·.tag.isSome)

/-- Whether the collector gives up once it has listed: a cloud collection does without the term
file, under another term than its, or when a manifest of a later term is listed. -/
def abandons (term : ℕ) (termFile : Option ℕ) : Bool :=
  kind == .triggerCloudGC && (termFile != some term ||
    x.listedNames.any fun n ↦ n.tag.isNone && decide (term < n.term))

/-- Whether a file is deleted: it is not kept, and a cloud collection spares later terms. -/
def drops (acc : Collected) (kind : CollectorKind) (s : Partition) (f : FileName) : Bool :=
  (kind != .triggerCloudGC || decide (f.owner.term ≤ s.processTerm)) &&
    !acc.keeps s.activeBranch f

/-- The file the collection is about to delete. -/
def deletes : Option FileName :=
  match x.phase, x.instances collector with
  | .scanning kind acc [] (f :: _), some inst => if drops acc kind inst.part f then some f else none
  | _, _ => none

end Shared

/-! ### Runs -/

/-- What happens to a partition that branches share. -/
inductive SharedEvent
  /-- The instance of a branch takes a step of its own. -/
  | write (b : BranchName) (e : TraceEvent)
  /-- The instance of a branch stops, and one with a larger term starts and loads a manifest, which
  it promotes; `uploaded` says whether a promoted manifest can be uploaded. -/
  | restart (b : BranchName) (term : ℕ) (uploaded : Bool)
  | fork (b child : BranchName)
  | archive (b : BranchName) (tag : String)
  | deleteObject (n : ManifestName)
  /-- A reader of a branch's instance pins the published mappings. -/
  | pin (b : BranchName)
  | unpin (i : ℕ)
  /-- A collection gathers the files of the live mappings. -/
  | trigger (kind : CollectorKind)
  /-- It lists the manifests, the archives and the files. -/
  | list (termFile : Option ℕ)
  | read
  /-- It deletes the next file, or keeps it. -/
  | delete
  | stop
deriving DecidableEq, Repr

/-- The file an event of an instance creates. -/
def TraceEvent.created (x : Traced) : TraceEvent → Option FileName
  | .step a => (x.part.task.bind fun t ↦ a.allocation t).map fun p ↦
      ⟨⟨p.1, fileOf (opts.shift p.1) p.2⟩, x.part.owner⟩
  | .begin | .commit | .abort | .truncateAll | .restart _ | .fork _ _ => none

/-- One event, with the collector on the given branch. -/
def SharedEvent.run (x : Shared) :
    SharedEvent → Option Shared
  | .write b e =>
    if e.isWrite = true ∧ ¬(b = collector ∧ x.phase.busy = true) then
      (x.instances b).bind fun inst ↦ (e.run opts inst).map fun inst' ↦
        let y := x.withInstance b inst'
        let y := { y with files := y.files ++ (e.created opts inst).toList.filter (· ∉ y.files) }
        if inst'.part.manifest = inst.part.manifest then y
        else y.store inst'.part.ownManifest inst'.part.manifest
    else none
  | .restart b term uploaded =>
    if ¬(b = collector ∧ x.phase.busy = true) then
      (x.instances b).bind fun inst ↦
        if inst.part.processTerm < opts.runTerm term then
          (x.loads opts inst.part (opts.runTerm term) uploaded).map fun o? ↦
            let s := .ofBranch inst.part.activeBranch (opts.runTerm term) (o?.map (·.2))
            let y := (x.withInstance b { inst with part := s }).store s.ownManifest s.manifest
            { y with pins := y.pins.filter (·.branch ≠ b) }
        else none
    else none
  | .fork b child =>
    if ¬(b = collector ∧ x.phase.busy = true) then
      (x.instances b).bind fun inst ↦
        -- a fork in append mode compacts first, which loads the root
        if inst.part.loaded then
          let m? := inst.part.branchManifest opts child inst.part.branchFileMapping
          some ((x.withInstance child { inst with part := .ofBranch child 0 m? }).store
            ⟨child, 0, none⟩ m?)
        else none
    else none
  | .archive b tag =>
    if ¬(b = collector ∧ x.phase.busy = true) then
      (x.instances b).bind fun inst ↦
        if inst.part.loaded then
          some (x.store ⟨b, inst.part.processTerm, some tag⟩ inst.part.archiveManifest)
        else none
    else none
  | .deleteObject n => some { x with objects := x.objects.filter (·.1 ≠ n) }
  | .pin b => (x.instances b).map fun inst ↦ { x with pins := x.pins ++ inst.part.published }
  | .unpin i => some { x with pins := x.pins.eraseIdx i }
  | .trigger kind =>
    (x.instances collector).bind fun inst ↦
      if x.phase.busy = false ∧ inst.part.task = none then
        some { x with phase := .built kind (x.retainedFiles opts collector kind inst.part) }
      else none
  | .list termFile =>
    match x.phase, x.instances collector with
    | .built kind retained, some inst =>
      if x.abandons kind inst.part.processTerm termFile then some { x with phase := .idle }
      else some { x with
        phase := .scanning kind ⟨retained, seedActiveBranchGuardFromInMemory opts inst.part⟩
          x.listedNames x.files }
    | _, _ => none
  | .read =>
    match x.phase with
    | .scanning kind acc (n :: names) listed =>
      match x.objects.find? (·.1 = n) with
      | some o =>
        some { x with phase := .scanning kind (acc.processOneManifest opts o.2) names listed }
      | none =>
        -- a manifest that is gone is passed over, an archive that is gone ends the collection
        if n.tag.isSome then some { x with phase := .idle }
        else some { x with phase := .scanning kind acc names listed }
    | _ => none
  | .delete =>
    match x.phase, x.instances collector with
    | .scanning kind acc [] (f :: listed), some inst =>
      some { x with
        files := if Shared.drops acc kind inst.part f then x.files.filter (· ≠ f) else x.files
        phase := .scanning kind acc [] listed }
    | _, _ => none
  | .stop => some { x with phase := .idle }

/-- The runs of a shared partition. -/
abbrev SharedRuns (G : Shared → SharedEvent → Prop) : Shared → Shared → Prop :=
  Transition.Reach (fun x e y ↦ SharedEvent.run opts collector x e = some y) G

/-- A committed write of an instance. -/
def SharedEvent.commits (b : BranchName) (steps : List TaskStep) : List SharedEvent :=
  .write b .begin :: steps.map (fun a ↦ .write b (.step a)) ++ [.write b .commit]

/-! ### What must not be deleted -/

/-- **A file is needed**: it holds a page of a mapping alive in memory, of a manifest or of an
archive, or an uncommitted write may have created it, at or above its branch's committed maximum. -/
inductive Shared.Needed (opts : KvOptions) (x : Shared) (f : FileName) : Prop
  /-- A reader keeps the mapping alive. -/
  | pinned (p : Pin) (hp : p ∈ x.pins) (hf : f ∈ x.pinFiles opts p)
  | published (b : BranchName) (inst : Traced) (hb : x.instances b = some inst) (p : Pin)
      (hp : p ∈ inst.part.published) (hf : f ∈ x.pinFiles opts p)
  /-- A manifest or an archive maps the page. -/
  | manifest (n : ManifestName) (m : Manifest) (ho : (n, m) ∈ x.objects)
      (hf : f ∈ (replay m).files opts)
  | inFlight (inst : Traced) (t : WriteTask) (hb : x.instances f.owner.branchName = some inst)
      (ht : inst.part.task = some t) (howner : inst.part.owner = f.owner)
      (hmax : inst.committedMax f.fid.cls ≤ f.fid.fileId)

/-- **The condition on events.** Writers are careful, and a new instance loads the manifest that the
old one wrote last. While a collection is between its listing and its last deletion, there is no
fork, archive or restart, and no branch whose readers keep a mapping alive writes a manifest. A
collection lists only names it can read back, and the mappings it does not gather map nothing that
their branch's manifest does not map. A fork names a new branch, and no branch loses its own
manifest. -/
def SharedEvent.Careful (x : Shared) :
    SharedEvent → Prop
  | .write b e => ∀ inst ∈ x.instances b, e.Careful opts inst ∧
      (x.phase.listed = true → ∀ inst' ∈ e.run opts inst,
        inst'.part.manifest = inst.part.manifest ∨ ∀ p ∈ x.pins, p.branch ≠ b)
  | .restart b term uploaded => x.phase.listed = false ∧
      ∀ inst ∈ x.instances b, (TraceEvent.restart term).Careful opts inst ∧
        ∀ o? ∈ x.loads opts inst.part (opts.runTerm term) uploaded,
          o?.map (·.2) = inst.part.manifest
  | .fork _ child => x.phase.listed = false ∧ (x.instances child).isNone = true
  | .archive _ _ => x.phase.listed = false
  | .deleteObject n => ∀ inst ∈ x.instances n.branch, n ≠ inst.part.ownManifest
  | .list _ =>
    match x.phase with
    | .built kind _ =>
      (∀ o ∈ x.objects, parseManifestFileSuffix o.1.suffix = some o.1) ∧
        ∀ p ∈ x.pins, kind.gathers collector p = false → ∀ inst ∈ x.instances p.branch,
          ∀ f ∈ x.pinFiles opts p, f ∈ (durable inst.part.manifest).files opts
    | .idle | .scanning _ _ _ _ => True
  | .pin _ | .unpin _ | .trigger _ | .read | .delete | .stop => True

instance SharedEvent.decidableCareful (x : Shared) (e : SharedEvent) :
    Decidable (e.Careful opts collector x) := by
  cases e <;> dsimp only [SharedEvent.Careful] <;> try infer_instance
  cases x.phase <;> dsimp only <;> infer_instance

end EloqStore
