import EloqStore.Partition.DeleteBranch

/-!
# Reopening a partition of a standby replica

A standby replica has no writes of its own. When a partition is reopened, an rsync job of two steps
fetches it from the master: the first step copies the data files into the partition's directory, the
second copies one manifest to `manifest.tmp`. Then `RefreshManifest` renames `manifest.tmp` to the
replica's own manifest, and the partition is loaded from it.

Both steps run `rsync --inplace` in a child process, so a child that fails or is killed leaves what
it has written so far. A child's exit status becomes the result of the job (`interpretRsyncStatus`),
and **the reopening task goes on after two of the errors**: a job that ends with `NotFound` or
`ResourceMissing` stands for a partition the master does not have, and the task relies on
`manifest.tmp` not being there.

A step can fail to start after its child has been spawned, and a process that ends leaves the child
it has running. Such a **stray** goes on writing, whatever later attempts do.

This file has the replica, the master as far as a copy sees it, and the runs of both. The last
section compares each installed manifest with what the manifest step of the same attempt has copied.
-/

namespace EloqStore

open Option Transition

/-! ### The master -/

/-- A page of a data file or a segment of a segment file. -/
structure FilePage where
  file : FileName
  fp : ℕ
deriving DecidableEq, Repr

/-- A manifest as a copy sees it: the file pages it maps, each with the content it had when the
manifest was written. -/
structure MasterManifest where
  mapped : List (FilePage × ℕ)
deriving DecidableEq, Repr

/-- **The partition on the master.** -/
structure Master where
  files : List FileName := []
  pages : FilePage → Option ℕ := fun _ ↦ none
  manifests : List (ManifestName × MasterManifest) := []

namespace Master

variable (m : Master)

/-- A page is written; its file is created if need be. -/
def writePage (p : FilePage) (v : ℕ) : Master where
  files := if p.file ∈ m.files then m.files else p.file :: m.files
  pages q := if q = p then some v else m.pages q
  manifests := m.manifests

/-- A manifest that maps the file pages, if they have all been written. -/
def manifestOf (ps : List FilePage) : Option MasterManifest :=
  (ps.mapM fun p ↦ (m.pages p).map fun v ↦ (p, v)).map MasterManifest.mk

/-- A commit or a compaction writes the manifest, an archive is taken, or a manifest is copied to a
new name. -/
def storeManifest (n : ManifestName) (man : MasterManifest) : Master :=
  { m with manifests := (n, man) :: m.manifests.filter (·.1 ≠ n) }

/-- A manifest or an archive is deleted. -/
def deleteManifest (n : ManifestName) : Master :=
  { m with manifests := m.manifests.filter (·.1 ≠ n) }

/-- Garbage collection deletes a file. -/
def deleteFile (f : FileName) : Master where
  files := m.files.filter (· ≠ f)
  pages q := if q.file = f then none else m.pages q
  manifests := m.manifests

end Master

/-! ### The rsync job -/

/-- How a child process ended. -/
inductive ExitStatus
  | exited (code : ℕ)
  | signaled (signal : ℕ)
deriving DecidableEq, Repr

/-- The result a child's end stands for. -/
def interpretRsyncStatus : ExitStatus → KvError
  | .exited code =>
    if code = 0 then .noError else if code = 23 ∨ code = 24 then .notFound else .ioFail
  | .signaled _ => .ioFail

/-- The manifest a job copies: the main branch's under the replica's term, or an archive of it. -/
def remoteManifestName (term : ℕ) (archiveTag : String) : ManifestName :=
  ⟨mainBranchName, term, if archiveTag = "" then none else some archiveTag⟩

/-- The files the data step selects with `--include=data_* --exclude=*`. Data files are named
`data_…`, segment files `segment_…`. -/
def rsyncIncludes (f : FileName) : Bool := decide (f.fid.cls = .data)

/-- What is in `manifest.tmp`. -/
inductive TmpManifest
  /-- Part of a manifest, possibly over the rest of another one. -/
  | torn
  | whole (man : MasterManifest)
deriving DecidableEq, Repr

/-- How far a reopening is. -/
inductive ReopenPhase
  | idle
  | queued (archiveTag : String)
  /-- The data step runs; the files it has listed and not copied yet. -/
  | data (archiveTag : String) (todo : List FileName)
  | manifest (archiveTag : String) (copied : Option MasterManifest)
  /-- The job has ended, and the task will go on. -/
  | done (result : KvError) (copied : Option MasterManifest)
deriving DecidableEq, Repr

/-- A child process of a step. -/
inductive RsyncChild
  | data
  | manifest (archiveTag : String)
deriving DecidableEq, Repr

def ReopenPhase.child? : ReopenPhase → Option RsyncChild
  | .data _ _ => some .data
  | .manifest tag _ => some (.manifest tag)
  | .idle | .queued _ | .done _ _ => none

/-- How a step fails to start: `posix_spawnp` fails, or one of the calls that register the child. -/
structure StartFailure where
  error : KvError
  /-- The child has been spawned. -/
  spawned : Bool
deriving DecidableEq, Repr

/-- A manifest that was installed. -/
structure Installation where
  file : TmpManifest
  copied : Option MasterManifest
deriving DecidableEq, Repr

/-- **A partition of a replica and its master.** -/
structure Replica where
  term : ℕ
  master : Master := {}
  pages : FilePage → Option ℕ := fun _ ↦ none
  /-- The file `manifest.tmp`. -/
  manifestTmp : Option TmpManifest := none
  manifest : Option TmpManifest := none
  phase : ReopenPhase := .idle
  installed : List Installation := []
  /-- The children that no job knows of any more. -/
  strays : List RsyncChild := []

/-- How the file operations of `RefreshManifest` go. -/
inductive RenameOutcome
  /-- The directory cannot be opened or the file not be renamed. -/
  | refused
  /-- The file is renamed. What follows, the directory's fsync and the replay, may fail. -/
  | renamed
deriving DecidableEq, Repr

/-- What happens to a partition and its master. -/
inductive ReplicaEvent
  | writePage (p : FilePage) (v : ℕ)
  /-- The master writes a manifest or an archive. -/
  | storeManifest (n : ManifestName) (ps : List FilePage)
  | deleteManifest (n : ManifestName)
  | deleteFile (f : FileName)
  | reopen (archiveTag : String)
  | startRsyncJob (failed : Option StartFailure)
  | copyFile (f : FileName)
  /-- The data step ends; if well, the manifest step is started, or fails to. -/
  | exitData (status : ExitStatus) (failed : Option StartFailure)
  /-- The manifest step writes part of the manifest. -/
  | copyPart
  | copyManifest
  | exitManifest (status : ExitStatus)
  | resume (rename : RenameOutcome)
  | reopenClean
  /-- Local garbage collection deletes a file of the replica. -/
  | collect (f : FileName)
  /-- The replica's process ends and starts again. -/
  | restart
  | strayCopyFile (f : FileName)
  | strayCopyPart (archiveTag : String)
  | strayCopyManifest (archiveTag : String)
  | strayExit (child : RsyncChild)
deriving DecidableEq, Repr

namespace Replica

variable (s : Replica)

/-- The manifest on the master that a job with the tag copies. -/
def remoteManifest (archiveTag : String) : Option MasterManifest :=
  s.master.manifests.lookup (remoteManifestName s.term archiveTag)

/-- A step fails to start, and the job ends. -/
def failStart (failed : StartFailure) (child : RsyncChild) : Option Replica :=
  if failed.error = .noError then none
  else some { s with
    phase := .done failed.error none
    strays := if failed.spawned then child :: s.strays else s.strays }

/-- A file is copied as the master has it. -/
def copyPages (f : FileName) : FilePage → Option ℕ :=
  fun q ↦ if q.file = f then s.master.pages q else s.pages q

/-- The errors of a job after which `Reopen` goes on. -/
def toleratesError (e : KvError) : Bool :=
  decide (e = .noError ∨ e = .notFound ∨ e = .resourceMissing)

/-- `RefreshManifest` and what `InstallExternalSnapshot` does without a manifest: the local manifest
is dropped. -/
def refreshManifest (copied : Option MasterManifest) (rename : RenameOutcome) : Replica :=
  match s.manifestTmp, rename with
  | none, _ => { s with manifest := none }
  | some _, .refused => s
  | some file, .renamed =>
    { s with
      manifestTmp := none
      manifest := some file
      installed := ⟨file, copied⟩ :: s.installed }

end Replica

def ReplicaEvent.run (s : Replica) : ReplicaEvent → Option Replica
  | .writePage p v => some { s with master := s.master.writePage p v }
  | .storeManifest n ps =>
    (s.master.manifestOf ps).map fun man ↦ { s with master := s.master.storeManifest n man }
  | .deleteManifest n => some { s with master := s.master.deleteManifest n }
  | .deleteFile f => some { s with master := s.master.deleteFile f }
  | .reopen tag => if s.phase = .idle then some { s with phase := .queued tag } else none
  | .startRsyncJob failed =>
    match s.phase with
    | .queued tag =>
      match failed with
      | some e => s.failStart e .data
      | none => some { s with phase := .data tag (s.master.files.filter rsyncIncludes) }
    | _ => none
  | .copyFile f =>
    match s.phase with
    | .data tag todo =>
      if rsyncIncludes f ∧ f ∈ s.master.files then
        some { s with pages := s.copyPages f, phase := .data tag (todo.filter (· ≠ f)) }
      else none
    | _ => none
  | .exitData status failed =>
    match s.phase with
    | .data tag todo =>
      if interpretRsyncStatus status = .noError then
        -- rsync exits with 0 only if it has copied every file it listed
        if todo = [] then
          match failed with
          | some e => s.failStart e (.manifest tag)
          | none => some { s with phase := .manifest tag none }
        else none
      else some { s with phase := .done (interpretRsyncStatus status) none }
    | _ => none
  | .copyPart =>
    match s.phase with
    | .manifest _ none => some { s with manifestTmp := some .torn }
    | _ => none
  | .copyManifest =>
    match s.phase with
    | .manifest tag none => (s.remoteManifest tag).map fun man ↦
        { s with manifestTmp := some (.whole man), phase := .manifest tag (some man) }
    | _ => none
  | .exitManifest status =>
    match s.phase with
    | .manifest _ copied =>
      if interpretRsyncStatus status = .noError then
        -- rsync exits with 0 only if it has copied the file
        if copied.isSome then
          some { s with
            phase := .done (if s.manifestTmp.isSome then .noError else .notFound) copied }
        else none
      else some { s with phase := .done (interpretRsyncStatus status) copied }
    | _ => none
  | .resume rename =>
    match s.phase with
    | .done result copied =>
      if Replica.toleratesError result then
        some { s.refreshManifest copied rename with phase := .idle }
      else some { s with phase := .idle }
    | _ => none
  | .reopenClean => if s.phase = .idle then some { s with manifest := none } else none
  | .collect f =>
    if s.phase = .idle then
      some { s with pages := fun q ↦ if q.file = f then none else s.pages q }
    else none
  | .restart => some { s with phase := .idle, strays := s.phase.child?.toList ++ s.strays }
  | .strayCopyFile f =>
    if .data ∈ s.strays ∧ rsyncIncludes f ∧ f ∈ s.master.files then
      some { s with pages := s.copyPages f }
    else none
  | .strayCopyPart tag =>
    if .manifest tag ∈ s.strays then some { s with manifestTmp := some .torn } else none
  | .strayCopyManifest tag =>
    if .manifest tag ∈ s.strays then
      (s.remoteManifest tag).map fun man ↦ { s with manifestTmp := some (.whole man) }
    else none
  | .strayExit child =>
    if child ∈ s.strays then some { s with strays := s.strays.erase child } else none

/-- The runs of a replica and its master. -/
abbrev ReplicaRuns (G : Replica → ReplicaEvent → Prop) : Replica → Replica → Prop :=
  Transition.Reach (fun s e t ↦ ReplicaEvent.run s e = some t) G

/-! ### What each step of an attempt does -/

namespace ReplicaEvent

variable {s t : Replica}

theorem startRsyncJob_ok {failed : Option StartFailure}
    (h : (startRsyncJob failed).run s = some t) :
    ∃ tag, s.phase = .queued tag ∧
      ((∃ e strays, e ≠ .noError ∧ t = { s with phase := .done e none, strays := strays }) ∨
        t = { s with phase := .data tag (s.master.files.filter rsyncIncludes) }) := by
  rw [run] at h
  split at h
  · next tag hphase =>
    refine ⟨tag, hphase, ?_⟩
    split at h
    · next e =>
      obtain ⟨hne, ht⟩ := ite_none_left_eq_some.1 h
      exact .inl ⟨e.error, _, hne, (some.inj ht).symm⟩
    · exact .inr (some.inj h).symm
  · cases h

theorem copyFile_ok {f : FileName} (h : (copyFile f).run s = some t) :
    ∃ tag todo, s.phase = .data tag todo ∧
      t = { s with pages := s.copyPages f, phase := .data tag (todo.filter (· ≠ f)) } := by
  rw [run] at h
  split at h
  · next tag todo hphase =>
    obtain ⟨-, ht⟩ := ite_none_right_eq_some.1 h
    exact ⟨tag, todo, hphase, (some.inj ht).symm⟩
  · cases h

theorem exitData_ok {status : ExitStatus} {failed : Option StartFailure}
    (h : (exitData status failed).run s = some t) :
    ∃ tag todo, s.phase = .data tag todo ∧
      ((∃ e strays, e ≠ .noError ∧ t = { s with phase := .done e none, strays := strays }) ∨
        todo = [] ∧ t = { s with phase := .manifest tag none }) := by
  rw [run] at h
  split at h
  · next tag todo hphase =>
    refine ⟨tag, todo, hphase, ?_⟩
    split at h
    · obtain ⟨htodo, h⟩ := ite_none_right_eq_some.1 h
      split at h
      · obtain ⟨hne, ht⟩ := ite_none_left_eq_some.1 h
        exact .inl ⟨_, _, hne, (some.inj ht).symm⟩
      · exact .inr ⟨htodo, (some.inj h).symm⟩
    · next hne => exact .inl ⟨_, _, hne, (some.inj h).symm⟩
  · cases h

theorem copyPart_ok (h : copyPart.run s = some t) :
    ∃ tag, s.phase = .manifest tag none ∧ t = { s with manifestTmp := some .torn } := by
  rw [run] at h
  split at h
  · next tag hphase => exact ⟨tag, hphase, (some.inj h).symm⟩
  · cases h

theorem copyManifest_ok (h : copyManifest.run s = some t) :
    ∃ tag man, s.phase = .manifest tag none ∧ s.remoteManifest tag = some man ∧ t = { s with
      manifestTmp := some (.whole man)
      phase := .manifest tag (some man) } := by
  rw [run] at h
  split at h
  · next tag hphase =>
    obtain ⟨man, hman, ht⟩ := map_eq_some_iff.1 h
    exact ⟨tag, man, hphase, hman, ht.symm⟩
  · cases h

theorem exitManifest_ok {status : ExitStatus} (h : (exitManifest status).run s = some t) :
    ∃ tag copied result, s.phase = .manifest tag copied ∧
      (result = .noError → copied.isSome) ∧ t = { s with phase := .done result copied } := by
  rw [run] at h
  split at h
  · next tag copied hphase =>
    split at h
    · obtain ⟨hsome, ht⟩ := ite_none_right_eq_some.1 h
      exact ⟨tag, copied, _, hphase, fun _ ↦ hsome, (some.inj ht).symm⟩
    · next hne =>
      exact ⟨tag, copied, _, hphase, fun heq ↦ absurd heq hne, (some.inj h).symm⟩
  · cases h

theorem resume_ok {rename : RenameOutcome} (h : (resume rename).run s = some t) :
    ∃ result copied, s.phase = .done result copied ∧
      (Replica.toleratesError result ∧ t = { s.refreshManifest copied rename with phase := .idle } ∨
        t = { s with phase := .idle }) := by
  rw [run] at h
  split at h
  · next result copied hphase =>
    refine ⟨result, copied, hphase, ?_⟩
    split at h
    · next htol => exact .inl ⟨htol, (some.inj h).symm⟩
    · exact .inr (some.inj h).symm
  · cases h

end ReplicaEvent

namespace Replica

variable (s : Replica) (copied : Option MasterManifest) (rename : RenameOutcome)

@[simp] theorem master_refreshManifest : (s.refreshManifest copied rename).master = s.master := by
  unfold refreshManifest
  split <;> rfl

theorem mem_installed_refreshManifest {i : Installation}
    (hi : i ∈ (s.refreshManifest copied rename).installed) :
    i ∈ s.installed ∨ s.manifestTmp = some i.file ∧ i.copied = copied := by
  unfold refreshManifest at hi
  split at hi
  · exact .inl hi
  · exact .inl hi
  · next file hfile =>
    rcases List.mem_cons.1 hi with rfl | hi
    · exact .inr ⟨hfile, rfl⟩
    · exact .inl hi

end Replica

/-- Only a task that goes on installs a manifest: what is in `manifest.tmp`. -/
theorem ReplicaEvent.installed_of_run {s t : Replica} {e : ReplicaEvent} (hrun : e.run s = some t)
    {i : Installation} (hi : i ∈ t.installed) : i ∈ s.installed ∨ ∃ rename, e = .resume rename ∧
      s.manifestTmp = some i.file ∧ ∃ result, s.phase = .done result i.copied ∧
        Replica.toleratesError result := by
  cases e with
  | resume rename =>
    obtain ⟨result, copied, hphase, ⟨htol, rfl⟩ | rfl⟩ := resume_ok hrun
    · rcases s.mem_installed_refreshManifest copied rename hi with hi | ⟨hfile, rfl⟩
      · exact .inl hi
      · exact .inr ⟨rename, rfl, hfile, result, hphase, htol⟩
    · exact .inl hi
  | startRsyncJob failed =>
    obtain ⟨tag, -, ⟨e, strays, -, rfl⟩ | rfl⟩ := startRsyncJob_ok hrun
    · exact .inl hi
    · exact .inl hi
  | copyFile f =>
    obtain ⟨tag, todo, -, rfl⟩ := copyFile_ok hrun
    exact .inl hi
  | exitData status failed =>
    obtain ⟨tag, todo, -, ⟨e, strays, -, rfl⟩ | ⟨-, rfl⟩⟩ := exitData_ok hrun
    · exact .inl hi
    · exact .inl hi
  | copyPart =>
    obtain ⟨tag, -, rfl⟩ := copyPart_ok hrun
    exact .inl hi
  | copyManifest =>
    obtain ⟨tag, man, -, -, rfl⟩ := copyManifest_ok hrun
    exact .inl hi
  | exitManifest status =>
    obtain ⟨tag, copied, result, -, -, rfl⟩ := exitManifest_ok hrun
    exact .inl hi
  | storeManifest n ps =>
    obtain ⟨man, -, rfl⟩ := map_eq_some_iff.1 hrun
    exact .inl hi
  | reopen tag | reopenClean | collect f | strayCopyFile f | strayCopyPart tag
  | strayExit child =>
    obtain ⟨-, rfl⟩ := ite_some_none_eq_some.1 hrun
    exact .inl hi
  | strayCopyManifest tag =>
    obtain ⟨man, -, rfl⟩ := map_eq_some_iff.1 (ite_none_right_eq_some.1 hrun).2
    exact .inl hi
  | writePage p v | deleteManifest n | deleteFile f | restart =>
    cases hrun
    exact .inl hi

/-! ### What an attempt installs -/

/-- The manifest that the manifest step of the attempt has copied completely. -/
def ReopenPhase.copied? : ReopenPhase → Option MasterManifest
  | .idle | .queued _ | .data _ _ => none
  | .manifest _ copied | .done _ copied => copied

/-- An installation is **delivered**: the attempt that installed the file had copied it. -/
def Installation.Delivered (i : Installation) : Prop :=
  ∃ man, i.copied = some man ∧ i.file = .whole man

/-- **The condition on events**: a job that ends with an error the task goes on after leaves no
`manifest.tmp`, and no stray is running when the manifest step copies the manifest. -/
def ReplicaEvent.NothingLeft (s : Replica) : ReplicaEvent → Prop
  | .resume _ => ∀ result copied, s.phase = .done result copied → Replica.toleratesError result →
      result = .noError ∨ s.manifestTmp = none
  | .copyManifest => s.strays = []
  | _ => True

instance (s : Replica) : DecidablePred (ReplicaEvent.NothingLeft s) := by
  intro e
  cases e with
  | resume rename =>
    rcases h : s.phase with _ | tag | ⟨tag, todo⟩ | ⟨tag, copied⟩ | ⟨result, copied⟩
    case done =>
      exact decidable_of_iff
        (Replica.toleratesError result → result = .noError ∨ s.manifestTmp = none)
        ⟨fun hc r c hd ↦ by rw [h] at hd; cases hd; exact hc, fun hc ↦ hc result copied h⟩
    all_goals exact .isTrue fun r c hd ↦ by rw [h] at hd; cases hd
  | copyManifest => exact inferInstanceAs (Decidable (s.strays = []))
  | _ => exact .isTrue trivial

namespace Replica

/-- **What an attempt has fetched.** -/
structure Fetches (s : Replica) : Prop where
  tmp : ∀ man, s.phase.copied? = some man → s.manifestTmp = some (.whole man)
  /-- No one else writes from then on. -/
  alone : s.phase.copied? ≠ none → s.strays = []
  /-- A job that ends well has copied one. -/
  done : ∀ copied, s.phase = .done .noError copied → copied.isSome

namespace Fetches

variable {s t : Replica}

/-- What happens on the master, and to the replica's files, is of no concern. -/
theorem congr (h : s.Fetches) (hphase : t.phase = s.phase)
    (htmp : t.manifestTmp = s.manifestTmp) (hstrays : t.strays = s.strays) : t.Fetches where
  tmp := by
    rw [hphase, htmp]
    exact h.tmp
  alone := by
    rw [hphase, hstrays]
    exact h.alone
  done := hphase ▸ h.done

/-- The attempt goes on, or ends, without a copied manifest. -/
theorem of_phase (hcopied : t.phase.copied? = none)
    (hdone : ∀ copied, t.phase ≠ .done .noError copied) : t.Fetches where
  tmp man hman := by
    rw [hman] at hcopied
    cases hcopied
  alone hne := absurd hcopied hne
  done copied hc := absurd hc (hdone copied)

/-- While a stray runs, the attempt has copied nothing. -/
theorem of_stray (h : s.Fetches) {child : RsyncChild} (hmem : child ∈ s.strays)
    (hphase : t.phase = s.phase) : t.Fetches := by
  have hcopied : s.phase.copied? = none := by
    by_contra hne
    rw [h.alone hne] at hmem
    cases hmem
  refine .of_phase (hphase ▸ hcopied) fun copied hc ↦ ?_
  rw [hphase] at hc
  have hsome := h.done copied hc
  rw [hc] at hcopied
  simp [show copied = none from hcopied] at hsome

open ReplicaEvent

theorem event (h : s.Fetches) {e : ReplicaEvent} (halone : e = .copyManifest → s.strays = [])
    (hrun : e.run s = some t) : t.Fetches := by
  cases e with
  | writePage p v =>
    cases hrun
    exact h.congr rfl rfl rfl
  | storeManifest n ps =>
    obtain ⟨man, -, rfl⟩ := map_eq_some_iff.1 hrun
    exact h.congr rfl rfl rfl
  | deleteManifest n =>
    cases hrun
    exact h.congr rfl rfl rfl
  | deleteFile f =>
    cases hrun
    exact h.congr rfl rfl rfl
  | reopen tag =>
    obtain ⟨-, rfl⟩ := ite_some_none_eq_some.1 hrun
    exact .of_phase rfl (by simp)
  | startRsyncJob failed =>
    obtain ⟨tag, -, ⟨e, strays, hne, rfl⟩ | rfl⟩ := startRsyncJob_ok hrun
    · exact .of_phase rfl fun copied hc ↦ hne (ReopenPhase.done.inj hc).1
    · exact .of_phase rfl (by simp)
  | copyFile f =>
    obtain ⟨tag, todo, -, rfl⟩ := copyFile_ok hrun
    exact .of_phase rfl (by simp)
  | exitData status failed =>
    obtain ⟨tag, todo, -, ⟨e, strays, hne, rfl⟩ | ⟨-, rfl⟩⟩ := exitData_ok hrun
    · exact .of_phase rfl fun copied hc ↦ hne (ReopenPhase.done.inj hc).1
    · exact .of_phase rfl (by simp)
  | copyPart =>
    obtain ⟨tag, hphase, rfl⟩ := copyPart_ok hrun
    exact .of_phase (by rw [hphase]; rfl) (by simp [hphase])
  | copyManifest =>
    obtain ⟨tag, man, -, -, rfl⟩ := copyManifest_ok hrun
    refine ⟨fun man' hman ↦ ?_, fun _ ↦ halone rfl, by simp⟩
    obtain rfl : man = man' := some.inj hman
    rfl
  | exitManifest status =>
    obtain ⟨tag, copied, result, hphase, hsome, rfl⟩ := exitManifest_ok hrun
    refine ⟨fun man hman ↦ ?_, fun hne ↦ ?_, fun c hc ↦ ?_⟩
    · exact h.tmp man (by rw [hphase]; exact hman)
    · exact h.alone (by rw [hphase]; exact hne)
    · obtain ⟨hres, rfl⟩ := ReopenPhase.done.inj hc
      exact hsome hres
  | resume rename =>
    obtain ⟨result, copied, -, ⟨-, rfl⟩ | rfl⟩ := resume_ok hrun
    · exact .of_phase rfl (by simp)
    · exact .of_phase rfl (by simp)
  | reopenClean =>
    obtain ⟨-, rfl⟩ := ite_some_none_eq_some.1 hrun
    exact h.congr rfl rfl rfl
  | collect f =>
    obtain ⟨-, rfl⟩ := ite_some_none_eq_some.1 hrun
    exact h.congr rfl rfl rfl
  | restart =>
    cases hrun
    exact .of_phase rfl (by simp)
  | strayCopyFile f =>
    obtain ⟨-, rfl⟩ := ite_some_none_eq_some.1 hrun
    exact h.congr rfl rfl rfl
  | strayCopyPart tag =>
    obtain ⟨hmem, rfl⟩ := ite_some_none_eq_some.1 hrun
    exact h.of_stray hmem rfl
  | strayCopyManifest tag =>
    obtain ⟨hmem, hman⟩ := ite_none_right_eq_some.1 hrun
    obtain ⟨man, -, rfl⟩ := map_eq_some_iff.1 hman
    exact h.of_stray hmem rfl
  | strayExit child =>
    obtain ⟨hmem, rfl⟩ := ite_some_none_eq_some.1 hrun
    exact h.of_stray hmem rfl

/-- **An attempt installs what it has copied**, if its job ended well. -/
theorem refreshManifest (h : s.Fetches) {result : KvError} {copied : Option MasterManifest}
    (hphase : s.phase = .done result copied) (hleft : result = .noError ∨ s.manifestTmp = none)
    {i : Installation} (hfile : s.manifestTmp = some i.file) (hcopied : i.copied = copied) :
    i.Delivered := by
  rcases hleft with rfl | hnone
  · obtain ⟨man, hman⟩ := isSome_iff_exists.1 (h.done copied hphase)
    have htmp := h.tmp man (by rw [hphase]; exact hman)
    rw [hfile] at htmp
    exact ⟨man, hcopied.trans hman, some.inj htmp⟩
  · rw [hfile] at hnone
    cases hnone

end Fetches

/-- **The invariant of a replica's attempts.** -/
structure Delivers (s : Replica) : Prop extends s.Fetches where
  installed : ∀ i ∈ s.installed, i.Delivered

/-- Every event keeps the invariant, if it meets the condition. -/
theorem Delivers.event {s t : Replica} (h : s.Delivers) {e : ReplicaEvent}
    (hleft : e.NothingLeft s) (hrun : e.run s = some t) : t.Delivers := by
  refine ⟨h.toFetches.event (fun heq ↦ by subst heq; exact hleft) hrun, fun i hi ↦ ?_⟩
  rcases ReplicaEvent.installed_of_run hrun hi with hi | ⟨rename, rfl, hfile, result, hphase, htol⟩
  · exact h.installed i hi
  · exact h.refreshManifest hphase (hleft result _ hphase htol) hfile rfl

/-- **Every installed manifest was copied completely by its own attempt**, in every run in which no
job that ends with an error the task goes on after leaves a `manifest.tmp`, and no stray runs beside
a manifest step that copies. -/
theorem delivered_of_nothingLeft (term : ℕ) {s : Replica}
    (hrun : ReplicaRuns ReplicaEvent.NothingLeft { term := term } s) :
    ∀ i ∈ s.installed, i.Delivered := by
  have hinit : Delivers { term := term } := ⟨.of_phase rfl (by simp), by simp⟩
  exact (hrun.invariant Delivers hinit fun h hg hstep ↦ h.event hg hstep).installed

def samplePage : FilePage := ⟨⟨dataFileKey 0, ⟨mainBranchName, 0⟩⟩, 0⟩

/-- The master commits a manifest with one page, and an attempt copies the page. -/
def fetchData : List ReplicaEvent :=
  [.writePage samplePage 7, .storeManifest (remoteManifestName 0 "") [samplePage], .reopen "",
    .startRsyncJob none, .copyFile samplePage.file, .exitData (.exited 0) none]

theorem delivered_of_nothingLeft_fetched : ∃ s : Replica,
    ReplicaRuns ReplicaEvent.NothingLeft { term := 0 } s ∧
      s.installed.length = 1 ∧ ∀ i ∈ s.installed, i.Delivered :=
  exists_reach_and_of_exec (fun hrun ↦ delivered_of_nothingLeft 0 hrun)
    (fetchData ++ [.copyPart, .copyManifest, .exitManifest (.exited 0), .resume .renamed])
    (by decide +kernel)

/-- **A manifest left by an earlier attempt is installed.** The manifest step of the first attempt
is killed half-way, and the attempt fails. The data step of the second ends with "source missing",
and the torn file of the first becomes the replica's manifest. A manifest step that ends with
"source missing" after part of the file has the same effect within one attempt. -/
theorem installs_torn_manifest :
    (∃ s : Replica, ReplicaRuns (fun _ _ ↦ True) { term := 0 } s ∧
      s.installed = [⟨.torn, none⟩] ∧ s.manifest = some .torn) ∧
    ∃ s : Replica, ReplicaRuns (fun _ _ ↦ True) { term := 0 } s ∧
      s.installed = [⟨.torn, none⟩] ∧ s.manifest = some .torn :=
  ⟨exists_reach_of_exec
      (fetchData ++ [.copyPart, .exitManifest (.signaled 9), .resume .renamed,
        .reopen "", .startRsyncJob none, .exitData (.exited 23) none, .resume .renamed])
      (by decide +kernel),
    exists_reach_of_exec
      (fetchData ++ [.copyPart, .exitManifest (.exited 23), .resume .renamed])
      (by decide +kernel)⟩

end Replica

end EloqStore
