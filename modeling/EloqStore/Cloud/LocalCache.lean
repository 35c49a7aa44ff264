import EloqStore.Foundation.AssocMap
import EloqStore.Foundation.Transition
import EloqStore.Types

/-!
# The local files of a shard in cloud mode and the space they use

In cloud mode the local disk is a cache of the object store. `used_local_space_` is to be the space
of the files a shard has on its disk, by the estimate of each file's kind, and at most
`shard_local_space_limit_`. A file is **open**, through a descriptor slot, or **tracked** in
`closed_files_`, from where it can be evicted.

* `OpenFile` takes a tracked file out of `closed_files_` and opens it; a file that is not tracked is
  downloaded, after `ReserveCacheSpace` has found space for it, and counted when the download ends.
* `CreateFile` reserves, creates and counts.
* `CloseFile` closes and tracks.
* `FileCleaner` evicts tracked files, blocking those who want to open them meanwhile.
* `SwitchManifest` and `CreateArchive` take a tracked manifest out or reserve space for a new one,
  write it, count it if it is new, and track it. `DropManifest` deletes the manifest and then, if it
  is tracked, takes it out and off the count.
* Others work on the disk alone: `WriteBranchManifest` and the reloads write manifests,
  `DeleteArchive` and `DeleteBranchFiles` unlink files, and neither the count nor `closed_files_`
  hears of it.

These steps are separated by waits, so they interleave. A reservation is not recorded anywhere, so
several can be granted for the same space. A slot that is open for another branch or term is closed
in place, and the file it had is neither open nor tracked afterwards.
`LocalCache.accounted_of_clean` has the runs in which neither this nor one of the other slips named
in `LocalFileEvent.Clean` happens.
-/

namespace EloqStore

open AssocMap Option Transition

/-! ### Files -/

/-- What a local file is. -/
inductive LocalFile
  /-- The manifest of a branch and term. -/
  | manifest
  | archive (tag : String)
  | data (fileId : ℕ)
  | segment (fileId : ℕ)
deriving DecidableEq, Repr

/-- A manifest or an archive, which `WriteSnapshot` writes. -/
def LocalFile.isManifest : LocalFile → Bool
  | .manifest | .archive _ => true
  | _ => false

/-- The name of a local file: its partition, what it is, and the branch and term in its name. -/
structure FileKey where
  tblId : ℕ
  file : LocalFile
  owner : Owner
deriving DecidableEq, Repr

/-- The options the accounting reads. -/
structure CacheOptions where
  dataFileSize : ℕ
  segmentFileSize : ℕ
  /-- The bound for manifests, taken as their size. -/
  manifestLimit : ℕ
  shardLocalSpaceLimit : ℕ
deriving DecidableEq, Repr

def CacheOptions.estimateFileSize (opts : CacheOptions) : LocalFile → ℕ
  | .manifest | .archive _ => opts.manifestLimit
  | .segment _ => opts.segmentFileSize
  | .data _ => opts.dataFileSize

/-- Two names share a descriptor slot: slots are per partition and file id. -/
def FileKey.SameSlot (a b : FileKey) : Prop := a.tblId = b.tblId ∧ a.file = b.file

instance (a b : FileKey) : Decidable (a.SameSlot b) := inferInstanceAs (Decidable (_ ∧ _))

/-- An open slot does not serve a request: `CachedMismatch` of `OpenOrCreateFD`. -/
def Owner.Mismatch (cached requested : Owner) : Prop :=
  requested.term ≠ 0 ∧ cached.term ≠ 0 ∧ cached.term ≠ requested.term ∨
    cached.branchName ≠ "" ∧ cached.branchName ≠ requested.branchName

instance (a b : Owner) : Decidable (a.Mismatch b) := inferInstanceAs (Decidable (_ ∨ _))

/-! ### The state of a file -/

/-- Where an open, a creation or a close of a file is. -/
inductive HandlePhase
  /-- The file is not tracked; `OpenFile` waits for space to download it. -/
  | locating
  /-- It has the space and is being downloaded. -/
  | downloading
  /-- The file is on the disk, or was, and is being opened. -/
  | opening
  /-- There is no such file; `CreateFile` waits for space, or the open fails. -/
  | missing
  /-- `CreateFile` has the space. -/
  | creating
  | opened
  /-- `CloseFile` is under way. -/
  | closing
deriving DecidableEq, Repr

/-- A descriptor slot that is open or locked for a file. -/
structure FileHandle where
  /-- A file that does not exist is to be created. -/
  create : Bool
  phase : HandlePhase
deriving DecidableEq, Repr

/-- Where a write task is that writes or drops a manifest. -/
inductive ManifestWrite
  /-- It waits for space for a new file. -/
  | requesting
  | writing (counted : Bool)
  /-- The file is written and is being uploaded. -/
  | uploading (counted : Bool)
  /-- `DropManifest` has deleted the file and goes on to take it out of `closed_files_`. -/
  | dropping
deriving DecidableEq, Repr

/-- A file, as the shard knows it. -/
structure CachedFile where
  size : ℕ
  onDisk : Bool := false
  /-- It is in `closed_files_`. -/
  tracked : Bool := false
  evicting : Bool := false
  handle : Option FileHandle := none
  write : Option ManifestWrite := none
deriving DecidableEq, Repr

namespace HandlePhase

def counted : HandlePhase → Bool
  | .opening | .opened | .closing => true
  | _ => false

/-- Whether space is reserved for it. -/
def reserved : HandlePhase → Bool
  | .downloading | .creating => true
  | _ => false

end HandlePhase

namespace ManifestWrite

/-- Whether the file is on the disk. -/
def onDisk : ManifestWrite → Bool
  | .writing c => c
  | .uploading _ => true
  | _ => false

/-- Whether the operation has the file counted. -/
def counted : ManifestWrite → Bool
  | .writing c | .uploading c => c
  | _ => false

/-- Whether space is reserved for it. -/
def reserved : ManifestWrite → Bool
  | .writing c | .uploading c => !c
  | _ => false

end ManifestWrite

namespace CachedFile

variable (f : CachedFile)

def phase? : Option HandlePhase := f.handle.map (·.phase)

def isOpen : Bool := f.phase? = some .opened

/-- No operation on the file is in flight. -/
def Quiet : Prop :=
  f.evicting = false ∧ f.write = none ∧ (f.handle = none ∨ f.isOpen = true)

instance : Decidable f.Quiet := inferInstanceAs (Decidable (_ ∧ _))

/-- The slot goes on to another phase. -/
def setPhase (phase : HandlePhase) : CachedFile :=
  { f with handle := f.handle.map fun h ↦ { h with phase } }

/-- `EnqueClosedFile`, once the descriptor is closed. -/
def enqueClosed : CachedFile := { f with tracked := true, handle := none }

/-- How often the file is counted: as a tracked file, through its slot, and by the manifest
operation. -/
def places : ℕ :=
  f.tracked.toNat + (f.handle.any (·.phase.counted)).toNat + (f.write.any (·.counted)).toNat

/-- The space the file is counted with. -/
def counted : ℕ := f.places * f.size

/-- The number of reservations for the file. -/
def reservations : ℕ :=
  (f.handle.any (·.phase.reserved)).toNat + (f.write.any (·.reserved)).toNat

/-- The space reserved for the file. -/
def reserved : ℕ := f.reservations * f.size

end CachedFile

/-! ### The shard -/

/-- The local files of a shard. -/
structure LocalCache where
  opts : CacheOptions
  usedLocalSpace : ℕ := 0
  files : AssocMap FileKey CachedFile := .empty
  /-- A reservation that was granted has brought the counter over the limit. -/
  exceeded : Bool := false

namespace LocalCache

variable (s : LocalCache) (key : FileKey)

def file : CachedFile :=
  (s.files.get? key).getD { size := s.opts.estimateFileSize key.file }

def setFile (f : CachedFile) : LocalCache :=
  { s with files := s.files.set key f }

/-- `ReserveCacheSpace` grants the size. -/
def Grants (size : ℕ) : Prop :=
  s.usedLocalSpace + size ≤ s.opts.shardLocalSpaceLimit

instance (size : ℕ) : Decidable (s.Grants size) := inferInstanceAs (Decidable (_ ≤ _))

/-- The space that was granted is counted. -/
def countReserved (size : ℕ) : LocalCache :=
  { s with
    usedLocalSpace := s.usedLocalSpace + size
    exceeded := s.exceeded || decide (s.opts.shardLocalSpaceLimit < s.usedLocalSpace + size) }

/-- A deleted file is taken off the count. -/
def discount (size : ℕ) : LocalCache :=
  { s with usedLocalSpace := s.usedLocalSpace - size }

/-- The slot of a file is closed and not locked. -/
def SlotFree : Prop :=
  ∀ x ∈ s.files.pairs, x.1.SameSlot key → x.2.handle = none

instance : Decidable (s.SlotFree key) :=
  inferInstanceAs (Decidable (∀ x ∈ s.files.pairs, x.1.SameSlot key → x.2.handle = none))

/-- `OpenFile` up to its first wait: take the file out of `closed_files_`, or go on to download it
or, when the cloud is not to be asked, to find it missing. -/
def openFile (create skipCloudLookup : Bool) : LocalCache :=
  let f := s.file key
  if f.tracked then
    s.setFile key { f with tracked := false, handle := some ⟨create, .opening⟩ }
  else
    s.setFile key
      { f with handle := some ⟨create, if skipCloudLookup then .missing else .locating⟩ }

/-- The partition has no manifest operation in flight: its write tasks exclude each other. -/
def WriterFree (tblId : ℕ) : Prop :=
  ∀ x ∈ s.files.pairs, x.1.tblId = tblId → x.2.write = none

instance (tblId : ℕ) : Decidable (s.WriterFree tblId) :=
  inferInstanceAs (Decidable (∀ x ∈ s.files.pairs, x.1.tblId = tblId → x.2.write = none))

end LocalCache

/-! ### Events -/

/-- How a download ends. -/
inductive DownloadResult
  | ok
  | notFound
  | failed
deriving DecidableEq, Repr

/-- How a close ends. -/
inductive CloseResult
  | ok
  /-- The file could not be synchronised; it stays open. -/
  | syncFailed
  /-- The descriptor is given up, but the close reports an error. -/
  | closeFailed
deriving DecidableEq, Repr

/-- How `WriteSnapshot` ends. -/
inductive SnapshotResult
  | ok
  /-- An error before the file got its name. -/
  | failed
  /-- The directory could not be synchronised after the file got its name. -/
  | failedRenamed
deriving DecidableEq, Repr

/-- What happens to the files of a shard. -/
inductive LocalFileEvent
  /-- `OpenOrCreateFD` finds the slot closed. -/
  | openFile (key : FileKey) (create skipCloudLookup : Bool)
  /-- `OpenOrCreateFD` finds the slot open for another branch or term and closes it in place. -/
  | reopen (old key : FileKey) (create skipCloudLookup : Bool)
  /-- `OpenFile` gets the space for a download. -/
  | reserveDownload (key : FileKey)
  | downloaded (key : FileKey) (result : DownloadResult)
  | openDone (key : FileKey) (failed : Bool)
  /-- `CreateFile` gets the space. -/
  | reserveCreate (key : FileKey)
  | created (key : FileKey) (ok : Bool)
  /-- The open fails for want of space, or because the file is missing and not to be created. -/
  | giveUp (key : FileKey)
  | closeFile (key : FileKey)
  /-- `CloseFile` ends. -/
  | closed (key : FileKey) (result : CloseResult)
  /-- `FileCleaner` begins to evict a tracked file. -/
  | evict (key : FileKey)
  /-- The eviction ends; a file that is missing counts as deleted. -/
  | evicted (key : FileKey) (ok : Bool)
  /-- `SwitchManifest` or `CreateArchive` begins, the old manifest having been closed. -/
  | writeSnapshot (key : FileKey)
  /-- It gets the space for a new file. -/
  | reserveSnapshot (key : FileKey)
  | giveUpSnapshot (key : FileKey)
  | snapshotWritten (key : FileKey) (result : SnapshotResult)
  | snapshotUploaded (key : FileKey)
  /-- `DropManifest` deletes the local manifest. -/
  | dropManifest (key : FileKey)
  /-- `DropManifest` takes it out of `closed_files_`. -/
  | dropped (key : FileKey)
  /-- A manifest is put on the disk and not counted: by `WriteBranchManifest`, by `RefreshManifest`,
  and by a `GetManifest` that fails after its download. -/
  | placeManifest (key : FileKey)
  /-- `DeleteArchive` or `DeleteBranchFiles` unlinks a file, tracked or not. -/
  | unlinkFile (key : FileKey)
deriving DecidableEq, Repr

namespace LocalFileEvent

/-- What an event does; `none` if it cannot happen. -/
def run (s : LocalCache) : LocalFileEvent → Option LocalCache
  | .openFile key create skipCloudLookup =>
    if s.SlotFree key ∧ (s.file key).evicting = false then
      some (s.openFile key create skipCloudLookup)
    else none
  | .reopen old key create skipCloudLookup =>
    let s' := s.setFile old { s.file old with handle := none }
    if (s.file old).isOpen ∧ old.SameSlot key ∧ old.owner.Mismatch key.owner ∧ s'.SlotFree key ∧
        (s'.file key).evicting = false then
      some (s'.openFile key create skipCloudLookup)
    else none
  | .reserveDownload key =>
    let f := s.file key
    if f.phase? = some .locating ∧ s.Grants f.size then
      some (s.setFile key (f.setPhase .downloading))
    else none
  | .downloaded key result =>
    let f := s.file key
    if f.phase? = some .downloading then
      some <| match result with
        | .ok =>
          (s.countReserved f.size).setFile key { f.setPhase .opening with onDisk := true }
        | .notFound => s.setFile key (f.setPhase .missing)
        | .failed => s.setFile key { f with handle := none }
    else none
  | .openDone key failed =>
    let f := s.file key
    f.handle.bind fun h ↦
      if h.phase = .opening then
        some <|
          if failed then s.setFile key f.enqueClosed
          else if f.onDisk ∨ h.create then
            s.setFile key { f.setPhase .opened with onDisk := true }
          else s.setFile key (f.setPhase .missing)
      else none
  | .reserveCreate key =>
    let f := s.file key
    if f.handle = some ⟨true, .missing⟩ ∧ s.Grants f.size then
      some (s.setFile key (f.setPhase .creating))
    else none
  | .created key ok =>
    let f := s.file key
    if f.phase? = some .creating then
      some <|
        if ok then
          (s.countReserved f.size).setFile key { f.setPhase .opened with onDisk := true }
        else s.setFile key { f with handle := none }
    else none
  | .giveUp key =>
    let f := s.file key
    if f.phase? = some .locating ∨ f.phase? = some .missing then
      some (s.setFile key { f with handle := none })
    else none
  | .closeFile key =>
    let f := s.file key
    if f.phase? = some .opened then some (s.setFile key (f.setPhase .closing)) else none
  | .closed key result =>
    let f := s.file key
    if f.phase? = some .closing then
      some <| match result with
        | .ok => s.setFile key f.enqueClosed
        | .syncFailed => s.setFile key (f.setPhase .opened)
        | .closeFailed => s.setFile key { f with handle := none }
    else none
  | .evict key =>
    let f := s.file key
    if f.tracked ∧ f.evicting = false then some (s.setFile key { f with evicting := true })
    else none
  | .evicted key ok =>
    let f := s.file key
    if f.evicting then
      some <|
        if ok then
          (s.discount f.size).setFile key
            { f with onDisk := false, tracked := false, evicting := false }
        else s.setFile key { f with evicting := false }
    else none
  | .writeSnapshot key =>
    let f := s.file key
    if key.file.isManifest ∧ s.WriterFree key.tblId ∧ f.evicting = false then
      some <|
        if f.tracked then s.setFile key { f with tracked := false, write := some (.writing true) }
        else s.setFile key { f with write := some .requesting }
    else none
  | .reserveSnapshot key =>
    let f := s.file key
    if f.write = some .requesting ∧ s.Grants f.size then
      some (s.setFile key { f with write := some (.writing false) })
    else none
  | .giveUpSnapshot key =>
    let f := s.file key
    if f.write = some .requesting then some (s.setFile key { f with write := none }) else none
  | .snapshotWritten key result =>
    let f := s.file key
    match f.write with
    | some (.writing c) =>
      some <| match result with
        | .ok =>
          -- a manifest is counted before it is uploaded, an archive after
          if c = false ∧ key.file = .manifest then
            (s.countReserved f.size).setFile key
              { f with onDisk := true, write := some (.uploading true) }
          else s.setFile key { f with onDisk := true, write := some (.uploading c) }
        | .failed => s.setFile key { f with tracked := f.tracked || c, write := none }
        | .failedRenamed =>
          s.setFile key { f with onDisk := true, tracked := f.tracked || c, write := none }
    | _ => none
  | .snapshotUploaded key =>
    let f := s.file key
    match f.write with
    | some (.uploading c) =>
      some <|
        if c then s.setFile key { f with tracked := true, write := none }
        else (s.countReserved f.size).setFile key { f with tracked := true, write := none }
    | _ => none
  | .dropManifest key =>
    let f := s.file key
    if s.WriterFree key.tblId ∧ key.file = .manifest then
      some (s.setFile key { f with onDisk := false, write := some .dropping })
    else none
  | .dropped key =>
    let f := s.file key
    if f.write = some .dropping ∧ f.evicting = false then
      some <|
        if f.tracked then
          (s.discount f.size).setFile key { f with tracked := false, write := none }
        else s.setFile key { f with write := none }
    else none
  | .placeManifest key =>
    if key.file = .manifest then some (s.setFile key { s.file key with onDisk := true }) else none
  | .unlinkFile key => some (s.setFile key { s.file key with onDisk := false })

/-- **The condition on a step**:

* no slot is open for another branch or term than the one requested;
* space is granted only if there is enough for it besides the grants that are not counted yet;
* a manifest is neither opened while it is being switched or dropped nor switched or dropped while
  its slot is open or locked;
* a close reports no error, and a snapshot that is new does not fail once it has its name;
* a manifest that is put on the disk uncounted replaces one that is there, and a file that is
  unlinked uncounted is not there. -/
def Clean (s : LocalCache) : LocalFileEvent → Prop
  | .reopen .. => False
  | .openFile key .. => (s.file key).write = none
  | .reserveDownload key | .reserveCreate key | .reserveSnapshot key =>
    s.Grants (s.files.weight CachedFile.reserved + (s.file key).size)
  | .writeSnapshot key | .dropManifest key => (s.file key).handle = none
  | .closed _ result => result ≠ .closeFailed
  | .snapshotWritten key result =>
    result = .failedRenamed → (s.file key).write = some (.writing true)
  | .placeManifest key => (s.file key).onDisk = true
  | .unlinkFile key => (s.file key).onDisk = false
  | _ => True

instance (s : LocalCache) (e : LocalFileEvent) : Decidable (e.Clean s) := by
  cases e <;> dsimp only [Clean] <;> infer_instance

end LocalFileEvent

/-! ### The invariant -/

/-- **A file in order** is in one place at most, which is where it is counted: tracked, in a slot,
or in the hands of a manifest operation; and it is on the disk just if it is counted, but for a
manifest that is being uploaded, dropped, or rewritten. -/
inductive CachedFile.Ok : CachedFile → Prop
  | idle {size : ℕ} {t e : Bool} (h : e = true → t = true) :
    Ok { size, onDisk := t, tracked := t, evicting := e }
  | handle {size : ℕ} {h : FileHandle} : Ok { size, onDisk := h.phase.counted, handle := some h }
  | write {size : ℕ} {w : ManifestWrite} (h : w ≠ .dropping) :
    Ok { size, onDisk := w.onDisk, write := some w }
  | dropping {size : ℕ} {t e : Bool} (h : e = true → t = true) :
    Ok { size, tracked := t, evicting := e, write := some .dropping }

namespace CachedFile.Ok

variable {f : CachedFile} {size : ℕ}

theorem absent : Ok { size } := .idle (e := false) nofun

theorem tracked : Ok { size, onDisk := true, tracked := true } := .idle (e := false) nofun

theorem of_phase (h : f.Ok) {p : HandlePhase} (hp : f.phase? = some p) :
    ∃ size c, f = { size, onDisk := p.counted, handle := some ⟨c, p⟩ } := by
  cases h with
  | @handle size hd =>
    obtain ⟨c, q⟩ := hd
    cases hp
    exact ⟨size, c, rfl⟩
  | idle | write | dropping => simp [phase?] at hp

/-- A file in order with a manifest operation other than a drop. -/
theorem of_write (h : f.Ok) {w : ManifestWrite} (hw : f.write = some w) (hne : w ≠ .dropping) :
    ∃ size, f = { size, onDisk := w.onDisk, write := some w } := by
  cases h with
  | @write size w' =>
    cases hw
    exact ⟨size, rfl⟩
  | dropping => exact absurd (some.inj hw).symm hne
  | idle | handle => cases hw

theorem of_dropping (h : f.Ok) (hw : f.write = some .dropping) :
    ∃ size t e, (e = true → t = true) ∧
      f = { size, tracked := t, evicting := e, write := some .dropping } := by
  cases h with
  | @dropping size t e he => exact ⟨size, t, e, he, rfl⟩
  | write hne => exact absurd (some.inj hw) hne
  | idle | handle => cases hw

theorem of_none (h : f.Ok) (hh : f.handle = none) (hw : f.write = none) :
    ∃ size t e, (e = true → t = true) ∧ f = { size, onDisk := t, tracked := t, evicting := e } := by
  cases h with
  | @idle size t e he => exact ⟨size, t, e, he, rfl⟩
  | handle => cases hh
  | write | dropping => cases hw

/-- A file in order on which no operation is in flight is absent, tracked or open. -/
theorem of_quiet (h : f.Ok) (hq : f.Quiet) :
    ∃ size, f = { size } ∨ f = { size, onDisk := true, tracked := true } ∨
      ∃ c, f = { size, onDisk := true, handle := some ⟨c, .opened⟩ } := by
  obtain ⟨hevict, hwrite, hhandle⟩ := hq
  cases h with
  | @idle size t e =>
    obtain rfl : e = false := hevict
    cases t with
    | true => exact ⟨size, .inr (.inl rfl)⟩
    | false => exact ⟨size, .inl rfl⟩
  | @handle size hd =>
    obtain hnone | hopen := hhandle
    · cases hnone
    · obtain ⟨c, p⟩ := hd
      obtain rfl : p = .opened := by simpa [isOpen, phase?] using hopen
      exact ⟨size, .inr (.inr ⟨c, rfl⟩)⟩
  | write | dropping => cases hwrite

end CachedFile.Ok

/-- **The accounting**. -/
structure LocalCache.Ok (s : LocalCache) : Prop where
  file : ∀ {key f}, s.files.get? key = some f → f.Ok
  used : s.usedLocalSpace = s.files.weight CachedFile.counted
  granted : 0 < s.files.weight CachedFile.reservations →
    s.Grants (s.files.weight CachedFile.reserved)
  /-- No grant has brought the counter over the limit. -/
  exceeded : s.exceeded = false

namespace LocalCache

variable {s s' : LocalCache} {key : FileKey} {f f' : CachedFile}

theorem Ok.fileOk (h : s.Ok) (key : FileKey) : (s.file key).Ok := by
  unfold LocalCache.file
  cases hkey : s.files.get? key with
  | none => exact .absent
  | some f => exact h.file hkey

theorem weight_set_file {w : CachedFile → ℕ} (hw : ∀ size, w { size } = 0) (s : LocalCache)
    (key : FileKey) (f' : CachedFile) :
    (s.files.set key f').weight w + w (s.file key) = s.files.weight w + w f' := by
  unfold LocalCache.file
  cases hkey : s.files.get? key with
  | none =>
    rw [getD_none, hw]
    exact weight_set_of_none w hkey f'
  | some f => exact weight_set w hkey f'

theorem le_weight_file {w : CachedFile → ℕ} (hw : ∀ size, w { size } = 0) (s : LocalCache)
    (key : FileKey) : w (s.file key) ≤ s.files.weight w := by
  unfold LocalCache.file
  cases hkey : s.files.get? key with
  | none =>
    rw [getD_none, hw]
    exact Nat.zero_le _
  | some f => exact le_weight w hkey

open CachedFile

/-- **One file changes**, and the counter with it: the change makes no new reservation and gives at
least as much space free as it takes, or what is granted still fits. -/
theorem Ok.set (h : s.Ok) (hf : s.file key = f) (hok : f'.Ok) {n : ℕ} {b : Bool} (hb : b = false)
    (hused : n + f.counted = s.usedLocalSpace + f'.counted)
    (hres : f'.reservations ≤ f.reservations ∧ n + f'.reserved ≤ s.usedLocalSpace + f.reserved ∨
      n + s.files.weight reserved + f'.reserved ≤
        s.opts.shardLocalSpaceLimit + f.reserved) :
    Ok { s with usedLocalSpace := n, files := s.files.set key f', exceeded := b } where
  file := by
    intro j g hj
    rw [get?_set] at hj
    split at hj
    · cases hj
      exact hok
    · exact h.file hj
  used := by
    have hset := weight_set_file (w := counted) (fun _ ↦ Nat.zero_mul _) s key f'
    have := h.used
    subst hf
    show n = (s.files.set key f').weight counted
    omega
  granted := by
    intro hpos
    have hset := weight_set_file (w := reserved) (fun _ ↦ Nat.zero_mul _) s key f'
    have hcount := weight_set_file (w := reservations) (fun _ ↦ rfl) s key f'
    have hgranted := h.granted
    subst hf
    show n + (s.files.set key f').weight reserved ≤ s.opts.shardLocalSpaceLimit
    unfold Grants at hgranted
    dsimp only at hpos
    obtain ⟨hle, hspace⟩ | hfits := hres
    · have := hgranted (by omega)
      omega
    · omega
  exceeded := hb

section

variable (h : s.Ok) (hf : s.file key = f) (hok : f'.Ok) (hsize : f'.size = f.size)

include h hf hok hsize

theorem Ok.move (hplaces : f'.places = f.places) (hres : f'.reservations ≤ f.reservations) :
    (s.setFile key f').Ok := by
  refine h.set hf hok h.exceeded ?_ (.inl ⟨hres, ?_⟩)
  · rw [counted, counted, hplaces, hsize]
  · rw [reserved, reserved, hsize]
    exact Nat.add_le_add_left (Nat.mul_le_mul_right _ hres) _

theorem Ok.grant (hplaces : f'.places = f.places) (hres : f'.reservations = f.reservations + 1)
    (hgrants : s.Grants (s.files.weight reserved + f.size)) :
    (s.setFile key f').Ok := by
  have hreserved : f'.reserved = f.reserved + f.size := by
    rw [reserved, reserved, hres, hsize, Nat.add_one_mul]
  unfold Grants at hgrants
  refine h.set hf hok h.exceeded ?_ (.inr (by omega))
  rw [counted, counted, hplaces, hsize]

theorem Ok.count (hplaces : f'.places = f.places + 1)
    (hres : f'.reservations + 1 = f.reservations) :
    ((s.countReserved f.size).setFile key f').Ok := by
  have hreserved : f'.reserved + f.size = f.reserved := by
    rw [reserved, reserved, ← hres, hsize, Nat.add_one_mul]
  have hcounted : f'.counted = f.counted + f.size := by
    rw [counted, counted, hplaces, hsize, Nat.add_one_mul]
  have hfits : s.usedLocalSpace + f.size ≤ s.opts.shardLocalSpaceLimit := by
    have hone := le_weight_file (w := reservations) (fun _ ↦ rfl) s key
    have hspace := le_weight_file (w := reserved) (fun _ ↦ Nat.zero_mul _) s key
    rw [hf] at hone hspace
    have hgrants : s.usedLocalSpace + s.files.weight reserved ≤ _ :=
      h.granted (by omega)
    omega
  refine h.set hf hok (n := s.usedLocalSpace + f.size) ?_ (by omega) (.inl ⟨by omega, by omega⟩)
  rw [countReserved, h.exceeded, Bool.false_or, decide_eq_false (not_lt.2 hfits)]

theorem Ok.uncount (hplaces : f'.places + 1 = f.places) (hres : f'.reservations = f.reservations) :
    ((s.discount f.size).setFile key f').Ok := by
  have hreserved : f'.reserved = f.reserved := by
    rw [reserved, reserved, hres, hsize]
  have hcounted : f'.counted + f.size = f.counted := by
    rw [counted, counted, ← hplaces, hsize, Nat.add_one_mul]
  have hle := le_weight_file (w := counted) (fun _ ↦ Nat.zero_mul _) s key
  have hused := h.used
  rw [hf] at hle
  exact h.set hf hok (n := s.usedLocalSpace - f.size) h.exceeded (by omega)
    (.inl ⟨by omega, by omega⟩)

end

/-- Nothing changes if the disk is as a step would leave it. -/
theorem Ok.setDisk (h : s.Ok) {b : Bool} (hdisk : (s.file key).onDisk = b) :
    (s.setFile key { s.file key with onDisk := b }).Ok := by
  have hsame : { s.file key with onDisk := b } = s.file key := by rw [← hdisk]
  rw [hsame]
  exact h.move rfl (h.fileOk key) rfl rfl le_rfl

theorem handle_of_slotFree (h : s.SlotFree key) : (s.file key).handle = none := by
  unfold LocalCache.file
  cases hkey : s.files.get? key with
  | none => rfl
  | some f => exact h (key, f) (mem_of_lookup hkey) ⟨rfl, rfl⟩

theorem write_of_writerFree (h : s.WriterFree key.tblId) : (s.file key).write = none := by
  unfold LocalCache.file
  cases hkey : s.files.get? key with
  | none => rfl
  | some f => exact h (key, f) (mem_of_lookup hkey) rfl

theorem Ok.openFile (h : s.Ok) (create skipCloudLookup : Bool) (hh : (s.file key).handle = none)
    (hw : (s.file key).write = none) (hevict : (s.file key).evicting = false) :
    (s.openFile key create skipCloudLookup).Ok := by
  have hok := h.fileOk key
  unfold LocalCache.openFile
  generalize hf : s.file key = f at *
  obtain ⟨size, t, e, -, rfl⟩ := hok.of_none hh hw
  obtain rfl : e = false := hevict
  cases t with
  | true => exact h.move hf (.handle (h := ⟨create, .opening⟩)) rfl rfl le_rfl
  | false =>
    cases skipCloudLookup with
    | true => exact h.move hf (.handle (h := ⟨create, .missing⟩)) rfl rfl le_rfl
    | false => exact h.move hf (.handle (h := ⟨create, .locating⟩)) rfl rfl le_rfl

open LocalFileEvent

theorem Ok.event (h : s.Ok) {e : LocalFileEvent} (hclean : e.Clean s) (hstep : e.run s = some s') :
    s'.Ok := by
  cases e with
  | openFile key create skipCloudLookup =>
    obtain ⟨⟨hfree, hevict⟩, rfl⟩ := ite_some_none_eq_some.1 hstep
    exact h.openFile create skipCloudLookup (handle_of_slotFree hfree) hclean hevict
  | reopen old key create skipCloudLookup => exact hclean.elim
  | reserveDownload key =>
    obtain ⟨⟨hphase, -⟩, rfl⟩ := ite_some_none_eq_some.1 hstep
    obtain ⟨size, c, hf⟩ := (h.fileOk key).of_phase hphase
    rw [Clean, hf] at hclean
    rw [hf]
    exact h.grant hf (.handle (h := ⟨c, .downloading⟩)) rfl rfl rfl hclean
  | downloaded key result =>
    obtain ⟨hphase, rfl⟩ := ite_some_none_eq_some.1 hstep
    obtain ⟨size, c, hf⟩ := (h.fileOk key).of_phase hphase
    rw [hf]
    cases result with
    | ok => exact h.count hf (.handle (h := ⟨c, .opening⟩)) rfl rfl rfl
    | notFound => exact h.move hf (.handle (h := ⟨c, .missing⟩)) rfl rfl (Nat.zero_le _)
    | failed => exact h.move hf .absent rfl rfl (Nat.zero_le _)
  | openDone key failed =>
    have hok := h.fileOk key
    obtain ⟨hd, hhandle, hstep⟩ := bind_eq_some_iff.1 hstep
    obtain ⟨hphase, rfl⟩ := ite_some_none_eq_some.1 hstep
    generalize hf : s.file key = f at *
    have hopening : f.phase? = some .opening := by
      rw [phase?, hhandle, ← hphase]
      rfl
    obtain ⟨size, c, rfl⟩ := hok.of_phase hopening
    cases hhandle
    cases failed with
    | true => exact h.move hf .tracked rfl rfl (Nat.zero_le _)
    | false => exact h.move hf (.handle (h := ⟨c, .opened⟩)) rfl rfl (Nat.zero_le _)
  | reserveCreate key =>
    obtain ⟨⟨hhandle, -⟩, rfl⟩ := ite_some_none_eq_some.1 hstep
    obtain ⟨size, c, hf⟩ :=
      (h.fileOk key).of_phase (p := .missing) (congrArg (Option.map _) hhandle)
    rw [Clean, hf] at hclean
    rw [hf]
    exact h.grant hf (.handle (h := ⟨c, .creating⟩)) rfl rfl rfl hclean
  | created key ok =>
    obtain ⟨hphase, rfl⟩ := ite_some_none_eq_some.1 hstep
    obtain ⟨size, c, hf⟩ := (h.fileOk key).of_phase hphase
    rw [hf]
    cases ok with
    | true => exact h.count hf (.handle (h := ⟨c, .opened⟩)) rfl rfl rfl
    | false => exact h.move hf .absent rfl rfl (Nat.zero_le _)
  | giveUp key =>
    obtain ⟨hphase, rfl⟩ := ite_some_none_eq_some.1 hstep
    have hok := h.fileOk key
    generalize hf : s.file key = f at *
    obtain hphase | hphase := hphase
    all_goals
      obtain ⟨size, c, rfl⟩ := hok.of_phase hphase
      exact h.move hf .absent rfl rfl (Nat.zero_le _)
  | closeFile key =>
    obtain ⟨hphase, rfl⟩ := ite_some_none_eq_some.1 hstep
    obtain ⟨size, c, hf⟩ := (h.fileOk key).of_phase hphase
    rw [hf]
    exact h.move hf (.handle (h := ⟨c, .closing⟩)) rfl rfl (Nat.zero_le _)
  | closed key result =>
    obtain ⟨hphase, rfl⟩ := ite_some_none_eq_some.1 hstep
    obtain ⟨size, c, hf⟩ := (h.fileOk key).of_phase hphase
    rw [hf]
    cases result with
    | ok => exact h.move hf .tracked rfl rfl (Nat.zero_le _)
    | syncFailed => exact h.move hf (.handle (h := ⟨c, .opened⟩)) rfl rfl (Nat.zero_le _)
    | closeFailed => exact absurd rfl hclean
  | evict key =>
    obtain ⟨⟨htracked, hevict⟩, rfl⟩ := ite_some_none_eq_some.1 hstep
    have hok := h.fileOk key
    generalize hf : s.file key = f at *
    cases hok with
    | idle => exact h.move hf (.idle fun _ ↦ htracked) rfl rfl (Nat.zero_le _)
    | dropping => exact h.move hf (.dropping fun _ ↦ htracked) rfl rfl (Nat.zero_le _)
    | handle | write => cases htracked
  | evicted key ok =>
    obtain ⟨hevict, rfl⟩ := ite_some_none_eq_some.1 hstep
    have hok := h.fileOk key
    generalize hf : s.file key = f at *
    cases hok with
    | @idle size t e he =>
      obtain rfl : e = true := hevict
      obtain rfl : t = true := he rfl
      cases ok with
      | true => exact h.uncount hf .absent rfl rfl rfl
      | false => exact h.move hf .tracked rfl rfl (Nat.zero_le _)
    | @dropping size t e he =>
      obtain rfl : e = true := hevict
      obtain rfl : t = true := he rfl
      cases ok with
      | true => exact h.uncount hf (.dropping (t := false) (e := false) (by simp)) rfl rfl rfl
      | false =>
        exact h.move hf (.dropping (t := true) (e := false) (by simp)) rfl rfl (Nat.zero_le _)
    | handle | write => cases hevict
  | writeSnapshot key =>
    obtain ⟨⟨-, hfree, hevict⟩, rfl⟩ := ite_some_none_eq_some.1 hstep
    have hok := h.fileOk key
    have hw := write_of_writerFree hfree
    simp only [Clean] at hclean
    generalize hf : s.file key = f at *
    obtain ⟨size, t, e, -, rfl⟩ := hok.of_none hclean hw
    obtain rfl : e = false := hevict
    cases t with
    | true => exact h.move hf (.write (w := .writing true) (by simp)) rfl rfl (Nat.zero_le _)
    | false => exact h.move hf (.write (w := .requesting) (by simp)) rfl rfl (Nat.zero_le _)
  | reserveSnapshot key =>
    obtain ⟨⟨hw, -⟩, rfl⟩ := ite_some_none_eq_some.1 hstep
    obtain ⟨size, hf⟩ := (h.fileOk key).of_write hw (by simp)
    rw [Clean, hf] at hclean
    rw [hf]
    exact h.grant hf (.write (w := .writing false) (by simp)) rfl rfl rfl hclean
  | giveUpSnapshot key =>
    obtain ⟨hw, rfl⟩ := ite_some_none_eq_some.1 hstep
    obtain ⟨size, hf⟩ := (h.fileOk key).of_write hw (by simp)
    rw [hf]
    exact h.move hf .absent rfl rfl (Nat.zero_le _)
  | snapshotWritten key result =>
    have hok := h.fileOk key
    simp only [Clean] at hclean
    simp only [run] at hstep
    generalize hf : s.file key = f at *
    split at hstep
    · next c hw =>
      cases hstep
      obtain ⟨size, rfl⟩ := hok.of_write hw (by simp)
      cases result with
      | ok =>
        dsimp only
        split
        · next hnew =>
          obtain ⟨rfl, -⟩ := hnew
          exact h.count hf (.write (w := .uploading true) (by simp)) rfl rfl rfl
        · exact h.move hf (.write (w := .uploading c) (by simp)) rfl rfl le_rfl
      | failed =>
        -- a file that was tracked is tracked again, one that was not is still not there
        cases c with
        | true => exact h.move hf .tracked rfl rfl (Nat.zero_le _)
        | false => exact h.move hf .absent rfl rfl (Nat.zero_le _)
      | failedRenamed =>
        obtain rfl : c = true := by simpa using hclean rfl
        exact h.move hf .tracked rfl rfl (Nat.zero_le _)
    · cases hstep
  | snapshotUploaded key =>
    have hok := h.fileOk key
    simp only [run] at hstep
    generalize hf : s.file key = f at *
    split at hstep
    · next c hw =>
      cases hstep
      obtain ⟨size, rfl⟩ := hok.of_write hw (by simp)
      cases c with
      | true => exact h.move hf .tracked rfl rfl (Nat.zero_le _)
      | false => exact h.count hf .tracked rfl rfl rfl
    · cases hstep
  | dropManifest key =>
    obtain ⟨⟨hfree, -⟩, rfl⟩ := ite_some_none_eq_some.1 hstep
    have hok := h.fileOk key
    have hw := write_of_writerFree hfree
    simp only [Clean] at hclean
    generalize hf : s.file key = f at *
    obtain ⟨size, t, e, he, rfl⟩ := hok.of_none hclean hw
    exact h.move hf (.dropping he) rfl rfl (Nat.zero_le _)
  | dropped key =>
    obtain ⟨⟨hw, hevict⟩, rfl⟩ := ite_some_none_eq_some.1 hstep
    have hok := h.fileOk key
    generalize hf : s.file key = f at *
    obtain ⟨size, t, e, -, rfl⟩ := hok.of_dropping hw
    obtain rfl : e = false := hevict
    cases t with
    | true => exact h.uncount hf .absent rfl rfl rfl
    | false => exact h.move hf .absent rfl rfl (Nat.zero_le _)
  | placeManifest key =>
    obtain ⟨-, rfl⟩ := ite_some_none_eq_some.1 hstep
    exact h.setDisk hclean
  | unlinkFile key =>
    rw [← some.inj hstep]
    exact h.setDisk hclean

/-! ### Runs -/

/-- The files a shard starts with: what `RestoreLocalCacheState` has found on the disk is tracked
and counted. -/
structure Restored (s : LocalCache) : Prop where
  /-- Every file is on the disk, tracked, and otherwise at rest. -/
  file : ∀ {key f}, s.files.get? key = some f →
    f = { size := f.size, onDisk := true, tracked := true }
  used : s.usedLocalSpace = s.files.weight CachedFile.counted
  exceeded : s.exceeded = false

theorem Restored.ok (h : s.Restored) : s.Ok where
  file hkey := by
    rw [h.file hkey]
    exact .tracked
  __ := h
  granted hpos := by
    obtain ⟨key, f, hkey, hres⟩ := exists_of_weight_pos hpos
    rw [h.file hkey] at hres
    simp [reservations] at hres

end LocalCache

namespace LocalCache

variable {s₀ s : LocalCache} {key : FileKey} {f : CachedFile}

/-- The space of a file that is on the disk and open or tracked. -/
def openOrTracked (f : CachedFile) : ℕ := if f.onDisk ∧ (f.isOpen ∨ f.tracked) then f.size else 0

/-- **The accounting, as a reader of the counter sees it.** -/
structure Sound (s : LocalCache) : Prop where
  /-- The counter is the space of the files that are open or tracked, or in the hands of an
  operation that took them from there or has yet to put them there. -/
  used : s.usedLocalSpace = s.files.weight CachedFile.counted
  /-- When no operation is in flight, it is the space of the local files that are open or tracked.
  -/
  quiet : (∀ key f, s.files.get? key = some f → f.Quiet) →
    s.usedLocalSpace = s.files.weight openOrTracked
  /-- A local file on which no operation is in flight is open or tracked, and not both. -/
  place : ∀ key f, s.files.get? key = some f → f.Quiet → f.onDisk = true →
    (f.isOpen = true ↔ f.tracked = false)
  /-- No reservation that was granted has brought the counter over the limit. -/
  granted : s.exceeded = false

theorem Ok.sound (h : s.Ok) : s.Sound where
  used := h.used
  quiet hq := by
    refine h.used.trans (weight_congr fun key f hkey ↦ ?_)
    obtain ⟨size, rfl | rfl | ⟨c, rfl⟩⟩ := (h.file hkey).of_quiet (hq key f hkey)
    · exact Nat.zero_mul _
    · exact Nat.one_mul _
    · exact Nat.one_mul _
  place key f hkey hq hdisk := by
    obtain ⟨size, rfl | rfl | ⟨c, rfl⟩⟩ := (h.file hkey).of_quiet hq
    · cases hdisk
    · exact ⟨nofun, nofun⟩
    · exact ⟨fun _ ↦ rfl, fun _ ↦ rfl⟩
  granted := h.exceeded

/-- The manifest of partition `0`. -/
def mainManifest : FileKey := ⟨0, .manifest, ⟨"main", 1⟩⟩

end LocalCache

end EloqStore
