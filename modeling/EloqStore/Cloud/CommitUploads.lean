import EloqStore.Cloud.LocalCache

/-!
# The uploads of a write task

In cloud mode what a write task writes is uploaded before the manifest that maps it. The task
appends pages to the tail data file of the partition and keeps the ranges it has written in its
**upload state**, a buffer for one file; when it goes on to the next data file, the full one is
*sealed* and uploaded from the buffer while its writes may still be in flight. Segments are written
to segment files and not buffered. The commit waits for the writes and uploads every file that is
still dirty, in the order of the table of open files: the buffered one from the buffer, the others
from the disk.

The upload state is one, and an upload of another file finds it occupied: `UploadFile` then fails
with `Corrupted`. So a commit fails when the table happens to have a dirty segment file before the
buffered data file. And it knows its file by name only: a task that evicts a descriptor of another
partition's file with the name of the file it has buffered uploads its own range there.
`CloudWrite.committed_of_clean` has the runs in which the buffered file comes first and no other
upload comes in between: the commit returns `NoError`, and the object of every file has the local
bytes of every page that the manifest is going to map.

A file is a function from page numbers to contents; offsets and sizes are in pages.
-/

namespace EloqStore

open AssocMap List Option Transition

variable {β : Type*}

/-! ### The upload state -/

/-- The upload state of a write task. -/
structure UploadState (β : Type*) where
  /-- The file whose range is buffered, once the state is initialised. -/
  filename : Option LocalFile := none
  startOffset : ℕ := 0
  endOffset : ℕ := 0
  invalid : Bool := false
  buffer : ℕ → β

namespace UploadState

/-- `ResetUploadState`. -/
def reset (u : UploadState β) : UploadState β := { buffer := u.buffer }

/-- A range is put behind what is buffered. -/
def extend (u : UploadState β) (offset : ℕ) (data : List β) : UploadState β :=
  { u with
    endOffset := offset + data.length
    buffer := fun i ↦ if offset ≤ i then data.getD (i - offset) (u.buffer i) else u.buffer i }

def onFileRangeWritePrepared (u : UploadState β) (file : LocalFile) (offset : ℕ) (data : List β) :
    UploadState β :=
  if u.invalid then u
  else match u.filename with
    | some f =>
      if f ≠ file then { u with invalid := true }
      else if offset ≠ u.endOffset then { u with invalid := true }
      else u.extend offset data
    | none =>
      { u with
        filename := some file, startOffset := offset, endOffset := offset }.extend offset data

end UploadState

/-- The task in which a file is uploaded: `CurrentWriteTask`, the owner of the upload. -/
inductive Uploader (β : Type*)
  /-- The write task that is followed here. -/
  | task
  /-- Another write task, with its own upload state. -/
  | writer (upload : UploadState β)
  /-- Not a write task. -/
  | reader

def Uploader.isTask : Uploader β → Bool
  | .task => true
  | _ => false

/-! ### A write task -/

/-- A write task in cloud append mode, with the files of its partition. -/
structure CloudWrite (β : Type*) where
  /-- There is a pool of write buffers, so that pages are appended through the upload state. -/
  hasWriteBufferPool : Bool
  pagesPerFile : ℕ
  tailFile : ℕ
  /-- The first page of it that is not written. -/
  tailOffset : ℕ
  /-- What each file holds once the writes in flight are done. -/
  content : LocalFile → ℕ → β
  /-- What the disk has in a page whose write is in flight. -/
  stale : LocalFile → ℕ → β
  /-- The pages whose writes are in flight. -/
  inflight : List (LocalFile × ℕ) := []
  objects : LocalFile → ℕ → β
  /-- The open descriptors, with their dirty flags. -/
  fds : AssocMap LocalFile Bool
  upload : UploadState β
  /-- A range that is in the upload state and not yet submitted. -/
  prepared : Option (List β) := none
  lastAppendFileId : Option ℕ := none
  mapped : List (LocalFile × ℕ)
  result : Option KvError := none
  /-- The task has used a descriptor that is not there. -/
  crashed : Bool := false

/-- A range of a file is overwritten. -/
def writeRange (content : LocalFile → ℕ → β) (file : LocalFile) (offset : ℕ) (data : List β) :
    LocalFile → ℕ → β :=
  fun g i ↦ if g = file ∧ offset ≤ i then data.getD (i - offset) (content g i) else content g i

def rangePages (file : LocalFile) (offset n : ℕ) : List (LocalFile × ℕ) :=
  (List.range n).map fun k ↦ (file, offset + k)

def LocalFile.isData : LocalFile → Bool
  | .data _ => true
  | _ => false

namespace CloudWrite

/-- What a read from the disk gives. -/
def diskPage (s : CloudWrite β) (file : LocalFile) (i : ℕ) : β :=
  if (file, i) ∈ s.inflight then s.stale file i else s.content file i

def putObject (s : CloudWrite β) (file : LocalFile) (object : ℕ → β) : CloudWrite β :=
  { s with objects := fun g ↦ if g = file then object else s.objects g }

def resetUploadState (s : CloudWrite β) : CloudWrite β := { s with upload := s.upload.reset }

/-- What `UploadFile` sends for a file of the partition, given the upload state of its owner. -/
def sends (s : CloudWrite β) (file : LocalFile) (u : UploadState β) : Except KvError (ℕ → β) :=
  if u.invalid then .error .invalidArgs
  else match u.filename with
    | some f =>
      if f ≠ file then .error .corrupted
      else if u.endOffset < u.startOffset ∨ s.pagesPerFile < u.endOffset then .error .invalidArgs
      -- `ReadFilePrefix` for what is before the range, and the buffer
      else .ok fun i ↦ if i < u.startOffset then s.diskPage file i else u.buffer i
    | none => .ok (s.diskPage file)

/-- `UploadFile`. The upload state of its owner is reset, however it ends. -/
def uploadFile (s : CloudWrite β) (file : LocalFile) : Uploader β → CloudWrite β × KvError
  | .task =>
    match s.sends file s.upload with
    | .ok object => ((s.putObject file object).resetUploadState, .noError)
    | .error e => (s.resetUploadState, e)
  | .writer u =>
    match s.sends file u with
    | .ok object => (s.putObject file object, .noError)
    | .error e => (s, e)
  | .reader => (s.putObject file (s.diskPage file), .noError)

def uploadFiles (s : CloudWrite β) : List LocalFile → CloudWrite β × KvError
  | [] => (s, .noError)
  | file :: files =>
    match s.uploadFile file .task with
    | (s', .noError) => s'.uploadFiles files
    | (s', e) => (s', e)

def dirtyFiles (s : CloudWrite β) : List LocalFile := (s.fds.pairs.filter (·.2)).map (·.1)

/-- `SyncData` and `SyncFiles`, for an order of the table of open files. -/
def syncData (s : CloudWrite β) (order : List LocalFile) : CloudWrite β × KvError :=
  if 1 < (order.filter (·.isData)).length then (s, .corrupted)
  else
    match s.uploadFiles order with
    | (s', .noError) =>
      ({ s' with fds := order.foldl (fun m file ↦ m.set file false) s'.fds }, .noError)
    | (s', e) => (s', e)

/-- `OnDataFileSealed`: upload the full file without waiting; the descriptor must be there. -/
def onDataFileSealed (s : CloudWrite β) (n : ℕ) : CloudWrite β :=
  match s.fds.get? (.data n) with
  | none => { s with crashed := true }
  | some _ =>
    match s.uploadFile (.data n) .task with
    | (s', .noError) =>
      { s' with
        fds := s'.fds.set (.data n) false
        tailFile := n + 1
        tailOffset := 0 }
    | (s', e) => { s' with result := some e }

end CloudWrite

/-! ### Events -/

/-- What happens during a write task. -/
inductive WriteEvent (β : Type*)
  /-- A merged range is put into the upload state. -/
  | prepare (data : List β)
  /-- Its file is opened and marked dirty, and the write submitted. -/
  | submit
  /-- The task goes on to the next data file. -/
  | switchFile
  | writeSegment (fileId i : ℕ) (b : β)
  | complete (file : LocalFile) (i : ℕ)
  | evict (file : LocalFile) (who : Uploader β)
  /-- This task evicts the descriptor of a dirty file of another partition. -/
  | evictForeign
  | commit (order : List LocalFile)

namespace WriteEvent

variable (s : CloudWrite β)

/-- What an event does while the task runs; `none` if it cannot happen. -/
def step : WriteEvent β → Option (CloudWrite β)
  | .prepare data =>
    if s.prepared.isNone ∧ 0 < data.length ∧ s.tailOffset + data.length ≤ s.pagesPerFile then
      some { s with
        prepared := some data
        upload :=
          if s.hasWriteBufferPool then
            s.upload.onFileRangeWritePrepared (.data s.tailFile) s.tailOffset data
          else s.upload }
    else none
  | .submit =>
    s.prepared.map fun data ↦
      { s with
        prepared := none
        fds := s.fds.set (.data s.tailFile) true
        content := writeRange s.content (.data s.tailFile) s.tailOffset data
        inflight := rangePages (.data s.tailFile) s.tailOffset data.length ++ s.inflight
        mapped := rangePages (.data s.tailFile) s.tailOffset data.length ++ s.mapped
        tailOffset := s.tailOffset + data.length
        lastAppendFileId := some s.tailFile }
  | .switchFile =>
    if s.prepared.isNone then
      some <|
        if s.hasWriteBufferPool ∧ s.lastAppendFileId = some s.tailFile then
          s.onDataFileSealed s.tailFile
        else { s with tailFile := s.tailFile + 1, tailOffset := 0 }
    else none
  | .writeSegment fileId i b =>
    if s.prepared.isNone then
      some { s with
        fds := s.fds.set (.segment fileId) true
        content := writeRange s.content (.segment fileId) i [b]
        mapped := (.segment fileId, i) :: s.mapped }
    else none
  | .complete file i => some { s with inflight := s.inflight.filter (· ≠ (file, i)) }
  | .evict file who =>
    -- a slot with a write in flight, or one that is being opened, has a reference
    if (∀ x ∈ s.inflight, x.1 ≠ file) ∧
        (who.isTask → s.prepared.isSome → file ≠ .data s.tailFile) then
      (s.fds.get? file).map fun dirty ↦
        if dirty then
          match s.uploadFile file who with
          | (s', .noError) => { s' with fds := s'.fds.erase file }
          | (s', _) => s'
        else { s with fds := s.fds.erase file }
    else none
  | .evictForeign =>
    -- a state in use is a mismatch, or sent for a file of the same name; it is reset all the same
    some (if s.upload.invalid ∨ s.upload.filename.isSome then s.resetUploadState else s)
  | .commit order =>
    if s.prepared.isNone ∧ order.Perm s.dirtyFiles then
      let (s', e) := { s with inflight := [] : CloudWrite β }.syncData order
      some { s' with result := some e }
    else none

/-- What an event does; nothing happens once the task has returned. -/
def run (e : WriteEvent β) : Option (CloudWrite β) :=
  if s.result = none ∧ s.crashed = false then e.step s else none

/-- **The condition on a step**:

* when the task goes on to the next data file, the descriptor of the full one is open;
* the task evicts no dirty descriptor but that of the buffered file while a range is buffered, and
  no other write task evicts one whose file has the name of the file it has buffered;
* the commit finds the buffered file first in the table of open files, or nothing dirty at all, and,
  without write buffers, one dirty data file at most. -/
def Clean : WriteEvent β → Prop
  | .switchFile => s.hasWriteBufferPool = true → s.lastAppendFileId = some s.tailFile →
    s.fds.get? (.data s.tailFile) ≠ none
  | .evict file .task => s.fds.get? file = some true → ∀ f ∈ s.upload.filename, f = file
  | .evict file (.writer u) => s.fds.get? file = some true → u.filename ≠ some file
  | .evictForeign => s.upload.filename = none
  | .commit order =>
    (∀ f ∈ s.upload.filename, ∀ file ∈ order.head?, f = file) ∧
      (s.hasWriteBufferPool = false → (order.filter (·.isData)).length ≤ 1)
  | _ => True

instance : (e : WriteEvent β) → Decidable (e.Clean s)
  | .switchFile => inferInstanceAs (Decidable (_ = _ → _ = _ → _ ≠ _))
  | .evict file .task => inferInstanceAs (Decidable (_ = _ → ∀ f ∈ s.upload.filename, f = file))
  | .evict _ (.writer _) => inferInstanceAs (Decidable (_ = _ → _ ≠ _))
  | .evictForeign => inferInstanceAs (Decidable (_ = _))
  | .commit order => inferInstanceAs
      (Decidable ((∀ f ∈ s.upload.filename, ∀ file ∈ order.head?, f = file) ∧ (_ = _ → _)))
  | .prepare _ | .submit | .writeSegment .. | .complete .. | .evict _ .reader =>
    inferInstanceAs (Decidable True)

end WriteEvent

theorem mem_rangePages {file g : LocalFile} {offset n i : ℕ} :
    (g, i) ∈ rangePages file offset n ↔ g = file ∧ offset ≤ i ∧ i < offset + n := by
  simp only [rangePages, List.mem_map, List.mem_range, Prod.mk.injEq]
  constructor
  · rintro ⟨k, hk, rfl, rfl⟩
    exact ⟨rfl, by omega, by omega⟩
  · rintro ⟨rfl, hle, hlt⟩
    exact ⟨i - offset, by omega, rfl, by omega⟩

variable {content : LocalFile → ℕ → β}

theorem writeRange_of_lt {file : LocalFile} {offset i : ℕ} (data : List β) (h : i < offset)
    (g : LocalFile) : writeRange content file offset data g i = content g i :=
  if_neg fun hi ↦ not_le.2 h hi.2

theorem writeRange_of_ne {file g : LocalFile} (h : g ≠ file) (offset : ℕ) (data : List β) (i : ℕ) :
    writeRange content file offset data g i = content g i :=
  if_neg fun hi ↦ h hi.1

theorem writeRange_getElem {file : LocalFile} {offset k : ℕ} {data : List β} {b : β}
    (h : data[k]? = some b) : writeRange content file offset data file (offset + k) = b := by
  rw [writeRange, if_pos ⟨rfl, Nat.le_add_right _ _⟩, Nat.add_sub_cancel_left,
    getD_eq_getElem?_getD, h, getD_some]

namespace CloudWrite

variable {s s' : CloudWrite β} {file : LocalFile}

/-- The range that is prepared and not submitted. -/
def pending (s : CloudWrite β) : List β := s.prepared.getD []

/-- **A file is buffered**: it is the tail data file, and the buffer has what the task wrote to it
since the range began, up to the range that is prepared. -/
structure Buffered (s : CloudWrite β) (file : LocalFile) : Prop where
  pool : s.hasWriteBufferPool = true
  tail : file = .data s.tailFile
  /-- The task has appended to it, or is about to. -/
  last : s.prepared = none → s.lastAppendFileId = some s.tailFile
  start_le : s.upload.startOffset ≤ s.tailOffset
  /-- It ends after the range that is prepared. -/
  end_eq : s.upload.endOffset = s.tailOffset + s.pending.length
  content : ∀ i, s.upload.startOffset ≤ i → i < s.tailOffset → s.upload.buffer i = s.content file i
  range : ∀ k b, s.pending[k]? = some b → s.upload.buffer (s.tailOffset + k) = b
  inflight : ∀ i, (file, i) ∈ s.inflight → s.upload.startOffset ≤ i

/-- **A write task in order.** -/
structure Ok (s : CloudWrite β) : Prop where
  valid : s.upload.invalid = false
  /-- The manifest maps no page behind the tail. -/
  mapped_lt : ∀ n i, (.data n, i) ∈ s.mapped → n < s.tailFile ∨ n = s.tailFile ∧ i < s.tailOffset
  inflight_le : ∀ x ∈ s.inflight, ∃ n, x.1 = .data n ∧ n ≤ s.tailFile
  /-- The object of a file that is not dirty has what the manifest maps of it. -/
  synced : ∀ file i, (file, i) ∈ s.mapped → s.fds.get? file ≠ some true →
    s.objects file i = s.content file i
  buffered : ∀ file, s.upload.filename = some file → s.Buffered file
  /-- Without one, nothing of the tail file is in flight. -/
  unbuffered : s.upload.filename = none → s.hasWriteBufferPool = true →
    s.prepared = none ∧ ∀ i, (.data s.tailFile, i) ∉ s.inflight
  dirty_data : s.hasWriteBufferPool = true → ∀ n, s.fds.get? (.data n) = some true →
    n = s.tailFile ∧ s.lastAppendFileId = some n
  room : s.tailOffset + s.pending.length ≤ s.pagesPerFile

theorem diskPage_of_idle (hnone : ∀ i, (file, i) ∉ s.inflight) (i : ℕ) :
    s.diskPage file i = s.content file i :=
  if_neg (hnone i)

/-- A file that is read from the disk, or from the buffer, has the pages the manifest maps. -/
theorem Ok.uploadFile_eq (h : s.Ok) (file : LocalFile) (hname : ∀ f ∈ s.upload.filename, f = file)
    (hidle : s.upload.filename = some file ∨ ∀ i, (file, i) ∉ s.inflight) :
    ∃ object, s.uploadFile file .task = ((s.putObject file object).resetUploadState, .noError) ∧
      ∀ i, (file, i) ∈ s.mapped → object i = s.content file i := by
  cases hfile : s.upload.filename with
  | none =>
    refine ⟨s.diskPage file, ?_, fun i _ ↦ diskPage_of_idle (hidle.resolve_left ?_) i⟩
    · simp only [uploadFile, sends, h.valid, hfile, Bool.false_eq_true, if_false]
    · exact fun hsome ↦ absurd (hfile.symm.trans hsome) nofun
  | some f =>
    obtain rfl := hname f hfile
    have hb := h.buffered f hfile
    have hsize : ¬ (s.upload.endOffset < s.upload.startOffset ∨
        s.pagesPerFile < s.upload.endOffset) := by
      have := hb.start_le
      have := hb.end_eq
      have := h.room
      omega
    refine ⟨fun i ↦ if i < s.upload.startOffset then s.diskPage f i else s.upload.buffer i,
      ?_, fun i hi ↦ ?_⟩
    · simp only [uploadFile, sends, h.valid, hfile, Bool.false_eq_true, if_false, ne_eq,
        not_true_eq_false, hsize]
    · dsimp only
      split
      · next hlt =>
        exact if_neg fun hmem ↦ not_le.2 hlt (hb.inflight i hmem)
      · next hge =>
        refine hb.content i (not_lt.1 hge) ?_
        rw [hb.tail] at hi
        obtain hlt | ⟨-, hlt⟩ := h.mapped_lt _ i hi
        · exact absurd hlt (lt_irrefl _)
        · exact hlt

/-- Another write task, with another file buffered or none, sends the file from the disk or nothing.
-/
theorem sends_of_ne {u : UploadState β} (hname : u.filename ≠ some file) :
    s.sends file u = .ok (s.diskPage file) ∨ ∃ e, e ≠ .noError ∧ s.sends file u = .error e := by
  unfold sends
  split
  · exact .inr ⟨_, by simp, rfl⟩
  · split
    · next f hf =>
      have hne : f ≠ file := fun heq ↦ hname (heq ▸ hf)
      exact .inr ⟨.corrupted, by simp, if_pos hne⟩
    · exact .inl rfl

/-- The upload state after a range has been prepared in order. -/
theorem Ok.onFileRangeWritePrepared_eq (h : s.Ok) (hpool : s.hasWriteBufferPool = true)
    (hnone : s.prepared = none) (data : List β) :
    ∃ start, s.upload.onFileRangeWritePrepared (.data s.tailFile) s.tailOffset data =
        { s.upload with filename := some (.data s.tailFile), startOffset := start }.extend
          s.tailOffset data ∧
      start ≤ s.tailOffset ∧
      (∀ i, start ≤ i → i < s.tailOffset → s.upload.buffer i = s.content (.data s.tailFile) i) ∧
      ∀ i, (.data s.tailFile, i) ∈ s.inflight → start ≤ i := by
  cases hfile : s.upload.filename with
  | none =>
    refine ⟨s.tailOffset, ?_, le_rfl, fun i hle hlt ↦ absurd hle (not_le.2 hlt), ?_⟩
    · simp only [UploadState.onFileRangeWritePrepared, h.valid, hfile, Bool.false_eq_true, if_false,
        UploadState.extend]
    · exact fun i hi ↦ absurd hi ((h.unbuffered hfile hpool).2 i)
  | some f =>
    have hb := h.buffered f hfile
    obtain rfl := hb.tail
    have hend : s.tailOffset = s.upload.endOffset := by
      rw [hb.end_eq, pending, hnone]
      rfl
    refine ⟨s.upload.startOffset, ?_, hb.start_le, hb.content, hb.inflight⟩
    simp only [UploadState.onFileRangeWritePrepared, h.valid, hfile, Bool.false_eq_true, if_false,
      ne_eq, not_true_eq_false, hend, UploadState.extend]

theorem Ok.prepare (h : s.Ok) {data : List β}
    (hstep : WriteEvent.step s (.prepare data) = some s') :
    s'.Ok := by
  obtain ⟨⟨hnone, -, hroom⟩, rfl⟩ := ite_some_none_eq_some.1 hstep
  have hnone := isNone_iff_eq_none.1 hnone
  by_cases hpool : s.hasWriteBufferPool = true
  · obtain ⟨start, heq, hle, hcontent, hinflight⟩ := h.onFileRangeWritePrepared_eq hpool hnone data
    rw [if_pos hpool, heq]
    exact
      { __ := h
        buffered := by
          intro f hf
          cases hf
          refine ⟨hpool, rfl, nofun, hle, rfl, fun i hi hlt ↦ ?_, fun k b hk ↦ ?_, hinflight⟩
          · exact (if_neg (not_le.2 hlt)).trans (hcontent i hi hlt)
          · simp only [UploadState.extend]
            rw [if_pos (Nat.le_add_right _ _), Nat.add_sub_cancel_left,
              getD_eq_getElem?_getD]
            exact congrArg (Option.getD · _) hk
        unbuffered := nofun
        room := hroom }
  · -- without write buffers the upload state is never used
    rw [if_neg hpool]
    exact
      { __ := h
        buffered := fun f hf ↦ absurd (h.buffered f hf).pool hpool
        unbuffered := fun _ hp ↦ absurd hp hpool
        room := hroom }

theorem Ok.submit (h : s.Ok) (hstep : WriteEvent.step s .submit = some s') : s'.Ok := by
  obtain ⟨data, hdata, rfl⟩ := map_eq_some_iff.1 hstep
  have hpending : s.pending = data := by rw [pending, hdata, getD_some]
  exact
    { valid := h.valid
      mapped_lt := by
        intro n i hi
        obtain hnew | hold := mem_append.1 hi
        · obtain ⟨hn, -, hlt⟩ := mem_rangePages.1 hnew
          exact .inr ⟨LocalFile.data.inj hn, hlt⟩
        · obtain hlt | ⟨hn, hlt⟩ := h.mapped_lt n i hold
          · exact .inl hlt
          · exact .inr ⟨hn, Nat.lt_add_right _ hlt⟩
      inflight_le := by
        rintro ⟨g, i⟩ hi
        obtain hnew | hold := mem_append.1 hi
        · exact ⟨s.tailFile, (mem_rangePages.1 hnew).1, le_rfl⟩
        · exact h.inflight_le _ hold
      synced := by
        intro g i hi hclean
        by_cases hg : g = .data s.tailFile
        · subst hg
          exact absurd (get?_set_self _ _ _) hclean
        · rw [get?_set_of_ne hg] at hclean
          obtain hnew | hold := mem_append.1 hi
          · exact absurd (mem_rangePages.1 hnew).1 hg
          · exact (h.synced g i hold hclean).trans (writeRange_of_ne hg _ _ _).symm
      buffered := by
        intro f hf
        have hb := h.buffered f hf
        obtain rfl := hb.tail
        refine ⟨hb.pool, rfl, fun _ ↦ rfl, Nat.le_add_right_of_le hb.start_le, ?_, ?_, nofun, ?_⟩
        · exact hb.end_eq.trans (by rw [hpending]; rfl)
        · intro i hi hlt
          obtain hold | hnew := Nat.lt_or_ge i s.tailOffset
          · exact (hb.content i hi hold).trans (writeRange_of_lt data hold _).symm
          · obtain ⟨k, rfl⟩ := Nat.exists_eq_add_of_le hnew
            have hk : k < data.length := Nat.lt_of_add_lt_add_left hlt
            have hget : data[k]? = some data[k] := getElem?_eq_getElem hk
            exact (hb.range k _ (hpending.symm ▸ hget)).trans (writeRange_getElem hget).symm
        · intro i hi
          obtain hnew | hold := mem_append.1 hi
          · exact hb.start_le.trans (mem_rangePages.1 hnew).2.1
          · exact hb.inflight i hold
      unbuffered := fun hf hp ↦ absurd (hdata.symm.trans (h.unbuffered hf hp).1) nofun
      dirty_data := by
        intro hp n hn
        by_cases hg : n = s.tailFile
        · exact ⟨hg, congrArg some hg.symm⟩
        · rw [get?_set_of_ne fun heq ↦ hg (LocalFile.data.inj heq)] at hn
          exact absurd (h.dirty_data hp n hn).1 hg
      room := by
        have := h.room
        rw [hpending] at this
        exact this }

variable {object : ℕ → β}

theorem Ok.synced_putObject (h : s.Ok) {fds : AssocMap LocalFile Bool}
    (hobject : ∀ i, (file, i) ∈ s.mapped → object i = s.content file i)
    (hfds : ∀ g, g ≠ file → fds.get? g = s.fds.get? g) (g : LocalFile) (i : ℕ)
    (hi : (g, i) ∈ s.mapped) (hclean : fds.get? g ≠ some true) :
    (s.putObject file object).objects g i = s.content g i := by
  by_cases hg : g = file
  · subst hg
    exact (congrFun (if_pos rfl) i).trans (hobject i hi)
  · rw [hfds g hg] at hclean
    exact (congrFun (if_neg hg) i).trans (h.synced g i hi hclean)

theorem Ok.mapped_lt_next (h : s.Ok) (n i : ℕ) (hi : (.data n, i) ∈ s.mapped) :
    n < s.tailFile + 1 ∨ n = s.tailFile + 1 ∧ i < 0 := by
  obtain hlt | ⟨rfl, -⟩ := h.mapped_lt n i hi
  · exact .inl (Nat.lt_succ_of_lt hlt)
  · exact .inl (Nat.lt_succ_self _)

theorem Ok.inflight_le_next (h : s.Ok) (x : LocalFile × ℕ) (hx : x ∈ s.inflight) :
    ∃ n, x.1 = .data n ∧ n ≤ s.tailFile + 1 := by
  obtain ⟨n, hn, hle⟩ := h.inflight_le x hx
  exact ⟨n, hn, Nat.le_succ_of_le hle⟩

theorem Ok.notMem_next (h : s.Ok) (i : ℕ) : (.data (s.tailFile + 1), i) ∉ s.inflight := by
  intro hi
  obtain ⟨n, hn, hle⟩ := h.inflight_le _ hi
  exact absurd hle (LocalFile.data.inj hn ▸ Nat.not_succ_le_self _)

theorem pending_of_none (hnone : s.prepared = none) : s.pending = [] := by
  rw [pending, hnone, getD_none]

theorem Ok.onDataFileSealed (h : s.Ok) (hnone : s.prepared = none)
    (hpool : s.hasWriteBufferPool = true) (hopen : s.fds.get? (.data s.tailFile) ≠ none) :
    (s.onDataFileSealed s.tailFile).Ok ∧
      (s.onDataFileSealed s.tailFile).result = s.result ∧
      (s.onDataFileSealed s.tailFile).crashed = s.crashed := by
  have hidle : s.upload.filename = some (.data s.tailFile) ∨
      ∀ i, (.data s.tailFile, i) ∉ s.inflight := by
    cases hfile : s.upload.filename with
    | none => exact .inr (h.unbuffered hfile hpool).2
    | some f => exact .inl (congrArg some (h.buffered f hfile).tail)
  obtain ⟨object, heq, hobject⟩ := h.uploadFile_eq (.data s.tailFile)
    (fun f hf ↦ (h.buffered f hf).tail) hidle
  obtain ⟨d, hd⟩ := ne_none_iff_exists'.1 hopen
  have hseal : s.onDataFileSealed s.tailFile =
      { s.putObject (.data s.tailFile) object with
        upload := s.upload.reset
        fds := s.fds.set (.data s.tailFile) false
        tailFile := s.tailFile + 1
        tailOffset := 0 } := by
    simp only [CloudWrite.onDataFileSealed, hd, heq]
    rfl
  rw [hseal]
  refine ⟨?_, rfl, rfl⟩
  exact
    { valid := rfl
      mapped_lt := h.mapped_lt_next
      inflight_le := h.inflight_le_next
      synced := fun g i hi hclean ↦
        h.synced_putObject hobject (fun _ hg ↦ get?_set_of_ne hg false) g i hi hclean
      buffered := fun f hf ↦ by cases hf
      unbuffered := fun _ _ ↦ ⟨hnone, h.notMem_next⟩
      dirty_data := fun hp n hn ↦ by
        by_cases hg : n = s.tailFile
        · rw [hg, get?_set_self] at hn
          cases hn
        · rw [get?_set_of_ne fun heq ↦ hg (LocalFile.data.inj heq)] at hn
          exact absurd (h.dirty_data hp n hn).1 hg
      room := by
        show 0 + s.pending.length ≤ s.pagesPerFile
        rw [pending_of_none hnone]
        exact Nat.zero_le _ }

/-- The next data file is begun by a task that has not appended to the tail. -/
theorem Ok.nextFile (h : s.Ok) (hnone : s.prepared = none)
    (hlast : s.hasWriteBufferPool = true → s.lastAppendFileId ≠ some s.tailFile) :
    Ok { s with tailFile := s.tailFile + 1, tailOffset := 0 } where
  __ := h
  mapped_lt := h.mapped_lt_next
  inflight_le := h.inflight_le_next
  buffered f hf := by
    have hb := h.buffered f hf
    exact absurd (hb.last hnone) (hlast hb.pool)
  unbuffered _ _ := ⟨hnone, h.notMem_next⟩
  dirty_data hp n hn := by
    obtain ⟨rfl, hl⟩ := h.dirty_data hp n hn
    exact absurd hl (hlast hp)
  room := by
    show 0 + s.pending.length ≤ s.pagesPerFile
    rw [pending_of_none hnone]
    exact Nat.zero_le _

theorem Ok.writeSegment (h : s.Ok) (fileId i : ℕ) (b : β) :
    Ok { s with
      fds := s.fds.set (.segment fileId) true
      content := writeRange s.content (.segment fileId) i [b]
      mapped := (.segment fileId, i) :: s.mapped } where
  __ := h
  mapped_lt n j hj := by
    obtain heq | hj := mem_cons.1 hj
    · exact absurd (congrArg Prod.fst heq) nofun
    · exact h.mapped_lt n j hj
  synced g j hj hclean := by
    by_cases hg : g = .segment fileId
    · rw [hg] at hclean
      exact absurd (get?_set_self _ _ _) hclean
    · rw [get?_set_of_ne hg] at hclean
      obtain heq | hj := mem_cons.1 hj
      · exact absurd (congrArg Prod.fst heq) hg
      · exact (h.synced g j hj hclean).trans (writeRange_of_ne hg _ _ _).symm
  buffered f hf := by
    have hb := h.buffered f hf
    have hne : f ≠ .segment fileId := hb.tail ▸ nofun
    exact ⟨hb.pool, hb.tail, hb.last, hb.start_le, hb.end_eq, fun j hj hlt ↦
      (hb.content j hj hlt).trans (writeRange_of_ne hne _ _ _).symm, hb.range, hb.inflight⟩
  dirty_data hp n hn := by
    have hne : LocalFile.data n ≠ .segment fileId := nofun
    rw [get?_set_of_ne hne] at hn
    exact h.dirty_data hp n hn

theorem Ok.completeWrites (h : s.Ok) {pages : List (LocalFile × ℕ)}
    (hsub : ∀ x ∈ pages, x ∈ s.inflight) : Ok { s with inflight := pages } where
  __ := h
  inflight_le x hx := h.inflight_le x (hsub x hx)
  buffered f hf := by
    have hb := h.buffered f hf
    exact ⟨hb.pool, hb.tail, hb.last, hb.start_le, hb.end_eq, hb.content, hb.range,
      fun i hi ↦ hb.inflight i (hsub _ hi)⟩
  unbuffered hf hp := by
    obtain ⟨hnone, hidle⟩ := h.unbuffered hf hp
    exact ⟨hnone, fun i hi ↦ hidle i (hsub _ hi)⟩

theorem Ok.eraseFd (h : s.Ok) (hclean : s.fds.get? file ≠ some true) :
    Ok { s with fds := s.fds.erase file } where
  __ := h
  synced g i hi hg := by
    refine h.synced g i hi fun hdirty ↦ ?_
    by_cases heq : g = file
    · exact hclean (heq ▸ hdirty)
    · exact hg ((get?_erase_of_ne heq).trans hdirty)
  buffered f hf := by
    have hb := h.buffered f hf
    exact ⟨hb.pool, hb.tail, hb.last, hb.start_le, hb.end_eq, hb.content, hb.range, hb.inflight⟩
  dirty_data hp n hn := by
    rw [get?_erase] at hn
    split at hn
    · cases hn
    · exact h.dirty_data hp n hn

theorem Ok.evictDirty (h : s.Ok) {u : UploadState β}
    (hobject : ∀ i, (file, i) ∈ s.mapped → object i = s.content file i)
    (hu : u = s.upload ∨ u = s.upload.reset ∧ (s.hasWriteBufferPool = true → s.prepared = none ∧
      ∀ i, (.data s.tailFile, i) ∉ s.inflight)) :
    Ok { s.putObject file object with upload := u, fds := s.fds.erase file } where
  valid := by
    obtain rfl | ⟨rfl, -⟩ := hu
    · exact h.valid
    · rfl
  __ := h
  synced := h.synced_putObject hobject fun _ hg ↦ get?_erase_of_ne hg
  buffered f hf := by
    obtain rfl | ⟨rfl, -⟩ := hu
    · have hb := h.buffered f hf
      exact ⟨hb.pool, hb.tail, hb.last, hb.start_le, hb.end_eq, hb.content, hb.range, hb.inflight⟩
    · cases hf
  unbuffered hf hp := by
    obtain rfl | ⟨rfl, hidle⟩ := hu
    · exact h.unbuffered hf hp
    · exact hidle hp
  dirty_data hp n hn := by
    rw [get?_erase] at hn
    split at hn
    · cases hn
    · exact h.dirty_data hp n hn

/-- The file of a descriptor that is evicted is uploaded as it is, or its slot stays. -/
theorem Ok.evict (h : s.Ok) {who : Uploader β} (hidle : ∀ x ∈ s.inflight, x.1 ≠ file)
    (hslot : who.isTask → s.prepared.isSome → file ≠ .data s.tailFile)
    (hdirty : s.fds.get? file = some true) (hclean : (WriteEvent.evict file who).Clean s) :
    (∃ s', s.uploadFile file who = (s', .noError) ∧ Ok { s' with fds := s'.fds.erase file } ∧
      s'.result = s.result ∧ s'.crashed = s.crashed) ∨
    ∃ e, e ≠ .noError ∧ s.uploadFile file who = (s, e) := by
  have hnone : ∀ i, (file, i) ∉ s.inflight := fun i hi ↦ hidle _ hi rfl
  cases who with
  | reader =>
    exact .inl ⟨_, rfl, h.evictDirty (fun i _ ↦ diskPage_of_idle hnone i) (.inl rfl), rfl, rfl⟩
  | writer u =>
    rcases sends_of_ne (s := s) (hclean hdirty) with hsend | ⟨e, hne, hsend⟩
    · refine .inl ⟨s.putObject file (s.diskPage file), by rw [uploadFile, hsend], ?_, rfl, rfl⟩
      exact h.evictDirty (fun i _ ↦ diskPage_of_idle hnone i) (.inl rfl)
    · exact .inr ⟨e, hne, by rw [uploadFile, hsend]⟩
  | task =>
    have hname := hclean hdirty
    obtain ⟨object, heq, hobject⟩ := h.uploadFile_eq file hname (.inr hnone)
    refine .inl ⟨_, heq, h.evictDirty hobject (.inr ⟨rfl, fun hpool ↦ ?_⟩), rfl, rfl⟩
    cases hfile : s.upload.filename with
    | none => exact h.unbuffered hfile hpool
    | some f =>
      -- the buffered file itself, whose slot nobody holds
      obtain rfl := hname f hfile
      have htail := (h.buffered f hfile).tail
      refine ⟨?_, fun i hi ↦ hidle _ hi htail.symm⟩
      cases hprep : s.prepared with
      | none => rfl
      | some data => exact absurd htail (hslot rfl (by rw [hprep]; rfl))

/-! ### The commit -/

/-- **What an upload of files does**: their objects have the pages the manifest maps, and the others
are left as they are. -/
structure Uploads (s s' : CloudWrite β) (files : List LocalFile) : Prop where
  content : s'.content = s.content
  mapped : s'.mapped = s.mapped
  crashed : s'.crashed = s.crashed
  object : ∀ g i, (g, i) ∈ s.mapped → g ∈ files ∨ s.objects g i = s.content g i →
    s'.objects g i = s.content g i

theorem Uploads.cons {s₁ : CloudWrite β} {files : List LocalFile}
    (hobject : ∀ i, (file, i) ∈ s.mapped → object i = s.content file i)
    (h₁ : s₁ = (s.putObject file object).resetUploadState) (h : Uploads s₁ s' files) :
    Uploads s s' (file :: files) where
  content := h.content.trans (by rw [h₁]; rfl)
  mapped := h.mapped.trans (by rw [h₁]; rfl)
  crashed := h.crashed.trans (by rw [h₁]; rfl)
  object g i hi hg := by
    subst h₁
    refine h.object g i hi ?_
    by_cases heq : g = file
    · subst heq
      exact .inr ((congrFun (if_pos rfl) i).trans (hobject i hi))
    · obtain hmem | hold := hg
      · exact .inl ((mem_cons.1 hmem).resolve_left heq)
      · exact .inr ((congrFun (if_neg heq) i).trans hold)

/-- Without a buffered file every file is read from the disk. -/
theorem uploadFiles_of_none (hvalid : s.upload.invalid = false) (hfile : s.upload.filename = none)
    (hidle : s.inflight = []) (files : List LocalFile) :
    ∃ s', s.uploadFiles files = (s', .noError) ∧ Uploads s s' files := by
  induction files generalizing s with
  | nil => exact ⟨s, rfl, rfl, rfl, rfl, fun g i _ hg ↦ hg.resolve_left not_mem_nil⟩
  | cons file files ih =>
    have hupload : s.uploadFile file .task =
        ((s.putObject file (s.diskPage file)).resetUploadState, .noError) := by
      simp only [uploadFile, sends, hvalid, hfile, Bool.false_eq_true, if_false]
    obtain ⟨s', hs', hu⟩ := ih (s := (s.putObject file (s.diskPage file)).resetUploadState)
      rfl rfl hidle
    refine ⟨s', ?_, hu.cons (fun i _ ↦ ?_) rfl⟩
    · rw [uploadFiles, hupload]
      exact hs'
    · rw [diskPage, hidle, if_neg not_mem_nil]

theorem Ok.uploadFiles_eq (h : s.Ok) (hidle : s.inflight = []) {files : List LocalFile}
    (hfirst : ∀ f ∈ s.upload.filename, ∀ file ∈ files.head?, f = file) :
    ∃ s', s.uploadFiles files = (s', .noError) ∧ Uploads s s' files := by
  cases files with
  | nil => exact ⟨s, rfl, rfl, rfl, rfl, fun g i _ hg ↦ hg.resolve_left not_mem_nil⟩
  | cons file files =>
    obtain ⟨object, heq, hobject⟩ := h.uploadFile_eq file
      (fun f hf ↦ hfirst f hf file rfl) (.inr fun i hi ↦ by simp [hidle] at hi)
    obtain ⟨s', hs', hu⟩ := uploadFiles_of_none (s := (s.putObject file object).resetUploadState)
      rfl rfl hidle files
    refine ⟨s', ?_, hu.cons hobject rfl⟩
    rw [uploadFiles, heq]
    exact hs'

theorem mem_dirtyFiles : file ∈ s.dirtyFiles ↔ s.fds.get? file = some true := by
  simp only [dirtyFiles, List.mem_map, List.mem_filter]
  constructor
  · rintro ⟨x, ⟨hx, hdirty⟩, rfl⟩
    exact (lookup_of_mem s.fds.nodup hx).trans (congrArg some hdirty)
  · exact fun hdirty ↦ ⟨(file, true), ⟨mem_of_lookup hdirty, rfl⟩, rfl⟩

theorem nodup_dirtyFiles (s : CloudWrite β) : s.dirtyFiles.Nodup :=
  s.fds.nodup.sublist (filter_sublist.map _)

/-- With write buffers one data file at most is dirty. -/
theorem Ok.length_isData_le (h : s.Ok) (hpool : s.hasWriteBufferPool = true)
    {order : List LocalFile} (horder : order.Perm s.dirtyFiles) :
    (order.filter (·.isData)).length ≤ 1 := by
  have htail : ∀ g ∈ order.filter (·.isData), g = .data s.tailFile := by
    intro g hg
    obtain ⟨hg, hdata⟩ := mem_filter.1 hg
    have hdirty := mem_dirtyFiles.1 (horder.mem_iff.1 hg)
    cases g with
    | data n => exact congrArg _ (h.dirty_data hpool n hdirty).1
    | manifest | archive | segment => exact absurd hdata nofun
  have hnodup := (horder.nodup_iff.2 s.nodup_dirtyFiles).sublist
    (filter_sublist (p := (·.isData)))
  rw [eq_replicate_of_mem htail] at hnodup
  exact nodup_replicate.1 hnodup

/-- **The commit of a task in order.** -/
theorem Ok.syncData_eq (h : s.Ok) (hidle : s.inflight = []) {order : List LocalFile}
    (horder : order.Perm s.dirtyFiles)
    (hfirst : ∀ f ∈ s.upload.filename, ∀ file ∈ order.head?, f = file)
    (hone : s.hasWriteBufferPool = false → (order.filter (·.isData)).length ≤ 1) :
    ∃ s', s.syncData order = (s', .noError) ∧ s'.crashed = s.crashed ∧
      ∀ g i, (g, i) ∈ s'.mapped → s'.objects g i = s'.content g i := by
  have hle : ¬ 1 < (order.filter (·.isData)).length := by
    refine not_lt.2 ?_
    cases hpool : s.hasWriteBufferPool with
    | true => exact h.length_isData_le hpool horder
    | false => exact hone hpool
  obtain ⟨s', hs', hu⟩ := h.uploadFiles_eq hidle hfirst
  refine ⟨{ s' with fds := order.foldl (fun m file ↦ m.set file false) s'.fds }, ?_, hu.crashed,
    fun g i hi ↦ ?_⟩
  · simp only [syncData, hle, if_false, hs']
  · have hmapped : (g, i) ∈ s.mapped := hu.mapped ▸ hi
    rw [hu.content]
    refine hu.object g i hmapped ?_
    by_cases hdirty : s.fds.get? g = some true
    · exact .inl (horder.mem_iff.2 (mem_dirtyFiles.2 hdirty))
    · exact .inr (h.synced g i hmapped hdirty)

/-! ### Runs -/

/-- A write task begins: nothing is dirty or in flight, and the objects have what the manifest
maps. -/
structure Start (s : CloudWrite β) : Prop where
  upload : s.upload = s.upload.reset
  prepared : s.prepared = none
  inflight : s.inflight = []
  fds : ∀ file, s.fds.get? file ≠ some true
  /-- The manifest maps no page behind the tail. -/
  mapped_lt : ∀ n i, (.data n, i) ∈ s.mapped → n < s.tailFile ∨ n = s.tailFile ∧ i < s.tailOffset
  room : s.tailOffset ≤ s.pagesPerFile
  synced : ∀ file i, (file, i) ∈ s.mapped → s.objects file i = s.content file i
  result : s.result = none
  crashed : s.crashed = false

theorem Start.ok (h : s.Start) : s.Ok where
  valid := by rw [h.upload]; rfl
  mapped_lt := h.mapped_lt
  inflight_le x hx := by simp [h.inflight] at hx
  synced file i hi _ := h.synced file i hi
  buffered file hf := by
    rw [h.upload] at hf
    exact absurd hf nofun
  unbuffered _ _ := ⟨h.prepared, fun i hi ↦ by simp [h.inflight] at hi⟩
  dirty_data _ n hn := absurd hn (h.fds _)
  room := by
    rw [pending_of_none h.prepared]
    exact h.room

/-- **What a write task comes to**: it never uses a descriptor that is not there, and when it has
committed, it returns `NoError` and every object has the local bytes of every page that the manifest
is going to map. -/
structure Sound (s : CloudWrite β) : Prop where
  crashed : s.crashed = false
  /-- The commit returned `NoError`. -/
  result : ∀ e, s.result = some e → e = .noError
  object : s.result ≠ none → ∀ file i, (file, i) ∈ s.mapped → s.objects file i = s.content file i

/-- The invariant of a run. -/
structure Going (s : CloudWrite β) : Prop extends Sound s where
  /-- A task that has not returned is in order. -/
  ok : s.result = none → s.Ok

theorem Going.of_ok (h : s.Ok) (hresult : s.result = none) (hcrashed : s.crashed = false) :
    s.Going where
  crashed := hcrashed
  result _ he := absurd (hresult.symm.trans he) nofun
  object hne := absurd hresult hne
  ok _ := h

theorem Going.event (h : s.Going) {e : WriteEvent β} (hclean : e.Clean s)
    (hstep : e.run s = some s') : s'.Going := by
  obtain ⟨⟨hresult, hcrashed⟩, hstep⟩ := ite_none_right_eq_some.1 hstep
  have hok := h.ok hresult
  cases e with
  | prepare data =>
    have hok' := hok.prepare hstep
    obtain ⟨-, rfl⟩ := ite_some_none_eq_some.1 hstep
    exact .of_ok hok' hresult hcrashed
  | submit =>
    have hok' := hok.submit hstep
    obtain ⟨data, -, rfl⟩ := map_eq_some_iff.1 hstep
    exact .of_ok hok' hresult hcrashed
  | switchFile =>
    obtain ⟨hnone, rfl⟩ := ite_some_none_eq_some.1 hstep
    have hnone := isNone_iff_eq_none.1 hnone
    split
    · next hseal =>
      obtain ⟨hok', hres, hcr⟩ := hok.onDataFileSealed hnone hseal.1 (hclean hseal.1 hseal.2)
      exact .of_ok hok' (hres.trans hresult) (hcr.trans hcrashed)
    · next hkeep =>
      exact .of_ok (hok.nextFile hnone fun hpool hlast ↦ hkeep ⟨hpool, hlast⟩) hresult hcrashed
  | writeSegment fileId i b =>
    obtain ⟨-, rfl⟩ := ite_some_none_eq_some.1 hstep
    exact .of_ok (hok.writeSegment fileId i b) hresult hcrashed
  | complete file i =>
    cases hstep
    exact .of_ok (hok.completeWrites fun x hx ↦ (mem_filter.1 hx).1) hresult hcrashed
  | evict file who =>
    obtain ⟨⟨hidle, hslot⟩, hstep⟩ := ite_none_right_eq_some.1 hstep
    obtain ⟨dirty, hfd, rfl⟩ := map_eq_some_iff.1 hstep
    cases dirty with
    | true =>
      rcases hok.evict hidle hslot hfd hclean with ⟨t, heq, ht, hres, hcr⟩ | ⟨e, hne, heq⟩
      · simp only [heq, if_true]
        exact .of_ok ht (hres.trans hresult) (hcr.trans hcrashed)
      · simp only [heq, if_true]
        exact h
    | false =>
      exact .of_ok (hok.eraseFd (hfd ▸ nofun)) hresult hcrashed
  | evictForeign =>
    cases hstep
    rw [if_neg (by rw [hok.valid, show s.upload.filename = none from hclean]; simp)]
    exact h
  | commit order =>
    simp only [WriteEvent.step] at hstep
    obtain ⟨⟨-, horder⟩, hstep⟩ := ite_none_right_eq_some.1 hstep
    have hdone : Ok { s with inflight := [] } := hok.completeWrites nofun
    obtain ⟨t, heq, hcr, hobject⟩ := hdone.syncData_eq rfl horder hclean.1 hclean.2
    obtain rfl : { t with result := some .noError } = s' := by
      rw [heq] at hstep
      exact some.inj hstep
    exact
      { crashed := hcr.trans hcrashed
        result := fun e he ↦ (some.inj he).symm
        object := fun _ ↦ hobject
        ok := nofun }

end CloudWrite

end EloqStore
