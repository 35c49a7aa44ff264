import EloqStore.Foundation.ByteCodec
import EloqStore.Partition.CreateBranch

/-!
# Values compressed with a dictionary

A batch write may train a dictionary, once in the life of a partition, and compresses the values it
writes with it. The dictionary is part of the compression object that the write shares with the
published root, so it is there before the commit and stays after an abort; it reaches the disk with
the next manifest that is written as a snapshot, and is loaded from there with the root.

A value that was compressed with a dictionary has to find **the same one** whenever it is read
(`ValueStore.read`): before and after a commit, after the root has been evicted and loaded again,
after a restart, and on a branch that was forked. The invariant (`ValueStore.Ok`) follows the
dictionary through all of these.

The code loses it in one case. When training fails, the *empty* dictionary is used like any other
one, but a manifest with an empty dictionary loads to a compression object without any
(`RootMeta.ofReplayer`), and what was compressed with it can no longer be read. If every training
gives a dictionary, every value is read as it was written (`ValueStore.reads_of_trained`).
-/

namespace EloqStore

open List Option EloqStore.Partition RootMeta Transition WriteTask

open ByteCodec

/-! ### Compression -/

/-- The compression library. Dictionary compression is undone by decompression with the same
dictionary. -/
structure Zstd where
  compress : List UInt8 → List UInt8 → Option (List UInt8)
  decompress : List UInt8 → List UInt8 → Option (List UInt8)
  compressRaw : List UInt8 → Option (List UInt8)
  decompressRaw : List UInt8 → Option (List UInt8)
  decompress_compress : ∀ {d v w}, compress d v = some w → decompress d w = some v

/-- Values shorter than this are not compressed. -/
def kSkipCompressionThreshold : ℕ := 100

/-- Values longer than this are compressed without the dictionary. -/
def kStandaloneCompressionThreshold : ℕ := 10 * 1024 * 1024

/-- The length of a value before what it was compressed to; nothing if that is not shorter. -/
def frame (v : List UInt8) (out : Option (List UInt8)) : Option (List UInt8) :=
  out.bind fun w ↦
    if w.length = 0 ∨ v.length ≤ w.length then none
    else some (varint 5 (v.length % 2 ^ 32) ++ w)

/-- Read the length, decompress the rest, and compare. -/
def unframe (decode : List UInt8 → Option (List UInt8)) (data : List UInt8) :
    Option (List UInt8) :=
  (readVarint 32 5 0 0 data).bind fun x ↦ (decode x.2).filter (·.length = x.1)

theorem unframe_frame {decode : List UInt8 → Option (List UInt8)} {v data : List UInt8}
    {out : Option (List UInt8)} (hv : v.length < 2 ^ 32) (hdecode : ∀ w ∈ out, decode w = some v)
    (h : frame v out = some data) : unframe decode data = some v := by
  obtain ⟨w, hw, h⟩ := bind_eq_some_iff.1 h
  obtain ⟨-, hdata⟩ := ite_none_left_eq_some.1 h
  cases hdata
  rw [unframe, Nat.mod_eq_of_lt hv, readVarint_varint (by decide) (by decide) hv, bind_some,
    hdecode w hw]
  simp

namespace DictCompression

def compress (z : Zstd) (c : DictCompression) (v : List UInt8) : Option (List UInt8) :=
  if c.hasDictionary = false ∨ v = [] then none else frame v (z.compress c.dictionary v)

/-- Decompress a value. Without a dictionary there is no context to do it with. -/
def decompress (z : Zstd) (c : DictCompression) (data : List UInt8) : Option (List UInt8) :=
  if c.hasDictionary then unframe (z.decompress c.dictionary) data else none

end DictCompression

/-- A value in a data page. What was written, and the dictionary in use then, are kept beside the
stored bytes. -/
structure StoredValue where
  data : List UInt8
  kind : CompressionType
  written : List UInt8
  dictionary : List UInt8
deriving DecidableEq, Repr

/-- **`Prepare`**, which is not called when compression is off. -/
def prepare (z : Zstd) (enableCompression : Bool) (c : DictCompression) (v : List UInt8) :
    StoredValue :=
  let plain : StoredValue := ⟨v, .none, v, c.dictionary⟩
  if enableCompression = false ∨ v.length < kSkipCompressionThreshold then plain
  else if kStandaloneCompressionThreshold < v.length then
    match frame v (z.compressRaw v) with
    | some data => ⟨data, .standalone, v, c.dictionary⟩
    | none => plain
  else if c.hasDictionary then
    match c.compress z v with
    | some data => ⟨data, .dictionary, v, c.dictionary⟩
    | none => plain
  else plain

namespace StoredValue

variable (z : Zstd) (v : StoredValue)

/-- With the dictionary it was compressed with, the value is read as it was written. -/
def Made : Prop :=
  ∀ c : DictCompression, c.hasDictionary = true → c.dictionary = v.dictionary →
    c.decompress z v.data = some v.written

/-- A compression object has the dictionary of the value. -/
def Under (c : DictCompression) : Prop :=
  v.kind = .dictionary → c.hasDictionary = true ∧ c.dictionary = v.dictionary ∧ v.Made z

/-- The manifest has the dictionary of the value, **which is not empty**. -/
def StoredIn (manifest : Option Manifest) : Prop :=
  v.kind = .dictionary →
    ∃ m, manifest = some m ∧ (replay m).dictBytes = v.dictionary ∧ v.dictionary ≠ [] ∧ v.Made z

end StoredValue

/-- **A value that is written with a dictionary is read with it.** -/
theorem prepare_under (z : Zstd) (enable : Bool) (c : DictCompression) (v : List UInt8) :
    (prepare z enable c v).Under z c := by
  unfold prepare
  split
  · exact fun h ↦ absurd h (by simp)
  · split
    · split <;> exact fun h ↦ absurd h (by simp)
    · next hlen =>
      split
      · next hdict =>
        split
        · next data hdata =>
          refine fun _ ↦ ⟨hdict, rfl, fun d hd heq ↦ ?_⟩
          obtain ⟨-, hframe⟩ := ite_none_left_eq_some.1 hdata
          rw [DictCompression.decompress, if_pos hd, heq]
          have hshort : v.length < 2 ^ 32 := by
            rw [kStandaloneCompressionThreshold] at hlen
            omega
          exact unframe_frame hshort (fun w hw ↦ z.decompress_compress hw) hframe
        · exact fun h ↦ absurd h (by simp)
      · exact fun h ↦ absurd h (by simp)

/-! ### The store -/

/-- A branch on disk that is not the active one. -/
structure StoredBranch where
  name : BranchName
  manifest : Manifest
  values : List StoredValue

/-- A partition with the values its trees hold. -/
structure ValueStore where
  part : Partition
  tree : List StoredValue := []
  /-- The values of the trees it has replaced since the entry was loaded: a reader may still be in
  one of them. -/
  older : List StoredValue := []
  /-- The values of the tree the running task is making. -/
  pending : List StoredValue := []
  /-- The values of the tree the manifest leads to. -/
  durable : List StoredValue := []
  others : List StoredBranch := []

/-- What happens to it. -/
inductive ValueEvent
  | start
  /-- It takes a step; training a dictionary is one. -/
  | step (a : TaskStep)
  /-- It puts a value into a page it has allocated. -/
  | put (v : List UInt8) (enableCompression : Bool)
  /-- It leaves a value out of a page it has allocated. -/
  | remove (k : ℕ)
  | commit
  | abort (manifestWritten : Bool)
  | evict
  | fork (child : BranchName)
  | restart (branch : BranchName) (term : ℕ)
deriving DecidableEq, Repr

namespace ValueStore

/-- A partition that has never been written. -/
def fresh (branch : BranchName) (term : ℕ) : ValueStore := { part := .fresh branch term }

variable (opts : KvOptions) (s : ValueStore)

/-- **What a read of a value gives**: it is decompressed with the compression object of the entry.
-/
def read (z : Zstd) (v : StoredValue) : Option (List UInt8) :=
  match v.kind with
  | .none => some v.data
  | .dictionary => ((s.part.entry.bind (·.compression)).getD {}).decompress z v.data
  | .standalone => unframe z.decompressRaw v.data

/-- Find the root, loading it if it is not cached. -/
def findRoot : ValueStore :=
  match s.part.entry, s.part.manifest with
  | none, some m => { s with part := s.part.loadMeta opts m, tree := s.durable, older := [] }
  | _, _ => s

/-- The manifest of a branch is written. -/
def setBranch (child : BranchName) (m : Manifest) (values : List StoredValue) : ValueStore :=
  if child = s.part.activeBranch then
    { s with part := { s.part with manifest := some m }, durable := values }
  else { s with others := ⟨child, m, values⟩ :: s.others.filter (·.name ≠ child) }

def branches : List StoredBranch :=
  match s.part.manifest with
  | none => s.others
  | some m => ⟨s.part.activeBranch, m, s.durable⟩ :: s.others

end ValueStore

/-- A flush of the task writes nothing. -/
def WriteTask.flushSkips (t : WriteTask) : Bool :=
  t.walBuilder.isEmpty && !Partition.needEmptySnapshot t

def ValueEvent.run (z : Zstd) (opts : KvOptions) (s : ValueStore) : ValueEvent → Option ValueStore
  | .start =>
    if s.part.task.isSome then none
    else
      let y := s.findRoot opts
      some { y with part := y.part.makeCowRoot opts, pending := y.tree }
  | .step a => (s.part.taskStep opts a).toOption.map fun part ↦ { s with part := part }
  | .put v enableCompression =>
    s.part.task.bind fun t ↦
      if t.walBuilder = [] then none
      else
        let x := prepare z enableCompression (s.part.compressionOf t) v
        some { s with pending := x :: s.pending }
  | .remove k =>
    s.part.task.bind fun t ↦
      if t.walBuilder = [] then none else some { s with pending := s.pending.eraseIdx k }
  | .commit =>
    s.part.task.bind fun t ↦
      if t.reserved = [] then
        some { s with
          part := s.part.updateMeta opts t
          tree := s.pending
          older := s.tree ++ s.older
          durable := if t.flushSkips then s.durable else s.pending
          pending := [] }
      else none
  | .abort manifestWritten =>
    s.part.task.bind fun t ↦
      if manifestWritten ∧ t.flushSkips = false then
        some { s with
          part := { s.part.abort with manifest := (s.part.flushManifest opts t).manifest }
          durable := s.pending
          pending := [] }
      else some { s with part := s.part.abort, pending := [] }
  | .evict =>
    if s.part.task.isSome then none
    else some { s with part := { s.part with entry := none }, tree := [], older := [] }
  | .fork child =>
    if s.part.task.isSome then none
    else
      let y := s.findRoot opts
      match y.part.branchManifest opts child y.part.branchFileMapping with
      | none => some y
      | some m => some (y.setBranch child m y.tree)
  | .restart branch term =>
    let found := s.branches.find? (·.name = branch)
    some
      { part := .ofBranch branch term (found.map (·.manifest))
        durable := (found.map (·.values)).getD []
        others := s.branches.filter (·.name ≠ branch) }

/-- The runs of a partition with its values. -/
abbrev ValueRuns (z : Zstd) (opts : KvOptions) (G : ValueStore → ValueEvent → Prop) :
    ValueStore → ValueStore → Prop :=
  Transition.Reach (fun s e t ↦ e.run z opts s = some t) G

/-- **The condition on events**: a training gives a dictionary. -/
def ValueEvent.Trained : ValueEvent → Prop
  | .step (.buildDictionary bytes) => bytes ≠ []
  | _ => True

instance : DecidablePred ValueEvent.Trained := by
  intro e
  cases e with
  | step a => cases a <;> unfold ValueEvent.Trained <;> infer_instance
  | _ => exact .isTrue trivial

/-! ### The dictionary of a partition -/

/-- A dictionary is not empty, and is on disk unless it is dirty. -/
def DictCompression.DictOk (manifest : Option Manifest) (c : DictCompression) : Prop :=
  c.hasDictionary = true → c.dictionary ≠ [] ∧
    (c.dirty = false → ∃ m, manifest = some m ∧ (replay m).dictBytes = c.dictionary)

namespace Partition

variable {opts : KvOptions} {s : Partition} {t : WriteTask}

/-- **What a flush leaves on disk** has the dictionary of the task, if anything was written or the
dictionary was on disk already. -/
theorem dictBytes_flushManifest (opts : KvOptions) (hok : (s.compressionOf t).DictOk s.manifest)
    (hdict : (s.compressionOf t).hasDictionary = true)
    (hwrites : t.flushSkips = false ∨ (s.compressionOf t).dirty = false) :
    ∃ m, (s.flushManifest opts t).manifest = some m ∧
      (replay m).dictBytes = (s.compressionOf t).dictionary := by
  have hswitch : ∃ m, (s.switchManifest t).manifest = some m ∧
      (replay m).dictBytes = (s.compressionOf t).dictionary := by
    refine ⟨⟨s.snapshotOf t, []⟩, ?_, if_pos hdict⟩
    rw [switchManifest, setCompression_manifest]
  unfold flushManifest
  split
  · next hskip =>
    -- nothing is written, so the dictionary was on disk
    have hclean := hwrites.resolve_left (by rw [flushSkips, hskip]; simp)
    exact (hok hdict).2 hclean
  · split
    · exact hswitch
    · split
      · next happend =>
        simp only [Bool.and_eq_true, Bool.not_eq_true', decide_eq_true_eq] at happend
        obtain ⟨m, hm, hbytes⟩ := (hok hdict).2 happend.1.1
        refine ⟨{ m with logs := m.logs ++ [s.logOf t] }, by simp [appendManifest, hm], ?_⟩
        rw [replay_append]
        exact hbytes
      · exact hswitch

/-- The compression object after a flush is what it was, no longer dirty if it was written. -/
theorem compression_flushManifest (opts : KvOptions) (ht : s.task = some t) (he : s.entry.isSome) :
    ∃ t' d, (s.flushManifest opts t).task = some t' ∧ (s.flushManifest opts t).entry.isSome ∧
      (s.flushManifest opts t).compressionOf t' = { s.compressionOf t with dirty := d } ∧
      (d = false → t.flushSkips = false ∨ (s.compressionOf t).dirty = false) := by
  have hswitch : ∃ t', (s.switchManifest t).task = some t' ∧ (s.switchManifest t).entry.isSome ∧
      (s.switchManifest t).compressionOf t' = { s.compressionOf t with dirty := false } := by
    let y : Partition :=
      { s with
        manifest := some ⟨s.snapshotOf t, []⟩
        task := some (flushed t (s.snapshotOf t).size) }
    have hy : y.task = some (flushed t (s.snapshotOf t).size) := rfl
    obtain ⟨t', ht', hcomp, -, -, -, -, -, -, hentry, -⟩ :=
      setCompression_spec (c := { s.compressionOf t with dirty := false }) hy he
    exact ⟨t', ht', hentry, hcomp⟩
  unfold flushManifest
  split
  · exact ⟨t, _, ht, he, rfl, .inr⟩
  · next hskip =>
    have hwrites : t.flushSkips = false := by simpa [flushSkips] using hskip
    split
    · obtain ⟨t', ht', hentry, hcomp⟩ := hswitch
      exact ⟨t', false, ht', hentry, hcomp, fun _ ↦ .inl hwrites⟩
    · split
      · exact ⟨_, _, rfl, he, compressionOf_congr rfl rfl, .inr⟩
      · obtain ⟨t', ht', hentry, hcomp⟩ := hswitch
        exact ⟨t', false, ht', hentry, hcomp, fun _ ↦ .inl hwrites⟩

theorem compression_updateRoot (opts : KvOptions) (t : WriteTask) (he : s.entry.isSome) :
    ∃ root, (s.updateRoot opts t).entry = some root ∧ root.mapper.isSome ∧
      root.compression.getD {} = s.compressionOf t := by
  obtain ⟨root, hroot⟩ := isSome_iff_exists.1 he
  refine ⟨_, by rw [updateRoot, hroot]; rfl, rfl, ?_⟩
  cases hown : t.cow.ownCompression <;> simp [compressionOf, hown, hroot]

/-- **The compression object after a commit** is the task's, no longer dirty if it was written. -/
theorem compression_updateMeta (opts : KvOptions) (ht : s.task = some t) (he : s.entry.isSome) :
    ∃ root d, (s.updateMeta opts t).entry = some root ∧ root.mapper.isSome ∧
      root.compression.getD {} = { s.compressionOf t with dirty := d } ∧
      (d = false → t.flushSkips = false ∨ (s.compressionOf t).dirty = false) ∧
      (s.updateMeta opts t).task = none ∧
      (s.updateMeta opts t).manifest = (s.flushManifest opts t).manifest := by
  obtain ⟨t', d, ht', hentry, hcomp, hd⟩ := compression_flushManifest opts ht he
  obtain ⟨root, hroot, hmapper, hpub⟩ := compression_updateRoot opts t' hentry
  have hmeta : s.updateMeta opts t = (s.flushManifest opts t).updateRoot opts t' := by
    rw [updateMeta]
    simp only [ht']
  rw [hmeta]
  exact ⟨root, d, hroot, hmapper, hpub.trans hcomp, hd, rfl, rfl⟩

/-- **A step of a task** other than a training keeps the entry, the compression object and the list
of changes, or adds to it. -/
theorem compression_taskStep {s' : Partition} {a : TaskStep} (ht : s.task = some t)
    (ha : ∀ bytes, a ≠ .buildDictionary bytes) (h : s.taskStep opts a = .ok s') :
    ∃ t', s'.task = some t' ∧ s'.entry = s.entry ∧ s'.manifest = s.manifest ∧
      t'.cow.ownCompression = t.cow.ownCompression ∧ (t'.walBuilder = [] → t.walBuilder = []) := by
  obtain ⟨t', ht', hc⟩ := taskStep_change ht h
  obtain ⟨hentry, hown⟩ := hc.compression ha
  refine ⟨t', ht', hentry, hc.manifest, hown, fun hwal ↦ ?_⟩
  cases hc.data with
  | same _ hw => exact hw.symm.trans hwal
  | getPage heq | updateStat _ _ _ heq =>
    subst heq
    exact hwal
  | allocatePage _ _ hw => exact absurd (hw.symm.trans hwal) (by simp)
  | freePage _ heq => simp [heq, freePage] at hwal

end Partition

/-! ### The invariant -/

namespace ValueStore

/-- The compression object of the cached root is the one the published values need. -/
structure RootOk (z : Zstd) (s : ValueStore) (root : RootMeta) : Prop where
  dict : (root.compression.getD {}).DictOk s.part.manifest
  visible : ∀ v, v ∈ s.tree ∨ v ∈ s.older → v.Under z (root.compression.getD {})
  stub : root.mapper = none → (root.compression.getD {}).hasDictionary = false

/-- **A running task.** -/
structure TaskOk (z : Zstd) (s : ValueStore) (t : WriteTask) : Prop where
  entry : s.part.entry.isSome
  /-- Its values are under its compression object. -/
  pending : ∀ v ∈ s.pending, v.Under z (s.part.compressionOf t)
  /-- A compression object of its own is that of a partition without a mapper. -/
  own : ∀ c, t.cow.ownCompression = some c →
    c.DictOk s.part.manifest ∧ s.part.entry.bind (·.mapper) = none
  /-- The published one is shared only if there is a mapper. -/
  shared : t.cow.ownCompression = none → s.part.entry.bind (·.mapper) ≠ none
  /-- A task that has changed no page has changed no value. -/
  unchanged : t.walBuilder = [] → s.pending = s.tree

/-- **Every value finds its dictionary.** -/
structure Ok (z : Zstd) (s : ValueStore) : Prop where
  root : ∀ root, s.part.entry = some root → s.RootOk z root
  /-- A partition without a mapper has no values. -/
  absent : s.part.entry.bind (·.mapper) = none → s.tree = [] ∧ s.older = []
  task : ∀ t, s.part.task = some t → s.TaskOk z t
  durable : ∀ v ∈ s.durable, v.StoredIn z s.part.manifest
  others : ∀ b ∈ s.others, ∀ v ∈ b.values, v.StoredIn z (some b.manifest)

namespace Ok

variable {z : Zstd} {opts : KvOptions} {s y : ValueStore} {t : WriteTask}

theorem dictOk (h : s.Ok z) (ht : s.part.task = some t) :
    (s.part.compressionOf t).DictOk s.part.manifest := by
  obtain ⟨root, hroot⟩ := isSome_iff_exists.1 (h.task t ht).entry
  cases hown : t.cow.ownCompression with
  | some c =>
    rw [compressionOf, hown]
    exact ((h.task t ht).own c hown).1
  | none =>
    rw [compressionOf, hown, hroot]
    exact (h.root root hroot).dict

theorem storedIn_flush (h : s.Ok z) (ht : s.part.task = some t) (hwrites : t.flushSkips = false)
    {v : StoredValue} (hv : v ∈ s.pending) :
    v.StoredIn z (s.part.flushManifest opts t).manifest := by
  intro hkind
  obtain ⟨hdict, heq, hmade⟩ := (h.task t ht).pending v hv hkind
  obtain ⟨m, hm, hbytes⟩ := dictBytes_flushManifest opts (h.dictOk ht) hdict (.inl hwrites)
  exact ⟨m, hm, hbytes.trans heq, heq ▸ (h.dictOk ht hdict).1, hmade⟩

theorem fresh (z : Zstd) (branch : BranchName) (term : ℕ) :
    (ValueStore.fresh branch term).Ok z where
  root := by simp [ValueStore.fresh, Partition.fresh]
  absent _ := ⟨rfl, rfl⟩
  task := by simp [ValueStore.fresh, Partition.fresh]
  durable := by simp [ValueStore.fresh]
  others := by simp [ValueStore.fresh]

/-- **A load** finds the dictionary of every value on disk. -/
theorem findRoot (opts : KvOptions) (h : s.Ok z) (hidle : s.part.task = none) :
    (s.findRoot opts).Ok z ∧ (s.findRoot opts).part.task = none ∧
      (s.findRoot opts).part = s.part.findRoot opts := by
  unfold ValueStore.findRoot
  split
  · next m hentry hm =>
    have hload : s.part.findRoot opts = s.part.loadMeta opts m := by
      simp [Partition.findRoot, hentry, hm]
    refine ⟨⟨fun root hroot ↦ ?_, fun hn ↦ ?_, fun t ht ↦ ?_, h.durable, h.others⟩, hidle,
      hload.symm⟩
    · cases hroot
      refine ⟨fun hdict ↦ ?_, fun v hv hkind ↦ ?_, fun hn ↦ ?_⟩
      · by_cases hempty : (replay m).dictBytes = []
        · simp [ofReplayer, hempty] at hdict
        · refine ⟨?_, fun _ ↦ ⟨m, hm, ?_⟩⟩ <;> simp [ofReplayer, hempty]
      · obtain ⟨m', hm', hbytes, hne, hmade⟩ := h.durable v (hv.resolve_right (by simp)) hkind
        cases hm.symm.trans hm'
        rw [← hbytes] at hne
        have hcomp : (ofReplayer opts s.part.processTerm (replay m)).compression.getD {} =
            ⟨true, (replay m).dictBytes, false⟩ := by simp [ofReplayer, hne]
        rw [hcomp]
        exact ⟨rfl, hbytes, hmade⟩
      · simp [ofReplayer] at hn
    · simp [loadMeta, ofReplayer] at hn
    · cases hidle.symm.trans ht
  · next hn =>
    refine ⟨h, hidle, ?_⟩
    unfold Partition.findRoot
    split
    · rfl
    · next hentry =>
      split
      · rfl
      · next m hm => exact absurd hm (hn m hentry)

section

variable (h : s.Ok z)

include h

/-- A task starts on an entry: with the published compression object if there is a mapper, else with
one of its own. -/
theorem ofTask {part : Partition} {root : RootMeta} (he : part.entry = some root)
    (ht : part.task = some t) (hmanifest : part.manifest = s.part.manifest)
    (hentry : s.part.entry = some root ∨ s.part.entry = none ∧ root = {})
    (hown : t.cow.ownCompression = none ∧ root.mapper ≠ none ∨ t.cow.ownCompression = some {} ∧
      root.mapper = none) :
    Ok z { s with part := part, pending := s.tree } := by
  have hmapper : s.part.entry.bind (·.mapper) = root.mapper := by
    rcases hentry with he' | ⟨he', rfl⟩ <;> rw [he'] <;> rfl
  have hroot : s.RootOk z root := by
    rcases hentry with he' | ⟨he', rfl⟩
    · exact h.root root he'
    · obtain ⟨htree, holder⟩ := h.absent (by rw [he']; rfl)
      exact ⟨fun hd ↦ absurd hd (by simp), by simp [htree, holder], fun _ ↦ rfl⟩
  refine ⟨fun root' hroot' ↦ ?_, fun hn ↦ ?_, fun t' ht' ↦ ?_, hmanifest ▸ h.durable, h.others⟩
  · cases he.symm.trans hroot'
    exact ⟨hmanifest ▸ hroot.dict, hroot.visible, hroot.stub⟩
  · have hn' : root.mapper = none := by simpa [he] using hn
    exact h.absent (hmapper.trans hn')
  · cases ht.symm.trans ht'
    rcases hown with ⟨hnone, hm⟩ | ⟨hsome, hn⟩
    · refine ⟨by simp [he], fun v hv ↦ ?_, by simp [hnone], fun _ ↦ by simpa [he] using hm,
        fun _ ↦ rfl⟩
      simp only [compressionOf, hnone, he]
      exact hroot.visible v (.inl hv)
    · refine ⟨by simp [he], fun v hv ↦ ?_, fun c hc ↦ ?_, by simp [hsome], fun _ ↦ rfl⟩
      · exact absurd ((h.absent (hmapper.trans hn)).1 ▸ hv) (by simp)
      · cases hsome.symm.trans hc
        exact ⟨fun hd ↦ absurd hd (by simp), by simpa [he] using hn⟩

/-- **A task starts** with the published values. -/
theorem start (hstep : ValueEvent.run z opts s .start = some y) : y.Ok z := by
  obtain ⟨hidle, hy⟩ := ite_none_left_eq_some.1 hstep
  obtain ⟨hok, -, hpart⟩ := h.findRoot opts (by simpa using hidle)
  have hfound : (s.findRoot opts).part.findRoot opts = (s.findRoot opts).part := by
    rw [hpart]
    unfold Partition.findRoot
    cases hentry : s.part.entry <;> cases hm : s.part.manifest <;>
      simp [hentry, hm, loadMeta]
  cases hy
  unfold makeCowRoot
  rw [hfound]
  dsimp only
  split
  · next root hroot =>
    split
    · next hmapper =>
      exact hok.ofTask hroot rfl rfl (.inl hroot) (.inl ⟨rfl, by simp [hmapper]⟩)
    · next hmapper => exact hok.ofTask hroot rfl rfl (.inl hroot) (.inr ⟨rfl, hmapper⟩)
  · next hnone => exact hok.ofTask rfl rfl rfl (.inr ⟨hnone, rfl⟩) (.inr ⟨rfl, rfl⟩)

/-- **A training** puts a dictionary that is not empty where there was none. -/
theorem train {bytes : List UInt8} (hne : bytes ≠ [])
    (hstep : ValueEvent.run z opts s (.step (.buildDictionary bytes)) = some y) : y.Ok z := by
  obtain ⟨part, hpart, rfl⟩ := map_eq_some_iff.1 hstep
  obtain ⟨t, ht, hnone, rfl⟩ := taskStep_ok (ok_of_toOption hpart)
  have hnew : DictCompression.DictOk s.part.manifest ⟨true, bytes, true⟩ :=
    fun _ ↦ ⟨hne, by simp⟩
  -- no value can have needed the compression object before
  have hunder : ∀ v : StoredValue, v.Under z (s.part.compressionOf t) →
      v.Under z ⟨true, bytes, true⟩ := fun v hv hkind ↦
    absurd (hnone.symm.trans (hv hkind).1) (by simp)
  have htask := h.task t ht
  cases hown : t.cow.ownCompression with
  | some c =>
    obtain ⟨-, hmapper⟩ := htask.own c hown
    simp only [setCompression, hown]
    refine ⟨fun root hroot ↦ { h.root root hroot with }, h.absent, fun t' ht' ↦ ?_, h.durable,
      h.others⟩
    cases ht'
    refine ⟨htask.entry, fun v hv ↦ hunder v (htask.pending v hv), fun c' hc' ↦ ?_, by simp,
      htask.unchanged⟩
    cases hc'
    exact ⟨hnew, hmapper⟩
  | none =>
    obtain ⟨root, hroot⟩ := isSome_iff_exists.1 htask.entry
    have hmapper : root.mapper ≠ none := by simpa [hroot] using htask.shared hown
    have hcomp : s.part.compressionOf t = root.compression.getD {} := by
      simp [compressionOf, hown, hroot]
    simp only [setCompression, hown, hroot, map_some]
    refine ⟨fun root' hroot' ↦ ?_, fun hn ↦ absurd hn hmapper, fun t' ht' ↦ ?_, h.durable, h.others⟩
    · cases hroot'
      exact ⟨hnew, fun v hv ↦ hunder v (hcomp ▸ (h.root root hroot).visible v hv),
        fun hn ↦ absurd hn hmapper⟩
    · cases ht.symm.trans ht'
      refine ⟨rfl, fun v hv ↦ ?_, by simp [hown], fun _ ↦ hmapper, htask.unchanged⟩
      simp only [compressionOf, hown]
      exact hunder v (htask.pending v hv)

/-- A task that is changed, its compression object excepted. -/
theorem setTask (ht : s.part.task = some t) {part : Partition} {t' : WriteTask}
    (htask : part.task = some t') (hentry : part.entry = s.part.entry)
    (hmanifest : part.manifest = s.part.manifest)
    (hown : t'.cow.ownCompression = t.cow.ownCompression)
    (hwal : t'.walBuilder = [] → t.walBuilder = []) : Ok z { s with part := part } := by
  have hold := h.task t ht
  refine ⟨fun root hroot ↦ ?_, fun hn ↦ h.absent (hentry ▸ hn), fun x hx ↦ ?_,
    hmanifest ▸ h.durable, h.others⟩
  · obtain ⟨hdict, hvisible, hstub⟩ := h.root root (hentry.symm.trans hroot)
    exact ⟨hmanifest ▸ hdict, hvisible, hstub⟩
  · cases htask.symm.trans hx
    refine ⟨hentry ▸ hold.entry, fun v hv ↦ ?_, fun c hc ↦ ?_, fun hn ↦ ?_,
      fun hw ↦ hold.unchanged (hwal hw)⟩
    · exact compressionOf_congr hentry hown ▸ hold.pending v hv
    · rw [hmanifest, hentry]
      exact hold.own c (hown.symm.trans hc)
    · exact hentry ▸ hold.shared (hown.symm.trans hn)

theorem step {a : TaskStep} (htrained : (ValueEvent.step a).Trained)
    (hstep : ValueEvent.run z opts s (.step a) = some y) : y.Ok z := by
  by_cases ha : ∃ bytes, a = .buildDictionary bytes
  · obtain ⟨bytes, rfl⟩ := ha
    exact h.train htrained hstep
  · obtain ⟨part, hpart, rfl⟩ := map_eq_some_iff.1 hstep
    have hok := ok_of_toOption hpart
    obtain ⟨t, ht, -⟩ := taskStep_ok hok
    obtain ⟨t', ht', hentry, hmanifest, hown, hwal⟩ :=
      compression_taskStep ht (fun bytes heq ↦ ha ⟨bytes, heq⟩) hok
    exact h.setTask ht ht' hentry hmanifest hown hwal

/-- The values of the task are changed, after a page has been. -/
theorem setPending (ht : s.part.task = some t) (hwal : t.walBuilder ≠ [])
    {values : List StoredValue} (hv : ∀ v ∈ values, v.Under z (s.part.compressionOf t)) :
    Ok z { s with pending := values } := by
  refine ⟨fun root hroot ↦ { h.root root hroot with }, h.absent, fun x hx ↦ ?_, h.durable,
    h.others⟩
  cases ht.symm.trans hx
  exact { h.task t ht with pending := hv, unchanged := fun hw ↦ absurd hw hwal }

/-- The task ends without having changed the entry. -/
theorem endTask {manifest : Option Manifest} {durable : List StoredValue}
    (hdict : ∀ root, s.part.entry = some root → (root.compression.getD {}).DictOk manifest)
    (hdurable : ∀ v ∈ durable, v.StoredIn z manifest) :
    Ok z { s with
      part := { s.part.abort with manifest := manifest }, durable := durable, pending := [] } where
  root root hroot := { h.root root hroot with dict := hdict root hroot }
  absent := h.absent
  task := by simp [abort]
  durable := hdurable
  others := h.others

/-- **An abort** leaves the dictionary with the entry, whether or not the manifest was written. -/
theorem abort {written : Bool} (hstep : ValueEvent.run z opts s (.abort written) = some y) :
    y.Ok z := by
  obtain ⟨t, ht, hy⟩ := bind_eq_some_iff.1 hstep
  split at hy
  · next hcond =>
    cases hy
    refine h.endTask (fun root hroot hdict ↦ ?_) fun v hv ↦ h.storedIn_flush ht hcond.2 hv
    refine ⟨((h.root root hroot).dict hdict).1, fun _ ↦ ?_⟩
    cases hown : t.cow.ownCompression with
    | some c =>
      have hn : root.mapper = none := by simpa [hroot] using ((h.task t ht).own c hown).2
      cases hdict.symm.trans ((h.root root hroot).stub hn)
    | none =>
      have hcomp : s.part.compressionOf t = root.compression.getD {} := by
        simp [compressionOf, hown, hroot]
      rw [← hcomp] at hdict ⊢
      exact dictBytes_flushManifest opts (h.dictOk ht) hdict (.inl hcond.2)
  · cases hy
    exact h.endTask (fun root hroot ↦ (h.root root hroot).dict) h.durable

/-- **A commit** publishes the values with the compression object they were written with. -/
theorem commit (hstep : ValueEvent.run z opts s .commit = some y) : y.Ok z := by
  obtain ⟨t, ht, hy⟩ := bind_eq_some_iff.1 hstep
  obtain ⟨-, rfl⟩ := ite_some_none_eq_some.1 hy
  obtain ⟨root, d, hroot, hmapper, hcomp, hd, htask, hmanifest⟩ :=
    compression_updateMeta opts ht (h.task t ht).entry
  have hbefore : ∀ v, v ∈ s.tree ∨ v ∈ s.older → v.Under z (s.part.compressionOf t) := by
    intro v hv
    obtain ⟨r, hr⟩ := isSome_iff_exists.1 (h.task t ht).entry
    cases hown : t.cow.ownCompression with
    | some c =>
      obtain ⟨htree, holder⟩ := h.absent ((h.task t ht).own c hown).2
      simp [htree, holder] at hv
    | none =>
      simp only [compressionOf, hown, hr]
      exact (h.root r hr).visible v hv
  refine ⟨fun r hr ↦ ?_, fun hn ↦ ?_, by simp [htask], ?_, h.others⟩
  · cases hroot.symm.trans hr
    refine ⟨?_, fun v hv ↦ ?_, fun hn ↦ by simp [hn] at hmapper⟩
    · rw [hcomp, hmanifest]
      exact fun hdict ↦ ⟨(h.dictOk ht hdict).1,
        fun hfalse ↦ dictBytes_flushManifest opts (h.dictOk ht) hdict (hd hfalse)⟩
    · have hunder : v.Under z (s.part.compressionOf t) := by
        rcases hv with hv | hv
        · exact (h.task t ht).pending v hv
        · exact hbefore v (mem_append.1 hv)
      rw [hcomp]
      exact hunder
  · simp [hroot] at hn
    simp [hn] at hmapper
  · rw [hmanifest]
    split
    · next hskip =>
      have hsame : s.part.flushManifest opts t = s.part := if_pos hskip
      rw [congrArg manifest hsame]
      exact h.durable
    · next hwrites => exact fun v hv ↦ h.storedIn_flush ht (by simpa using hwrites) hv

/-- The manifest of a branch is written with the dictionary of the entry. -/
theorem setBranch (hidle : s.part.task = none) {child : BranchName} {m : Manifest} {root : RootMeta}
    (hroot : s.part.entry = some root)
    (hbytes : (replay m).dictBytes = (root.compression.getD {}).dictBytes) :
    (s.setBranch child m s.tree).Ok z := by
  have hnew : (root.compression.getD {}).hasDictionary = true →
      (replay m).dictBytes = (root.compression.getD {}).dictionary :=
    fun hdict ↦ hbytes.trans (if_pos hdict)
  have hstored : ∀ v ∈ s.tree, v.StoredIn z (some m) := by
    intro v hv hkind
    obtain ⟨hdict, heq, hmade⟩ := (h.root root hroot).visible v (.inl hv) hkind
    exact ⟨m, rfl, (hnew hdict).trans heq, heq ▸ ((h.root root hroot).dict hdict).1, hmade⟩
  unfold ValueStore.setBranch
  split
  · refine ⟨fun r hr ↦ ?_, h.absent, by simp [hidle], hstored, h.others⟩
    cases hroot.symm.trans hr
    exact { h.root root hroot with
      dict := fun hdict ↦ ⟨((h.root root hroot).dict hdict).1, fun _ ↦ ⟨m, rfl, hnew hdict⟩⟩ }
  · refine ⟨fun r hr ↦ { h.root r hr with }, h.absent, fun t ht ↦ { h.task t ht with }, h.durable,
      fun b hb ↦ ?_⟩
    rcases mem_cons.1 hb with rfl | hb
    · exact hstored
    · exact h.others b (mem_of_mem_filter hb)

/-- **A fork** has the dictionary of its parent. -/
theorem fork {child : BranchName} (hstep : ValueEvent.run z opts s (.fork child) = some y) :
    y.Ok z := by
  obtain ⟨hidle, hy⟩ := ite_none_left_eq_some.1 hstep
  obtain ⟨hok, htask, -⟩ := h.findRoot opts (by simpa using hidle)
  split at hy
  · cases hy
    exact hok
  · next m hm =>
    cases hy
    obtain ⟨root, hlive, hm⟩ := bind_eq_some_iff.1 hm
    obtain ⟨mapper, -, rfl⟩ := map_eq_some_iff.1 hm
    obtain ⟨hroot, -⟩ := filter_eq_some_iff.1 hlive
    exact hok.setBranch htask hroot rfl

theorem branch {b : StoredBranch} (hb : b ∈ s.branches) :
    ∀ v ∈ b.values, v.StoredIn z (some b.manifest) := by
  unfold ValueStore.branches at hb
  split at hb
  · exact h.others b hb
  · next m hm =>
    rcases mem_cons.1 hb with rfl | hb
    · exact hm ▸ h.durable
    · exact h.others b hb

/-- **A restart** keeps what is on disk. -/
theorem restart {branch : BranchName} {term : ℕ}
    (hstep : ValueEvent.run z opts s (.restart branch term) = some y) : y.Ok z := by
  cases hstep
  refine ⟨by simp [ofBranch], fun _ ↦ ⟨rfl, rfl⟩, by simp [ofBranch], fun v hv ↦ ?_,
    fun b hb ↦ h.branch (mem_of_mem_filter hb)⟩
  cases hfind : s.branches.find? (·.name = branch) with
  | none => simp [hfind] at hv
  | some b =>
    simp only [hfind, map_some, getD_some] at hv
    exact h.branch (mem_of_find?_eq_some hfind) v hv

theorem event {e : ValueEvent} (htrained : e.Trained) (hstep : e.run z opts s = some y) :
    y.Ok z := by
  cases e with
  | start => exact h.start hstep
  | step a => exact h.step htrained hstep
  | put v enable =>
    obtain ⟨t, ht, hy⟩ := bind_eq_some_iff.1 hstep
    obtain ⟨hwal, hy⟩ := ite_none_left_eq_some.1 hy
    cases hy
    refine h.setPending ht hwal fun x hx ↦ ?_
    rcases mem_cons.1 hx with rfl | hx
    · exact prepare_under z enable _ v
    · exact (h.task t ht).pending x hx
  | remove k =>
    obtain ⟨t, ht, hy⟩ := bind_eq_some_iff.1 hstep
    obtain ⟨hwal, hy⟩ := ite_none_left_eq_some.1 hy
    cases hy
    exact h.setPending ht hwal fun x hx ↦ (h.task t ht).pending x (mem_of_mem_eraseIdx hx)
  | commit => exact h.commit hstep
  | abort written => exact h.abort hstep
  | evict =>
    obtain ⟨hidle, hy⟩ := ite_none_left_eq_some.1 hstep
    cases hy
    have htask : s.part.task = none := by simpa using hidle
    exact ⟨by simp, fun _ ↦ ⟨rfl, rfl⟩, by simp [htask], h.durable, h.others⟩
  | fork child => exact h.fork hstep
  | restart branch term => exact h.restart hstep

end

theorem of_run {branch : BranchName} {term : ℕ}
    (hrun : ValueRuns z opts (fun _ e ↦ e.Trained) (.fresh branch term) s) : s.Ok z :=
  hrun.invariant (Ok z) (.fresh z branch term) fun h htrained hstep ↦ h.event htrained hstep

end Ok

/-! ### Runs -/

/-- **In every run in which each training gives a dictionary**, every value that readers can meet
and that was compressed with a dictionary is read as it was written; and the manifest of every
branch that leads to such a value has the dictionary it was compressed with. -/
theorem reads_of_trained {z : Zstd} {opts : KvOptions} {branch : BranchName} {term : ℕ}
    {s : ValueStore} (hrun : ValueRuns z opts (fun _ e ↦ e.Trained) (.fresh branch term) s) :
    (∀ v, v ∈ s.tree ∨ v ∈ s.older → v.kind = .dictionary → s.read z v = some v.written) ∧
    (∀ b ∈ s.branches, ∀ v ∈ b.values, v.kind = .dictionary →
      (replay b.manifest).dictBytes = v.dictionary ∧ v.dictionary ≠ []) ∧
    (s.part.manifest = none → ∀ v ∈ s.durable, v.kind ≠ .dictionary) := by
  have h := Ok.of_run hrun
  refine ⟨fun v hv hkind ↦ ?_, fun b hb v hv hkind ↦ ?_, fun hn v hv hkind ↦ ?_⟩
  · have hentry : s.part.entry ≠ none := fun hn ↦ by
      obtain ⟨htree, holder⟩ := h.absent (by rw [hn]; rfl)
      simp [htree, holder] at hv
    obtain ⟨root, hroot⟩ := ne_none_iff_exists'.1 hentry
    obtain ⟨hdict, heq, hmade⟩ := (h.root root hroot).visible v hv hkind
    rw [read, hkind, hroot]
    exact hmade _ hdict heq
  · obtain ⟨m, hm, hbytes, hne, -⟩ := h.branch hb v hv hkind
    cases hm
    exact ⟨hbytes, hne⟩
  · obtain ⟨m, hm, -⟩ := h.durable v hv hkind
    cases hn.symm.trans hm

/-- A value that is long enough to be compressed. -/
def zeros : List UInt8 := List.replicate 100 0

/-- A compression that knows one value only. -/
def zerosZstd : Zstd where
  compress d v := if v = zeros then some (1 :: d) else none
  decompress d w := if w = 1 :: d then some zeros else none
  compressRaw _ := none
  decompressRaw _ := none
  decompress_compress h := by
    obtain ⟨rfl, rfl⟩ := Option.ite_some_none_eq_some.1 h
    exact if_pos rfl

/-- The value with a dictionary is written, the write is committed, a branch is forked, and the
instance is restarted on it: the value is read there. -/
theorem reads_of_trained_forked :
    ∃ s : ValueStore,
      ValueRuns zerosZstd sampleOptions (fun _ e ↦ e.Trained) (.fresh "main" 0) s ∧
      s.part.activeBranch = "dev" ∧ ∃ v ∈ s.tree, v.kind = .dictionary ∧ v.written = zeros ∧
        s.read zerosZstd v = some zeros := by
  obtain ⟨s, hrun, hbranch, v, hv, hkind, hwritten⟩ : ∃ s : ValueStore,
      ValueRuns zerosZstd sampleOptions (fun _ e ↦ e.Trained) (.fresh "main" 0) s ∧
      s.part.activeBranch = "dev" ∧ ∃ v ∈ s.tree, v.kind = .dictionary ∧ v.written = zeros :=
    exists_reach_of_exec [.start, .step (.buildDictionary [7]),
      .step (.allocatePage none), .put zeros true, .commit, .fork "dev", .restart "dev" 0, .start]
      (by decide +kernel)
  exact ⟨s, hrun, hbranch, v, hv, hkind, hwritten,
    hwritten ▸ (reads_of_trained hrun).1 v (.inl hv) hkind⟩

/-- **A value written after a failed training cannot be read once the root has been evicted.** -/
theorem evicted_empty_dictionary :
    ∃ s : ValueStore, ValueRuns zerosZstd sampleOptions (fun _ _ ↦ True) (.fresh "main" 0) s ∧
      (∃ v ∈ s.tree, v.kind = .dictionary ∧ s.read zerosZstd v = some zeros) ∧
      ∃ y : ValueStore, ValueRuns zerosZstd sampleOptions (fun _ _ ↦ True) s y ∧
        ∃ v ∈ y.tree, v.kind = .dictionary ∧ v.written = zeros ∧ y.read zerosZstd v = none := by
  obtain ⟨s, y, hs, hy, hbefore, hafter⟩ : ∃ s y : ValueStore,
      ValueRuns zerosZstd sampleOptions (fun _ _ ↦ True) (.fresh "main" 0) s ∧
      ValueRuns zerosZstd sampleOptions (fun _ _ ↦ True) s y ∧
      (∃ v ∈ s.tree, v.kind = .dictionary ∧ s.read zerosZstd v = some zeros) ∧
      ∃ v ∈ y.tree, v.kind = .dictionary ∧ v.written = zeros ∧ y.read zerosZstd v = none :=
    exists_reach_reach_of_exec
      [.start, .step (.buildDictionary []), .step (.allocatePage none), .put zeros true, .commit]
      [.evict, .start] (by decide +kernel)
  exact ⟨s, hs, hbefore, y, hy, hafter⟩

end ValueStore

end EloqStore
