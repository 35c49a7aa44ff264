import EloqStore.Partition.FileScan

/-!
# The operations that commit

What runs between a `makeCowRoot` and an `updateMeta`. A batch write, a partial truncate and a
cleaning of expired keys are sequences of task steps: which steps, the tree decides. A full truncate
frees every mapped page and forgets the changes it recorded, since the empty snapshot it commits
says it all. A compaction is determined by the mappers: it rewrites every closed file whose
occupancy has fallen below the configured amplification, data files first.

Both compactions follow one plan (`PageMapper.compactPlan`), decided by a scan of the table before
anything is moved. They differ in when they run: data files are compacted only in append mode,
segment files whenever the partition has a segment mapper.
-/

namespace EloqStore

open List

/-! ### Compaction -/

/-- The statistics of an emptied mapper: `giveUpTail`. -/
def emptyStatSteps (c : FileClass) (m : PageMapper) : List TaskStep :=
  if 0 < m.allocator.spaceSize then [.updateStat c m.nextFileId 0] else []

/-- The statistics of a mapper that has been scanned: `record`. -/
def CompactPlan.statStep (c : FileClass) (p : CompactPlan) : TaskStep :=
  .updateStat c p.scan.minFileId p.scan.emptyFileCnt

/-- Cut a list into pieces of `n`. -/
def chunks {α : Type*} (n : ℕ) : ℕ → List α → List (List α)
  | 0, _ => []
  | _ + 1, [] => []
  | fuel + 1, a :: l => (a :: l).take n :: chunks n fuel ((a :: l).drop n)

/-- The order in which a rewritten file's pages are allocated: batch by batch, and in each batch the
cached pages before those that must be read. -/
def moveOrder (cached : List ℕ) (pages : List (ℕ × ℕ)) : List (ℕ × ℕ) :=
  (chunks maxMoveBatch pages.length pages).flatMap fun batch ↦
    batch.filter (fun x ↦ cached.contains x.2) ++ batch.filter fun x ↦ !cached.contains x.2

variable (opts : KvOptions) (cow : CowRootMeta)

/-- The steps of `DoCompactDataFile`. -/
def doCompactDataFile (cached : List ℕ) (m : PageMapper) : List TaskStep :=
  if m.tbl.mapped = [] then emptyStatSteps .data m
  else
    let plan := m.compactPlan (opts.scan .data)
    (plan.moves.flatMap (moveOrder cached)).map (fun x ↦ .allocatePage (some x.2)) ++
      [plan.statStep .data]

/-- The steps of `DoCompactSegmentFile`. -/
def doCompactSegmentFile (m : PageMapper) : List TaskStep :=
  if m.tbl.mapped = [] then emptyStatSteps .segment m
  else
    let plan := m.compactPlan (opts.scan .segment)
    plan.moves.flatten.map (fun x ↦ .allocateSegment (some x.2)) ++ [plan.statStep .segment]

/-- The steps of a compaction of a copy: data files in append mode, then segment files. -/
def compactSteps (cached : List ℕ) (cow : CowRootMeta) : List TaskStep :=
  (if opts.dataAppendMode then doCompactDataFile opts cached cow.mapper else []) ++
    match cow.segmentMapper with
    | none => []
    | some m => doCompactSegmentFile opts m

/-- There is nothing to compact and nothing to collect. -/
def compactClean : Bool :=
  (!opts.dataAppendMode || cow.mapper.isClean) && cow.segmentMapper.all (·.isClean)

/-! ### What a compaction does -/

/-- A compaction of this copy moves data pages. -/
def CowRootMeta.MovesData : Prop :=
  opts.dataAppendMode = true ∧ (cow.mapper.compactPlan (opts.scan .data)).moves ≠ []

/-- A compaction of this copy moves segments. -/
def CowRootMeta.MovesSegments : Prop :=
  ∃ m, cow.segmentMapper = some m ∧ (m.compactPlan (opts.scan .segment)).moves ≠ []

instance : Decidable (cow.MovesData opts) :=
  inferInstanceAs (Decidable (_ ∧ _))

instance : Decidable (cow.MovesSegments opts) :=
  match h : cow.segmentMapper with
  | none => isFalse (by simp [CowRootMeta.MovesSegments, h])
  | some m =>
    decidable_of_iff ((m.compactPlan (opts.scan .segment)).moves ≠ [])
      (by simp [CowRootMeta.MovesSegments, h])

private theorem moveOrder_ne_nil (cached : List ℕ) {pages : List (ℕ × ℕ)} (h : pages ≠ []) :
    moveOrder cached pages ≠ [] := by
  obtain ⟨x, rest, rfl⟩ := exists_cons_of_ne_nil h
  intro hnil
  have hmem : x ∈ moveOrder cached (x :: rest) := by
    simp only [moveOrder, length_cons, chunks, mem_flatMap, mem_cons]
    refine ⟨_, .inl rfl, ?_⟩
    simp only [maxMoveBatch, take_succ_cons, mem_append, mem_filter,
      mem_cons, true_or, true_and]
    cases cached.contains x.2 <;> simp
  rw [hnil] at hmem
  cases hmem

variable {opts} {cow} {cached : List ℕ} {a : TaskStep}

/-- A compaction that moves data pages takes a step that changes the data mapping. -/
theorem CowRootMeta.MovesData.exists_allocatePage (h : cow.MovesData opts) (cached : List ℕ) :
    ∃ page, .allocatePage (some page) ∈ compactSteps opts cached cow := by
  obtain ⟨happ, hmoves⟩ := h
  have hmapped : cow.mapper.tbl.mapped ≠ [] := fun hnil ↦
    hmoves (PageMapper.compactPlan_moves_nil hnil _)
  obtain ⟨here, rest, hcons⟩ := exists_cons_of_ne_nil hmoves
  have hmem : here ∈ (cow.mapper.compactPlan (opts.scan .data)).moves := by simp [hcons]
  have hhere : here ≠ [] := PageMapper.compactPlan_moves_ne_nil _ _ here hmem
  obtain ⟨x, xs, hx⟩ := exists_cons_of_ne_nil (moveOrder_ne_nil cached hhere)
  refine ⟨x.2, mem_append_left _ ?_⟩
  simp only [happ, if_true, doCompactDataFile, if_neg hmapped]
  refine mem_append_left _ (mem_map.2 ⟨x, mem_flatMap.2 ⟨here, hmem, ?_⟩, rfl⟩)
  simp [hx]

private theorem mem_emptyStatSteps {c : FileClass} {m : PageMapper}
    (h : a ∈ emptyStatSteps c m) : ∃ minFileId holeCnt, a = .updateStat c minFileId holeCnt := by
  unfold emptyStatSteps at h
  split at h
  · exact ⟨_, _, mem_singleton.1 h⟩
  · cases h

/-- **The steps of a compaction**: statistics, and moves where the plan has moves. -/
theorem mem_compactSteps (h : a ∈ compactSteps opts cached cow) :
    (∃ c minFileId holeCnt, a = .updateStat c minFileId holeCnt) ∨
      (cow.MovesData opts ∧ ∃ page, a = .allocatePage (some page)) ∨
      (cow.MovesSegments opts ∧ ∃ page, a = .allocateSegment (some page)) := by
  rcases mem_append.1 h with h | h
  · split at h
    · next happ =>
      unfold doCompactDataFile at h
      split at h
      · exact .inl ⟨_, mem_emptyStatSteps h⟩
      · rcases mem_append.1 h with h | h
        · obtain ⟨x, hx, rfl⟩ := mem_map.1 h
          obtain ⟨here, hhere, -⟩ := mem_flatMap.1 hx
          exact .inr (.inl ⟨⟨happ, ne_nil_of_mem hhere⟩, x.2, rfl⟩)
        · exact .inl ⟨_, _, _, mem_singleton.1 h⟩
    · cases h
  · split at h
    · cases h
    · next m hm =>
      unfold doCompactSegmentFile at h
      split at h
      · exact .inl ⟨_, mem_emptyStatSteps h⟩
      · rcases mem_append.1 h with h | h
        · obtain ⟨x, hx, rfl⟩ := mem_map.1 h
          obtain ⟨here, hhere, -⟩ := mem_flatten.1 hx
          exact .inr (.inr ⟨⟨m, hm, ne_nil_of_mem hhere⟩, x.2, rfl⟩)
        · exact .inl ⟨_, _, _, mem_singleton.1 h⟩

/-! ### Operations -/

/-- An operation on a partition. -/
inductive Op
  /-- A batch write, partial truncate or cleaning of expired keys, by its steps. -/
  | write (steps : List TaskStep)
  /-- A truncate of the whole partition. -/
  | truncateAll
  /-- A compaction; `cached` are the data pages in memory. -/
  | compact (cached : List ℕ)
deriving DecidableEq, Repr

namespace Partition

/-- Commit the running task. Every reserved page has been written by then. -/
def commit (opts : KvOptions) (s : Partition) : Except Failure Partition :=
  match s.task with
  | none => .error .disabled
  | some t => if t.reserved = [] then .ok (s.updateMeta opts t) else .error .disabled

theorem commit_ok {opts : KvOptions} {s s' : Partition} (h : s.commit opts = .ok s') :
    ∃ t, s.task = some t ∧ t.reserved = [] ∧ s' = s.updateMeta opts t := by
  unfold commit at h
  split at h
  · cases h
  · next t ht =>
    split at h
    · next hres => exact ⟨t, ht, hres, (Except.ok.inj h).symm⟩
    · cases h

/-- The task of a full truncate: every mapped page freed, the roots gone, the recorded changes
forgotten. -/
def truncated (opts : KvOptions) (t : WriteTask) : WriteTask :=
  let t' := (t.cow.mapper.tbl.mapped.map (·.2)).foldl (fun t page ↦ t.freePage opts page) t
  { t' with
    cow := { t'.cow with rootId := none, ttlRootId := none, nextExpireTs := 0 }
    walBuilder := [] }

/-- Run an operation to its commit. -/
def runOp (opts : KvOptions) (s : Partition) (op : Op) : Except Failure Partition :=
  let s' := s.makeCowRoot opts
  match s'.task with
  | none => .error .disabled
  | some t =>
    match op with
    | .write steps => (s'.taskSteps opts steps).bind (commit opts)
    | .truncateAll =>
      if t.cow.rootId = none then .ok s'.abort
      else .ok ({ s' with task := some (truncated opts t) }.updateMeta opts (truncated opts t))
    | .compact cached =>
      if compactClean opts t.cow then .ok s'.abort
      else (s'.taskSteps opts (compactSteps opts cached t.cow)).bind (commit opts)

end Partition

end EloqStore
