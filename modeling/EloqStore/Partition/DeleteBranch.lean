import EloqStore.Gc.SharedPartition
import Mathlib.Data.List.Infix

/-!
# Deleting a branch

Branches share the files of the branches they were forked from, over any number of generations: a
manifest finds a file under the name its ranges give, and a fork hands its ranges down. Deleting a
branch in the object store selects data files **by the branch in their name**, and asks no manifest.

A forest of branches is followed through writes, forks, restarts, archives and deletions
(`ForestRuns`), with a record of the branches each branch has inherited ranges from: the one it was
forked from, and those whose manifest a new instance of the branch has loaded in the place of its
own. The ranges of a manifest name its own branch and those only (`Forest.Descends`), so a deletion
takes no file of a branch that remains, if no branch that remains descends from the deleted one. The
code does not ask for that.
-/

namespace EloqStore

open List Option EloqStore.Partition Replayer Transition SharedEvent Shared

/-! ### The deletion -/

/-- The suffix of a data file's name, `<file_id>_<branch>_<term>`. -/
def dataFileSuffix (f : FileName) : List Char :=
  Nat.toDigits 10 f.fid.fileId ++ fileNameSeparator ::
    ((normalizeBranchName f.owner.branchName).toList ++
      fileNameSeparator :: Nat.toDigits 10 f.owner.term)

/-- What the names of a branch's data files are searched for: `_<branch>_`. -/
def branchMarker (branch : BranchName) : List Char :=
  fileNameSeparator :: (branch.toList ++ [fileNameSeparator])

/-- Whether the deletion of a branch in the object store selects a file. Segment files are not
listed. -/
def selectsFile (branch : BranchName) (f : FileName) : Bool :=
  f.fid.cls == .data && decide (branchMarker branch <:+: dataFileSuffix f)

/-- Whether it selects a manifest or an archive: the name starts with `<branch>_`. -/
def selectsManifest (branch : BranchName) (n : ManifestName) : Bool :=
  decide (branch.toList ++ [fileNameSeparator] <+: n.suffix)

/-- The deletions of a request that fail, or whose object is not listed because a listing fails.
They are passed over, and the others go on. -/
structure FailedDeletions where
  manifests : List ManifestName := []
  files : List FileName := []
deriving DecidableEq, Repr

/-- `DeleteBranchFiles`. With an object store the manifests, the archives and the data files of the
branch are listed and deleted. Without one the manifests up to the term in the term file are
unlinked, up to term 0 if there is none; archives and files stay. -/
def Shared.deleteBranchFiles (opts : KvOptions) (x : Shared) (branch : BranchName)
    (termFile : Option ℕ) (failed : FailedDeletions) : Shared :=
  if deriveStoreMode opts = .cloud then
    { x with
      objects := x.objects.filter fun o ↦
        !selectsManifest branch o.1 || failed.manifests.contains o.1
      files := x.files.filter fun f ↦ !selectsFile branch f || failed.files.contains f }
  else
    { x with
      objects := x.objects.filter fun o ↦
        !decide (o.1.branch = branch ∧ o.1.tag = none ∧ o.1.term ≤ termFile.getD 0) ||
          failed.manifests.contains o.1 }

/-- The branch every partition starts on. -/
def mainBranchName : BranchName := "main"

/-- `DeleteBranch`, on an instance whose active branch is given. An invalid name, the main branch
and the active branch are refused. -/
def Shared.deleteBranch (opts : KvOptions) (x : Shared) (active name : BranchName)
    (termFile : Option ℕ) (failed : FailedDeletions) : Shared :=
  let branch := normalizeBranchName name
  if branch = "" ∨ branch = mainBranchName ∨ branch = active then x
  else x.deleteBranchFiles opts branch termFile failed

/-! ### A forest of branches -/

/-- The branches of a partition, with the branches each has inherited file ranges from. -/
structure Forest where
  /-- The branches and the store they share. -/
  shared : Shared
  ancestors : BranchName → List BranchName

def Forest.start (term : ℕ) : Forest := ⟨.start mainBranchName term, fun _ ↦ []⟩

/-- What happens to a forest of branches. -/
inductive ForestEvent
  /-- An instance writes, restarts, forks or archives, or the collector moves on. -/
  | act (e : SharedEvent)
  | deleteBranch (active name : BranchName) (termFile : Option ℕ) (failed : FailedDeletions)
deriving DecidableEq, Repr

/-- The branch that an event hands ranges down from, and the one that gets them: a fork, and a load
of a manifest. -/
def SharedEvent.handsDown (opts : KvOptions) (x : Shared) :
    SharedEvent → Option (BranchName × BranchName)
  | .fork b child => some (b, child)
  | .restart b term uploaded =>
    ((x.instances b).bind fun inst ↦
      (x.loads opts inst.part (opts.runTerm term) uploaded).join).map fun o ↦ (o.1.branch, b)
  | _ => none

/-- The ancestors after an event: with its ranges a branch hands its own down. -/
def Forest.ancestorsAfter (opts : KvOptions) (x : Forest) (e : SharedEvent) (b : BranchName) :
    List BranchName :=
  match e.handsDown opts x.shared with
  | some (parent, child) =>
    if b = child then parent :: (x.ancestors parent ++ x.ancestors child) else x.ancestors b
  | none => x.ancestors b

/-- The names a fork may give: `CreateBranch` normalizes them. -/
def SharedEvent.WellNamed : SharedEvent → Prop
  | .fork _ child => IsNormalized child
  | _ => True

instance : DecidablePred SharedEvent.WellNamed
  | .fork _ child => inferInstanceAs (Decidable (IsNormalized child))
  | .write _ _ | .restart _ _ _ | .archive _ _ | .deleteObject _ | .pin _ | .unpin _ | .trigger _
  | .list _ | .read | .delete | .stop => .isTrue trivial

def ForestEvent.run (opts : KvOptions) (collector : BranchName) (x : Forest) :
    ForestEvent → Option Forest
  | .act e =>
    if e.WellNamed then
      (e.run opts collector x.shared).map fun y ↦ ⟨y, x.ancestorsAfter opts e⟩
    else none
  | .deleteBranch active name termFile failed =>
    some { x with shared := x.shared.deleteBranch opts active name termFile failed }

abbrev ForestRuns (opts : KvOptions) (collector : BranchName) : Forest → Forest → Prop :=
  Transition.Reach (fun x e y ↦ ForestEvent.run opts collector x e = some y) fun _ _ ↦ True

/-- **No branch that remains descends from this one**: none was forked from it or has loaded its
manifest, directly or through others. -/
def Forest.Childless (x : Forest) (branch : BranchName) : Prop :=
  ∀ o ∈ x.shared.objects, o.1.branch ≠ branch → branch ∉ x.ancestors o.1.branch

instance (x : Forest) (branch : BranchName) : Decidable (x.Childless branch) :=
  inferInstanceAs (Decidable (∀ o ∈ x.shared.objects, _))

/-! ### Names and markers -/

theorem separator_notMem_normalizeBranchName (name : BranchName) :
    fileNameSeparator ∉ (normalizeBranchName name).toList := by
  unfold normalizeBranchName
  split
  · next hall =>
    rw [String.toList_ofList, List.mem_map]
    rintro ⟨c, hc, hlower⟩
    have hchar := all_eq_true.1 hall c hc
    unfold Char.toLower at hlower
    split at hlower
    · next hupper =>
      -- an upper-case letter is moved by 32, past the underscore
      have hval : (c.val + ('a'.val - 'A'.val)) = fileNameSeparator.val := congrArg Char.val hlower
      have hc63 : c.val = 63 := by
        have := congrArg (· - 32) hval
        simpa [fileNameSeparator] using this
      rw [hc63] at hupper
      exact absurd hupper (by decide)
    · rw [hlower] at hchar
      exact absurd hchar (by decide)
  · simp

/-- **The marker is found in the files of its branch only.** A name has two separators, so the
marker can only stand around the branch. -/
theorem branch_of_branchMarker {branch : BranchName} {f : FileName}
    (hbranch : fileNameSeparator ∉ branch.toList) (hf : IsNormalized f.owner.branchName)
    (h : branchMarker branch <:+: dataFileSuffix f) : f.owner.branchName = branch := by
  obtain ⟨before, after, heq⟩ := h
  rw [dataFileSuffix, hf.2, branchMarker] at heq
  have hname := hf.separator_notMem
  have hfirst : fileNameSeparator ∉ before := fun hmem ↦ by
    have hpos := count_pos_iff.2 hmem
    have hcount := congrArg (count fileNameSeparator) heq
    simp only [count_append, count_cons_self, count_nil,
      count_eq_zero.2 hbranch, count_eq_zero.2 hname,
      count_eq_zero.2 (separator_notMem_toDigits _)] at hcount
    omega
  have hsplit : splitAtSeparator (before ++ fileNameSeparator ::
      (branch.toList ++ fileNameSeparator :: after)) = splitAtSeparator
        (Nat.toDigits 10 f.fid.fileId ++ fileNameSeparator ::
          (f.owner.branchName.toList ++ fileNameSeparator :: Nat.toDigits 10 f.owner.term)) := by
    rw [← heq]
    simp
  rw [splitAtSeparator_append _ hfirst, splitAtSeparator_append _ (separator_notMem_toDigits _),
    some.injEq, Prod.mk.injEq] at hsplit
  have hrest := congrArg splitAtSeparator hsplit.2
  rw [splitAtSeparator_append _ hbranch, splitAtSeparator_append _ hname, some.injEq,
    Prod.mk.injEq] at hrest
  exact (String.toList_injective hrest.1).symm

/-! ### The ranges of an instance -/

/-- The file ranges of an instance, in memory and in its manifest, satisfy a predicate. -/
structure Partition.RangesIn (P : BranchFileRange → Prop) (s : Partition) : Prop where
  memory : ∀ r ∈ s.branchFileMapping, P r
  manifest : ∀ r ∈ (durable s.manifest).ranges, P r

namespace Partition.RangesIn

variable {opts : KvOptions} {P : BranchFileRange → Prop} {s s' : Partition} {t : WriteTask}

/-- An instance that has just started has its manifest only. -/
theorem ofBranch (branch : BranchName) (term : ℕ) (m? : Option Manifest)
    (h : ∀ r ∈ (durable m?).ranges, P r) : (Partition.ofBranch branch term m?).RangesIn P :=
  ⟨by simp [Partition.ofBranch], h⟩

theorem makeCowRoot (opts : KvOptions) (h : s.RangesIn P) : (s.makeCowRoot opts).RangesIn P := by
  obtain ⟨-, hranges, hman, -⟩ := makeCowRoot_frame opts s
  refine ⟨fun r hr ↦ ?_, by rw [hman]; exact h.manifest⟩
  rw [hranges, findRoot] at hr
  split at hr
  · exact h.memory r hr
  · split at hr
    · exact h.memory r hr
    · next m hm =>
      have hdurable : (durable s.manifest).ranges = (replay m).ranges := by rw [hm]; rfl
      exact h.manifest r (hdurable ▸ hr)

theorem taskStep {a : TaskStep} (h : s.RangesIn P) (hown : ∀ r, r.owner = s.owner → P r)
    (hstep : s.taskStep opts a = .ok s') : s'.RangesIn P := by
  obtain ⟨-, hman, -, -⟩ := taskStep_frame hstep
  refine ⟨fun r hr ↦ ?_, by rw [hman]; exact h.manifest⟩
  by_cases hr' : r.owner = s.owner
  · exact hown r hr'
  · refine h.memory r ?_
    obtain ⟨t, ht, -⟩ := taskStep_ok hstep
    obtain ⟨t', -, hc⟩ := taskStep_change ht hstep
    rcases hc.ranges with heq | ⟨c, m, check, -, -, -, hst⟩
    · exact heq ▸ hr
    · exact mem_of_mem_stampFiles hst hr hr'

/-- A manifest is written with the ranges in memory, or it is left as it is. -/
theorem flushManifest (opts : KvOptions) (t : WriteTask) (h : s.RangesIn P) :
    (s.flushManifest opts t).RangesIn P := by
  have hswitch : (s.switchManifest t).RangesIn P := by
    refine ⟨fun r hr ↦ h.memory r ?_, fun r hr ↦ h.memory r ?_⟩
    · rwa [switchManifest, setCompression_branchFileMapping] at hr
    · rwa [switchManifest, setCompression_manifest] at hr
  unfold Partition.flushManifest
  split
  · exact h
  · split
    · exact hswitch
    · split
      · refine ⟨h.memory, fun r hr ↦ ?_⟩
        rw [appendManifest] at hr
        cases hm : s.manifest with
        | none => simp [hm, durable, Replayer.ranges] at hr
        | some m =>
          rw [hm, map_some, durable, replay_append] at hr
          exact h.memory r hr
      · exact hswitch

theorem updateMeta (opts : KvOptions) (t : WriteTask) (h : s.RangesIn P) :
    (s.updateMeta opts t).RangesIn P := by
  unfold Partition.updateMeta
  dsimp only
  split
  · exact ⟨(h.flushManifest opts t).memory, (h.flushManifest opts t).manifest⟩
  · exact h.flushManifest opts t

/-- **Whatever a running instance does**, its ranges are those it had, or its own. -/
theorem write {x y : Traced} {e : TraceEvent} (h : x.part.RangesIn P)
    (hown : ∀ r, r.owner = x.part.owner → P r) (hwrite : e.isWrite = true)
    (hrun : e.run opts x = some y) : y.part.RangesIn P ∧ y.part.owner = x.part.owner := by
  obtain ⟨-, -, -, -, howner, -⟩ := makeCowRoot_frame opts x.part
  cases e with
  | begin =>
    obtain ⟨-, rfl⟩ := ite_some_none_eq_some.1 hrun
    exact ⟨h.makeCowRoot opts, howner⟩
  | step a =>
    obtain ⟨s', hs', rfl⟩ := map_eq_some_iff.1 hrun
    have hstep := ok_of_toOption hs'
    obtain ⟨-, -, -, howner'⟩ := taskStep_frame hstep
    exact ⟨h.taskStep hown hstep, howner'⟩
  | commit =>
    obtain ⟨s', hs', rfl⟩ := map_eq_some_iff.1 hrun
    have hcommit := ok_of_toOption hs'
    obtain ⟨t, -, -, rfl⟩ := commit_ok hcommit
    exact ⟨h.updateMeta opts t, owner_updateMeta opts _ t⟩
  | abort =>
    obtain ⟨-, hrun⟩ := ite_none_left_eq_some.1 hrun
    cases hrun
    exact ⟨⟨h.memory, h.manifest⟩, rfl⟩
  | truncateAll =>
    obtain ⟨-, hrun⟩ := ite_none_right_eq_some.1 hrun
    obtain ⟨s', hs', rfl⟩ := map_eq_some_iff.1 hrun
    have hop := ok_of_toOption hs'
    have h₁ := h.makeCowRoot opts
    obtain ⟨t, -, -, ht, -⟩ := makeCowRoot_spec opts x.part
    simp only [runOp, ht] at hop
    split at hop
    · rw [← Except.ok.inj hop]
      exact ⟨⟨h₁.memory, h₁.manifest⟩, howner⟩
    · rw [← Except.ok.inj hop]
      refine ⟨updateMeta opts _ ⟨h₁.memory, h₁.manifest⟩, ?_⟩
      rw [owner_updateMeta]
      exact howner
  | restart term => simp [TraceEvent.isWrite] at hwrite
  | fork child term => simp [TraceEvent.isWrite] at hwrite

end Partition.RangesIn

variable {opts : KvOptions}

theorem mem_of_mem_branchManifest {s : Partition} {child : BranchName} {ranges : BranchFileMapping}
    {r : BranchFileRange} (h : r ∈ (durable (s.branchManifest opts child ranges)).ranges) :
    r ∈ ranges := by
  unfold branchManifest at h
  cases hroot : s.liveRoot with
  | none => simp [hroot, durable, Replayer.ranges] at h
  | some root =>
    cases hm : root.mapper with
    | none => simp [hroot, hm, durable, Replayer.ranges] at h
    | some m =>
      rw [hroot, bind_some, hm] at h
      exact h

theorem mem_of_mem_archiveManifest {s : Partition} {r : BranchFileRange}
    (h : r ∈ (durable s.archiveManifest).ranges) : r ∈ s.branchFileMapping := by
  unfold archiveManifest at h
  cases hroot : s.liveRoot with
  | none => simp [hroot, durable, Replayer.ranges] at h
  | some root =>
    cases hm : root.mapper with
    | none => simp [hroot, hm, durable, Replayer.ranges] at h
    | some m =>
      rw [hroot, bind_some, hm] at h
      exact h

/-! ### The ranges of a forest -/

/-- The ranges of each branch, in its instance, its manifests and its archives, satisfy the branch's
predicate. -/
structure Shared.RangesIn (D : BranchName → BranchFileRange → Prop) (x : Shared) : Prop where
  branch : ∀ b inst, x.instances b = some inst → IsNormalized b ∧ inst.part.activeBranch = b
  instances : ∀ b inst, x.instances b = some inst → inst.part.RangesIn (D b)
  /-- The ranges of a manifest or an archive. -/
  objects : ∀ n m, (n, m) ∈ x.objects → ∀ r ∈ (replay m).ranges, D n.branch r

namespace Shared.RangesIn

variable {opts : KvOptions} {D D' : BranchName → BranchFileRange → Prop} {x y : Shared}

theorem mono (h : x.RangesIn D) (hle : ∀ b r, D b r → D' b r) : x.RangesIn D' where
  branch := h.branch
  instances b inst hb :=
    ⟨fun r hr ↦ hle b r ((h.instances b inst hb).memory r hr),
      fun r hr ↦ hle b r ((h.instances b inst hb).manifest r hr)⟩
  objects n m hm r hr := hle n.branch r (h.objects n m hm r hr)

/-- Only the instances and the objects matter, and objects may go. -/
theorem of_subset (h : x.RangesIn D) (hinst : y.instances = x.instances)
    (hobj : ∀ o ∈ y.objects, o ∈ x.objects) : y.RangesIn D where
  branch b inst hb := h.branch b inst (hinst ▸ hb)
  instances b inst hb := h.instances b inst (hinst ▸ hb)
  objects n m hm := h.objects n m (hobj _ hm)

theorem withInstance (h : x.RangesIn D) {b : BranchName} (inst : Traced) (hb : IsNormalized b)
    (hbranch : inst.part.activeBranch = b) (hinst : inst.part.RangesIn (D b)) :
    (x.withInstance b inst).RangesIn D := by
  have hcases : ∀ b' inst', (x.withInstance b inst).instances b' = some inst' →
      b' = b ∧ inst' = inst ∨ x.instances b' = some inst' := fun b' inst' h' ↦ by
    rw [Shared.withInstance] at h'
    dsimp only at h'
    split at h'
    · next heq => exact .inl ⟨heq, (some.inj h').symm⟩
    · exact .inr h'
  refine ⟨fun b' inst' h' ↦ ?_, fun b' inst' h' ↦ ?_, h.objects⟩
  · obtain ⟨rfl, rfl⟩ | h' := hcases b' inst' h'
    · exact ⟨hb, hbranch⟩
    · exact h.branch b' inst' h'
  · obtain ⟨rfl, rfl⟩ | h' := hcases b' inst' h'
    · exact hinst
    · exact h.instances b' inst' h'

theorem store (h : x.RangesIn D) {n : ManifestName} {m? : Option Manifest}
    (hm : ∀ r ∈ (durable m?).ranges, D n.branch r) : (x.store n m?).RangesIn D := by
  cases m? with
  | none => exact h
  | some m =>
    refine ⟨h.branch, h.instances, fun n' m' hm' ↦ ?_⟩
    rcases mem_putObject.1 hm' with ⟨-, hm'⟩ | ⟨rfl, rfl⟩
    · exact h.objects n' m' hm'
    · exact hm

theorem start (term : ℕ) : (start mainBranchName term).RangesIn D where
  branch b inst hb := by
    obtain ⟨heq, hb⟩ := ite_none_right_eq_some.1 hb
    rw [← some.inj hb, heq]
    exact ⟨by decide, rfl⟩
  instances b inst hb := by
    obtain ⟨-, rfl⟩ := ite_some_none_eq_some.1 hb
    exact .ofBranch _ _ none fun r hr ↦ absurd hr (by simp [durable, Replayer.ranges])
  objects _ _ hm := absurd hm (by simp [Shared.start])

/-- What a new instance loads is an object, or its own manifest. -/
theorem of_loads (h : x.RangesIn D) {b : BranchName} {inst : Traced}
    (hb : x.instances b = some inst)
    {term : ℕ} {uploaded : Bool} {o : ManifestName × Manifest}
    (ho : x.loads opts inst.part term uploaded = some (some o)) :
    ∀ r ∈ (replay o.2).ranges, D o.1.branch r := by
  unfold loads at ho
  split at ho
  · split at ho
    · obtain ⟨o', hfind, heq⟩ := map_eq_some_iff.1 ho
      cases heq
      exact h.objects o.1 o.2 (mem_of_find?_eq_some hfind)
    all_goals cases ho
  · obtain ⟨m, hm, rfl⟩ := map_eq_some_iff.1 (some.inj ho)
    intro r hr
    rw [show inst.part.ownManifest.branch = b from (h.branch b inst hb).2]
    refine (h.instances b inst hb).manifest r ?_
    rw [hm]
    exact hr

/-- **An event hands ranges down to a fork, or to the loader of a manifest**; an instance adds its
own. -/
theorem run {collector : BranchName} {e : SharedEvent} (h : x.RangesIn D)
    (hown : ∀ b r, IsNormalized b → r.branchName = b → D b r) (hnamed : e.WellNamed)
    (hdown : ∀ parent child, e.handsDown opts x = some (parent, child) →
      ∀ r, D parent r → D child r)
    (hrun : e.run opts collector x = some y) : y.RangesIn D := by
  cases e with
  | write b e =>
    obtain ⟨hguard, hrun⟩ := ite_none_right_eq_some.1 hrun
    obtain ⟨inst, hb, hrun⟩ := bind_eq_some_iff.1 hrun
    obtain ⟨inst', hinst', rfl⟩ := map_eq_some_iff.1 hrun
    obtain ⟨hnorm, hbranch⟩ := h.branch b inst hb
    have hname : ∀ r : BranchFileRange, r.owner = inst.part.owner → D b r := fun r hr ↦
      hown b r hnorm ((congrArg Owner.branchName hr).trans hbranch)
    obtain ⟨hranges, howner⟩ := (h.instances b inst hb).write hname hguard.1 hinst'
    have hbranch' : inst'.part.activeBranch = b :=
      (congrArg Owner.branchName howner).trans hbranch
    have hnext := h.withInstance inst' hnorm hbranch' hranges
    have hman : ∀ r ∈ (durable inst'.part.manifest).ranges,
        D inst'.part.ownManifest.branch r := fun r hr ↦ by
      rw [show inst'.part.ownManifest.branch = b from hbranch']
      exact hranges.manifest r hr
    split
    · exact hnext.of_subset rfl fun _ ho ↦ ho
    · refine store ?_ hman
      exact hnext.of_subset rfl fun _ ho ↦ ho
  | restart b term uploaded =>
    obtain ⟨-, hrun⟩ := ite_none_right_eq_some.1 hrun
    obtain ⟨inst, hb, hrun⟩ := bind_eq_some_iff.1 hrun
    obtain ⟨-, hrun⟩ := ite_none_right_eq_some.1 hrun
    obtain ⟨o?, ho, rfl⟩ := map_eq_some_iff.1 hrun
    obtain ⟨hnorm, rfl⟩ := h.branch b inst hb
    have hman : ∀ r ∈ (durable (o?.map (·.2))).ranges, D inst.part.activeBranch r := by
      cases o? with
      | none => simp [durable, Replayer.ranges]
      | some o =>
        have hgiven : (restart inst.part.activeBranch term uploaded).handsDown opts x =
            some (o.1.branch, inst.part.activeBranch) := by
          simp [handsDown, hb, ho]
        exact fun r hr ↦ hdown _ _ hgiven r (h.of_loads hb ho r hr)
    have hnext := h.withInstance { inst with part := .ofBranch inst.part.activeBranch _ _ } hnorm
      rfl (.ofBranch _ (opts.runTerm term) _ hman)
    exact (hnext.store hman).of_subset rfl fun _ ho ↦ ho
  | fork b child =>
    obtain ⟨-, hrun⟩ := ite_none_right_eq_some.1 hrun
    obtain ⟨inst, hb, hrun⟩ := bind_eq_some_iff.1 hrun
    obtain ⟨-, rfl⟩ := ite_some_none_eq_some.1 hrun
    have hman : ∀ r ∈ (durable (inst.part.branchManifest opts child
        inst.part.branchFileMapping)).ranges, D child r := fun r hr ↦
      hdown b child rfl r ((h.instances b inst hb).memory r (mem_of_mem_branchManifest hr))
    exact (h.withInstance { inst with part := .ofBranch child 0 _ } hnamed rfl
      (.ofBranch _ _ _ hman)).store hman
  | archive b tag =>
    obtain ⟨-, hrun⟩ := ite_none_right_eq_some.1 hrun
    obtain ⟨inst, hb, hrun⟩ := bind_eq_some_iff.1 hrun
    obtain ⟨-, rfl⟩ := ite_some_none_eq_some.1 hrun
    exact h.store fun r hr ↦
      (h.instances b inst hb).memory r (mem_of_mem_archiveManifest hr)
  | deleteObject n =>
    cases hrun
    exact h.of_subset rfl fun _ ho ↦ (mem_filter.1 ho).1
  | pin b =>
    obtain ⟨inst, -, rfl⟩ := map_eq_some_iff.1 hrun
    exact h.of_subset rfl fun _ ho ↦ ho
  | unpin i | stop =>
    cases hrun
    exact h.of_subset rfl fun _ ho ↦ ho
  | trigger kind =>
    obtain ⟨inst, -, hrun⟩ := bind_eq_some_iff.1 hrun
    obtain ⟨-, rfl⟩ := ite_some_none_eq_some.1 hrun
    exact h.of_subset rfl fun _ ho ↦ ho
  | list termFile =>
    simp only [SharedEvent.run] at hrun
    split at hrun
    · split at hrun
      all_goals
        cases hrun
        exact h.of_subset rfl fun _ ho ↦ ho
    · cases hrun
  | read =>
    simp only [SharedEvent.run] at hrun
    split at hrun
    · split at hrun
      · cases hrun
        exact h.of_subset rfl fun _ ho ↦ ho
      · split at hrun
        all_goals
          cases hrun
          exact h.of_subset rfl fun _ ho ↦ ho
    · cases hrun
  | delete =>
    simp only [SharedEvent.run] at hrun
    split at hrun
    · cases hrun
      exact h.of_subset rfl fun _ ho ↦ ho
    · cases hrun

end Shared.RangesIn

/-! ### Runs -/

/-- A range names the branch itself, or one of its ancestors. -/
def Forest.Descends (x : Forest) (b : BranchName) (r : BranchFileRange) : Prop :=
  IsNormalized r.branchName ∧ (r.branchName = b ∨ r.branchName ∈ x.ancestors b)

theorem Forest.mem_ancestorsAfter (x : Forest) (e : SharedEvent) {a b : BranchName}
    (h : a ∈ x.ancestors b) : a ∈ x.ancestorsAfter opts e b := by
  unfold Forest.ancestorsAfter
  split
  · split
    · next heq =>
      subst heq
      exact mem_cons_of_mem _ (mem_append_right _ h)
    · exact h
  · exact h

/-- Who gets ranges has the ancestors of the branch that hands them down, and that branch. -/
theorem Forest.mem_ancestorsAfter_child (x : Forest) {e : SharedEvent} {a parent child : BranchName}
    (he : e.handsDown opts x.shared = some (parent, child))
    (h : a = parent ∨ a ∈ x.ancestorsAfter opts e parent) :
    a ∈ x.ancestorsAfter opts e child := by
  unfold Forest.ancestorsAfter at h ⊢
  rw [he] at h ⊢
  dsimp only at h ⊢
  rw [if_pos rfl]
  rcases h with rfl | h
  · exact mem_cons_self
  · split at h
    · exact h
    · exact mem_cons_of_mem _ (mem_append_left _ h)

/-- A deletion changes no instance and stores nothing. -/
theorem Shared.deleteBranch_frame (opts : KvOptions) (x : Shared) (active name : BranchName)
    (termFile : Option ℕ) (failed : FailedDeletions) :
    (x.deleteBranch opts active name termFile failed).instances = x.instances ∧
      ∀ o ∈ (x.deleteBranch opts active name termFile failed).objects, o ∈ x.objects := by
  unfold deleteBranch deleteBranchFiles
  dsimp only
  split
  · exact ⟨rfl, fun _ ho ↦ ho⟩
  · split
    · exact ⟨rfl, fun _ ho ↦ (mem_filter.1 ho).1⟩
    · exact ⟨rfl, fun _ ho ↦ (mem_filter.1 ho).1⟩

/-- **What a deletion can take**: with an object store, a data file of the branch. -/
theorem Shared.mem_files_deleteBranch {x : Shared} {active name : BranchName} {termFile : Option ℕ}
    {failed : FailedDeletions} {f : FileName} (hf : f ∈ x.files)
    (h : deriveStoreMode opts = .cloud → selectsFile (normalizeBranchName name) f = false) :
    f ∈ (x.deleteBranch opts active name termFile failed).files := by
  unfold deleteBranch deleteBranchFiles
  dsimp only
  split
  · exact hf
  · split
    · next hcloud => exact mem_filter.2 ⟨hf, by rw [h hcloud]; rfl⟩
    · exact hf

theorem ForestRuns.rangesIn {collector : BranchName} {term : ℕ} {x : Forest}
    (h : ForestRuns opts collector (.start term) x) : x.shared.RangesIn x.Descends := by
  refine h.invariant (fun x ↦ x.shared.RangesIn x.Descends) (.start term) ?_
  intro x e y hx _ hrun
  cases e with
  | act e =>
    obtain ⟨hnamed, hrun⟩ := ite_none_right_eq_some.1 hrun
    obtain ⟨z, hz, rfl⟩ := map_eq_some_iff.1 hrun
    have hx' : x.shared.RangesIn (Forest.Descends ⟨z, x.ancestorsAfter opts e⟩) :=
      hx.mono fun b r hr ↦ ⟨hr.1, hr.2.imp_right (x.mem_ancestorsAfter e)⟩
    exact hx'.run (fun b r hb hr ↦ ⟨hr ▸ hb, .inl hr⟩) hnamed
      (fun parent child he r hr ↦ ⟨hr.1, .inr (x.mem_ancestorsAfter_child he hr.2)⟩) hz
  | deleteBranch active name termFile failed =>
    cases hrun
    obtain ⟨hinst, hobj⟩ := x.shared.deleteBranch_frame opts active name termFile failed
    exact hx.of_subset hinst hobj

/-- A file a manifest refers to belongs to a branch its ranges name. -/
theorem Replayer.exists_range_of_mem_files {r : Replayer} {f : FileName} (h : f ∈ r.files opts) :
    ∃ b ∈ r.ranges, b.branchName = f.owner.branchName := by
  obtain ⟨c, q, fp, -, hf⟩ := mem_files.1 h
  obtain ⟨-, howner⟩ := pageFile_eq_some.1 hf
  obtain ⟨b, hb, hbo⟩ := map_eq_some_iff.1 howner
  exact ⟨b, mem_of_getElem? hb, congrArg Owner.branchName hbo⟩

/-- **Deleting a branch takes no file of a branch that remains**, after any run, if with an object
store no branch that remains descends from it. -/
theorem deleteBranch_keeps_files (opts : KvOptions) {collector : BranchName} {term : ℕ}
    {x : Forest} (hrun : ForestRuns opts collector (.start term) x) (active name : BranchName)
    (termFile : Option ℕ) (failed : FailedDeletions)
    (hchildless : deriveStoreMode opts = .cloud → x.Childless (normalizeBranchName name)) :
    ∀ o ∈ (x.shared.deleteBranch opts active name termFile failed).objects,
      o.1.branch ≠ normalizeBranchName name → ∀ f ∈ (replay o.2).files opts,
        f ∈ x.shared.files →
          f ∈ (x.shared.deleteBranch opts active name termFile failed).files := by
  rintro ⟨n, m⟩ ho hne f hf hfile
  refine mem_files_deleteBranch hfile fun hcloud ↦ ?_
  have ho' := (x.shared.deleteBranch_frame opts active name termFile failed).2 _ ho
  obtain ⟨r, hr, hname⟩ := exists_range_of_mem_files hf
  obtain ⟨hnorm, hdesc⟩ := hrun.rangesIn.objects n m ho' r hr
  rw [hname] at hnorm hdesc
  by_contra hsel
  rw [Bool.not_eq_false, selectsFile, Bool.and_eq_true, decide_eq_true_eq] at hsel
  have hbranch := branch_of_branchMarker (separator_notMem_normalizeBranchName name) hnorm hsel.2
  -- the file is the deleted branch's, so the manifest's branch descends from it
  rw [hbranch] at hdesc
  rcases hdesc with heq | hmem
  · exact hne heq.symm
  · exact hchildless hcloud (n, m) ho' hne hmem

/-- `main` writes a page, `dev` is forked from it and writes a page, and `feature` is forked from
`dev`. -/
def grandchildRun : List ForestEvent :=
  (commits "main" [.allocatePage none, .setRoots (some 0) none 0] ++
    fork "main" "dev" ::
    commits "dev" [.allocatePage none] ++ [fork "dev" "feature"]).map .act

/-- No branch was forked from `feature`, so its deletion leaves the files of `dev` in place. -/
theorem deleteBranch_keeps_files_of_parent : ∃ x f,
    ForestRuns cloudOptions "main" (.start 1) x ∧ f = ⟨⟨.data, 1⟩, ⟨"dev", 0⟩⟩ ∧
      f ∈ (x.shared.deleteBranch cloudOptions "main" "feature" none {}).files := by
  obtain ⟨x, hrun, hchildless, hfile, o, ho, hne, hf⟩ : ∃ x,
      ForestRuns cloudOptions "main" (.start 1) x ∧ x.Childless (normalizeBranchName "feature") ∧
      ⟨⟨.data, 1⟩, ⟨"dev", 0⟩⟩ ∈ x.shared.files ∧
      ∃ o ∈ (x.shared.deleteBranch cloudOptions "main" "feature" none {}).objects,
        o.1.branch ≠ normalizeBranchName "feature" ∧
        ⟨⟨.data, 1⟩, ⟨"dev", 0⟩⟩ ∈ (replay o.2).files cloudOptions :=
    exists_reach_of_exec grandchildRun (by decide +kernel)
  exact ⟨x, _, hrun, rfl, deleteBranch_keeps_files cloudOptions hrun "main" "feature" none {}
    (fun _ ↦ hchildless) o ho hne _ hf hfile⟩

/-- **A grandchild loses its files.** With an object store, deleting `dev` takes the data file that
`dev` wrote, to which the manifest of `feature` refers. -/
theorem deleteBranch_takes_file_of_child : ∃ x n m f,
    ForestRuns cloudOptions "main" (.start 1) x ∧
      (n, m) ∈ (x.shared.deleteBranch cloudOptions "main" "dev" none {}).objects ∧
      n = ⟨"feature", 0, none⟩ ∧ f ∈ (replay m).files cloudOptions ∧ f ∈ x.shared.files ∧
      f ∉ (x.shared.deleteBranch cloudOptions "main" "dev" none {}).files := by
  obtain ⟨x, hrun, ⟨n, m⟩, ho, hn, f, hf, hfile, hgone⟩ : ∃ x,
      ForestRuns cloudOptions "main" (.start 1) x ∧
      ∃ o ∈ (x.shared.deleteBranch cloudOptions "main" "dev" none {}).objects,
        o.1 = ⟨"feature", 0, none⟩ ∧ ∃ f ∈ (replay o.2).files cloudOptions, f ∈ x.shared.files ∧
        f ∉ (x.shared.deleteBranch cloudOptions "main" "dev" none {}).files :=
    exists_reach_of_exec grandchildRun (by decide +kernel)
  exact ⟨x, n, m, f, hrun, ho, hn, hf, hfile, hgone⟩

end EloqStore
