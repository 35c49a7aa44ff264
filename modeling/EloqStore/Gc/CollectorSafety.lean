import EloqStore.Gc.SharedPartition

/-!
# A collector deletes nothing that is needed

In every careful run of a partition that branches share, the collector deletes no file that a live
mapping, a manifest, an archive or an uncommitted write needs (`deletes_nothing_needed`).

A manifest that the collector has read may have been succeeded by another one when it deletes. The
argument is about **floors**: for each other branch, `base` is the maximum its manifest records,
until the collector has read that manifest, and stays what it was at that moment from then on. Every
guard the collector builds lies at or below the floor, and everything the branch commits or writes
later lies at or above it (`Floors`).
-/

namespace EloqStore

open List Option EloqStore.Partition Replayer SharedEvent Transition CollectorKind Owner Collected
open BranchGuardMap

/-! ### Guards and floors -/

/-- A guard is at or below a term and, for each class, a file id. -/
def BranchGuard.Below (g : BranchGuard) (term : ℕ) (base : FileClass → ℕ) : Prop :=
  g.newestTerm ≤ term ∧ ∀ c, g.least c ≤ base c

variable {r : BranchFileRange} {b : BranchName} {acc : Collected} {f : FileName}
  {inst inst' : Traced} {kind : CollectorKind} {names : List ManifestName}

/-- Taking in a range below the floor keeps a guard below it. -/
theorem BranchGuard.Below.fold {g? : Option BranchGuard} {term : ℕ} {base : FileClass → ℕ}
    (hg : ∀ g, g? = some g → g.Below term base) (hterm : r.term ≤ term)
    (hmax : ∀ c, r.maxOf c ≤ base c) :
    (BranchGuard.fold g? r).Below term base := by
  have hnew : (⟨r.term, r.maxFileId, r.maxSegmentFileId⟩ : BranchGuard).Below term base := by
    refine ⟨hterm, fun c ↦ ?_⟩
    cases c with
    | data => exact hmax .data
    | segment => exact hmax .segment
  cases g? with
  | none => exact hnew
  | some g =>
    obtain ⟨hgterm, hgmax⟩ := hg g rfl
    unfold BranchGuard.fold
    dsimp only
    split
    · exact hnew
    · split
      · refine ⟨hgterm, fun c ↦ ?_⟩
        cases c with
        | data => exact Nat.max_le.2 ⟨hgmax .data, hmax .data⟩
        | segment => exact Nat.max_le.2 ⟨hgmax .segment, hmax .segment⟩
      · exact ⟨hgterm, hgmax⟩

/-- **Taking in a manifest keeps a branch's guard below the floor**, if the manifest's ranges of the
branch are. -/
theorem BranchGuardMap.below_foldl {term : ℕ} {base : FileClass → ℕ} {ranges : BranchFileMapping}
    {guards : BranchGuardMap} (hg : ∀ g, guards b = some g → g.Below term base)
    (hr : ∀ r ∈ ranges, r.branchName = b → r.term ≤ term ∧ ∀ c, r.maxOf c ≤ base c) :
    ∀ g, ranges.foldl fold guards b = some g → g.Below term base := by
  induction ranges generalizing guards with
  | nil => exact hg
  | cons r ranges ih =>
    refine ih (fun g hg' ↦ ?_) fun r' hr' ↦ hr r' (mem_cons_of_mem _ hr')
    rw [fold] at hg'
    split at hg'
    · next hb =>
      obtain ⟨hterm, hmax⟩ := hr r (by simp) hb.symm
      cases hg'
      exact .fold hg hterm hmax
    · exact hg g hg'

/-- **A file at or above the floor is kept.** -/
theorem Collected.keeps_of_below {collector : BranchName} (base : FileClass → ℕ)
    (hne : f.owner.branchName ≠ collector)
    (hg : ∀ g, acc.guards f.owner.branchName = some g → g.Below f.owner.term base)
    (hle : base f.fid.cls ≤ f.fid.fileId) : acc.keeps collector f = true := by
  rw [keeps, Bool.or_eq_true]
  refine .inr ?_
  cases hguard : acc.guards f.owner.branchName with
  | none => exact decide_eq_true hne
  | some g =>
    obtain ⟨hterm, hmax⟩ := hg g hguard
    exact Bool.and_eq_true_iff.2
      ⟨decide_eq_true hterm, decide_eq_true ((hmax f.fid.cls).trans hle)⟩

/-! ### The invariant -/

/-- Every file page of a mapping resolves. -/
def Pin.Resolves (opts : KvOptions) (p : Pin) (ranges : BranchFileMapping) : Prop :=
  ∀ q fp, p.tbl.toFilePage q = some fp → ∃ f, pageFile opts ranges p.cls fp = some f

/-- A mapping that is alive resolves, in an instance with a cached root. -/
def Shared.Resolves (opts : KvOptions) (x : Shared) (p : Pin) : Prop :=
  ∃ inst, x.instances p.branch = some inst ∧ inst.part.mappers ≠ none ∧
    p.Resolves opts inst.part.branchFileMapping

/-- **The floor of a branch** while a scan has the named manifests still to read. -/
structure Floor (x : Shared) (acc : Collected) (names : List ManifestName) (b : BranchName)
    (inst : Traced) (base : FileClass → ℕ) : Prop where
  guards : ∀ g, acc.guards b = some g → g.Below inst.part.processTerm base
  /-- The floor is at or below what is committed. -/
  le : ∀ c, base c ≤ inst.committedMax c
  /-- It follows the branch until its manifest is read. -/
  own : inst.part.ownManifest ∈ names → base = inst.committedMax
  /-- What other manifests, still to be read, say of the branch lies at or below the floor. -/
  unread : ∀ n ∈ names, n ≠ inst.part.ownManifest → ∀ m, (n, m) ∈ x.objects →
    ∀ r ∈ (replay m).ranges, r.branchName = b → ∀ c, r.maxOf c ≤ base c

/-- **The floors of a scan**, of all branches but the collector's. -/
structure Floors (opts : KvOptions) (collector : BranchName) (x : Shared) (acc : Collected)
    (names : List ManifestName) (base : BranchName → FileClass → ℕ) : Prop where
  floor : ∀ {b inst}, b ≠ collector → x.instances b = some inst →
    Floor x acc names b inst (base b)
  /-- The files of what has been read are retained, or a branch has committed them since. -/
  read : ∀ n m, (n, m) ∈ x.objects → n ∉ names → ∀ f ∈ (replay m).files opts,
    f ∈ acc.retained ∨ ∃ inst, n.branch ≠ collector ∧ x.instances n.branch = some inst ∧
      n = inst.part.ownManifest ∧ f.owner = inst.part.owner ∧
      base n.branch f.fid.cls ≤ f.fid.fileId

/-- A scan under way. -/
structure Scanning (opts : KvOptions) (collector : BranchName) (x : Shared) (acc : Collected)
    (names : List ManifestName) : Prop where
  idle : ∃ inst, x.instances collector = some inst ∧ inst.part.task = none
  /-- The files of live mappings are retained, or the manifest of their branch refers to them. -/
  pins : ∀ p ∈ x.pins, ∀ f ∈ x.pinFiles opts p, f ∈ acc.retained ∨
    ∃ inst, x.instances p.branch = some inst ∧ f ∈ (durable inst.part.manifest).files opts
  floors : ∃ base, Floors opts collector x acc names base

/-- What holds of a collection under way. -/
def PhaseInv (opts : KvOptions) (collector : BranchName) (x : Shared) : GcPhase → Prop
  | .idle => True
  | .built kind retained => ∃ inst, x.instances collector = some inst ∧ inst.part.task = none ∧
      ∀ p ∈ x.pins, kind.gathers collector p = true → ∀ f ∈ x.pinFiles opts p,
        f ∈ retained ∨ f ∈ (durable inst.part.manifest).files opts
  | .scanning _ acc names _ => Scanning opts collector x acc names

/-- **An instance in order**, whose branch has this name. -/
structure InstanceInv (opts : KvOptions) (b : BranchName) (inst : Traced) : Prop where
  /-- It names its files as its readers will. -/
  traced : TraceInv opts inst
  /-- What it has in memory follows its manifest. -/
  commits : CommitInv opts inst
  branch : inst.part.activeBranch = b

/-- **The branches of a partition in order.** -/
structure BranchesInv (opts : KvOptions) (x : Shared) : Prop where
  inst : ∀ {b inst}, x.instances b = some inst → InstanceInv opts b inst
  /-- The manifest of an instance is the one stored. -/
  synced : ∀ {b inst}, x.instances b = some inst →
    ∀ m, (inst.part.ownManifest, m) ∈ x.objects ↔ inst.part.manifest = some m
  unique : ∀ n m m', (n, m) ∈ x.objects → (n, m') ∈ x.objects → m = m'
  /-- No manifest is of a later term than the instance of its branch. -/
  terms : ∀ n m, (n, m) ∈ x.objects → n.tag = none →
    ∃ inst, x.instances n.branch = some inst ∧ n.term ≤ inst.part.processTerm
  /-- No range is ahead of what its branch has committed. -/
  ranged : ∀ n m, (n, m) ∈ x.objects → ∀ r ∈ (replay m).ranges,
    ∃ inst, x.instances r.branchName = some inst ∧ r.term ≤ inst.part.processTerm ∧
      ∀ c, r.maxOf c ≤ inst.committedMax c
  pinned : ∀ p ∈ x.pins, x.Resolves opts p

/-- **The invariant of a shared partition.** -/
structure SharedInv (opts : KvOptions) (collector : BranchName) (x : Shared) : Prop
    extends BranchesInv opts x where
  phase : PhaseInv opts collector x x.phase

variable {opts : KvOptions} {collector : BranchName} {x y : Shared}

/-- The first name has been read, with what the guards then are. -/
theorem Floor.tail {n : ManifestName} {acc' : Collected} {base : FileClass → ℕ}
    (h : Floor x acc (n :: names) b inst base)
    (hguards : ∀ g, acc'.guards b = some g → g.Below inst.part.processTerm base) :
    Floor x acc' names b inst base :=
  ⟨hguards, h.le, fun hn ↦ h.own (mem_cons_of_mem _ hn),
    fun n hn ↦ h.unread n (mem_cons_of_mem _ hn)⟩

/-! ### What the invariant keeps from deletion -/

namespace BranchesInv

variable (h : BranchesInv opts x) (hb : x.instances b = some inst)

include h hb

/-- What is so of the manifest of an instance is so of a stored manifest. -/
theorem object_of_durable {P : Replayer → Prop} (hnone : ¬P (durable none))
    (hP : P (durable inst.part.manifest)) :
    ∃ m, (inst.part.ownManifest, m) ∈ x.objects ∧ P (replay m) := by
  cases hman : inst.part.manifest with
  | none => exact absurd (hman ▸ hP) hnone
  | some m => exact ⟨m, (h.synced hb m).2 hman, by simpa [hman, durable] using hP⟩

theorem object_of_file (hf : f ∈ (durable inst.part.manifest).files opts) :
    ∃ m, (inst.part.ownManifest, m) ∈ x.objects ∧ f ∈ (replay m).files opts :=
  h.object_of_durable hb (P := (f ∈ ·.files opts))
    (by simp [durable, files, getRetainedFiles, MappingTbl.mapped]) hf

theorem object_of_range (hr : r ∈ (durable inst.part.manifest).ranges) :
    ∃ m, (inst.part.ownManifest, m) ∈ x.objects ∧ r ∈ (replay m).ranges :=
  h.object_of_durable hb (P := (r ∈ ·.ranges)) (by simp [durable, Replayer.ranges]) hr

/-- The files of the published mappings are the manifest's. -/
theorem files_published {p : Pin} (hp : p ∈ inst.part.published) :
    p.branch = b ∧ p.Resolves opts inst.part.branchFileMapping ∧ inst.part.mappers ≠ none ∧
      ∀ f ∈ x.pinFiles opts p, f ∈ (durable inst.part.manifest).files opts := by
  obtain ⟨c, -, hc⟩ := mem_filterMap.1 hp
  obtain ⟨m, hm, rfl⟩ := map_eq_some_iff.1 hc
  obtain ⟨htraced, hcommits, hbranch⟩ := h.inst hb
  have hlive : ∀ q fp, m.tbl.toFilePage q = some fp →
      denote (inst.part.liveMapper c) q = some fp := by
    intro q fp hq
    rw [hm]
    exact hq
  refine ⟨hbranch, fun q fp hq ↦ ?_, fun hnone ↦ ?_, fun f hf ↦ ?_⟩
  · obtain ⟨w, -, hres⟩ := htraced.found (hlive q fp hq)
    exact ⟨⟨_, w⟩, pageFile_eq_some.2 ⟨rfl, hres⟩⟩
  · rw [liveMapper_of_none hnone] at hm
    cases hm
  · rw [Shared.pinFiles, hbranch, hb] at hf
    obtain ⟨q, fp, hq, hpage⟩ := mem_getRetainedFiles.1 hf
    exact hcommits.mem_files htraced (hlive q fp hq) hpage

end BranchesInv

theorem Floors.keeps {base : BranchName → FileClass → ℕ} (h : BranchesInv opts x)
    (hfloors : Floors opts collector x acc [] base) {n : ManifestName} {m : Manifest}
    (ho : (n, m) ∈ x.objects) (hf : f ∈ (replay m).files opts) : acc.keeps collector f = true := by
  rcases hfloors.read n m ho (by simp) f hf with hret | ⟨inst, hne, hb, -, howner, hle⟩
  · exact keeps_of_mem hret collector
  · have hbranch : f.owner.branchName = n.branch := by
      rw [howner]
      exact (h.inst hb).branch
    refine keeps_of_below (base n.branch) (hbranch ▸ hne) (fun g hg ↦ ?_) hle
    rw [howner]
    exact (hfloors.floor hne hb).guards g (hbranch ▸ hg)

/-- **What is needed is kept**, once every listed manifest has been read. -/
theorem Scanning.keeps (h : BranchesInv opts x) (hscan : Scanning opts collector x acc [])
    (hneed : x.Needed opts f) : acc.keeps collector f = true := by
  obtain ⟨base, hfloors⟩ := hscan.floors
  have hdurable : ∀ b inst, x.instances b = some inst →
      f ∈ (durable inst.part.manifest).files opts → acc.keeps collector f = true := by
    intro b inst hb hf
    obtain ⟨m, ho, hm⟩ := h.object_of_file hb hf
    exact hfloors.keeps h ho hm
  cases hneed with
  | pinned p hp hf =>
    rcases hscan.pins p hp f hf with hret | ⟨inst, hb, hman⟩
    · exact keeps_of_mem hret collector
    · exact hdurable p.branch inst hb hman
  | published b inst hb p hp hf =>
    obtain ⟨-, -, -, hfiles⟩ := h.files_published hb hp
    exact hdurable b inst hb (hfiles f hf)
  | manifest n m ho hf => exact hfloors.keeps h ho hf
  | inFlight inst t hb ht howner hmax =>
    -- the collector's own instance writes nothing
    have hne : f.owner.branchName ≠ collector := by
      intro heq
      obtain ⟨inst', hb', hidle⟩ := hscan.idle
      rw [heq, hb'] at hb
      cases hb
      simp [hidle] at ht
    refine keeps_of_below (base f.owner.branchName) hne (fun g hg ↦ ?_)
      (((hfloors.floor hne hb).le f.fid.cls).trans hmax)
    have hterm : inst.part.processTerm = f.owner.term := congrArg term howner
    exact hterm ▸ (hfloors.floor hne hb).guards g hg

/-! ### An instance changes -/

/-- The instance of a branch is replaced, and its manifest stored. -/
structure Replaced (x y : Shared) (b : BranchName) (inst' : Traced) : Prop where
  self : y.instances b = some inst'
  other : ∀ b', b' ≠ b → y.instances b' = x.instances b'
  objects : ∀ n m, (n, m) ∈ y.objects ↔ n ≠ inst'.part.ownManifest ∧ (n, m) ∈ x.objects ∨
    n = inst'.part.ownManifest ∧ inst'.part.manifest = some m

theorem Shared.mem_store {n n₀ : ManifestName} {m : Manifest} {m? : Option Manifest}
    (hnone : m? = none → ∀ m, (n₀, m) ∉ x.objects) :
    (n, m) ∈ (x.store n₀ m?).objects ↔
      n ≠ n₀ ∧ (n, m) ∈ x.objects ∨ n = n₀ ∧ m? = some m := by
  cases m? with
  | none =>
    refine ⟨fun ho ↦ .inl ⟨?_, ho⟩, by simp [Shared.store]⟩
    rintro rfl
    exact hnone rfl m ho
  | some m' => exact mem_putObject.trans (by simp [eq_comm])

theorem Replaced.cases {b' : BranchName} (h : Replaced x y b inst')
    (hb : y.instances b' = some inst) :
    b' = b ∧ inst = inst' ∨ b' ≠ b ∧ x.instances b' = some inst := by
  by_cases hne : b' = b
  · rw [hne, h.self] at hb
    exact .inl ⟨hne, (some.inj hb).symm⟩
  · exact .inr ⟨hne, h.other b' hne ▸ hb⟩

theorem Replaced.pinFiles (h : Replaced x y b inst') {p : Pin} (hp : p.branch ≠ b) :
    y.pinFiles opts p = x.pinFiles opts p := by
  rw [Shared.pinFiles, Shared.pinFiles, h.other _ hp]

/-- What a new instance must have, to take the place of the one before. -/
structure Follows (opts : KvOptions) (x : Shared) (b : BranchName) (inst' : Traced) : Prop
    extends InstanceInv opts b inst' where
  /-- Its term and its committed maxima are not below those of the one before. -/
  ahead : ∀ inst, x.instances b = some inst → inst.part.processTerm ≤ inst'.part.processTerm ∧
    ∀ c, inst.committedMax c ≤ inst'.committedMax c
  ranges : ∀ r ∈ (durable inst'.part.manifest).ranges,
    r.branchName = b ∧ r.term ≤ inst'.part.processTerm ∨
      ∃ n m, (n, m) ∈ x.objects ∧ r ∈ (replay m).ranges

/-- No branch falls back. -/
theorem Replaced.ahead {b' : BranchName} (hr : Replaced x y b inst') (hf : Follows opts x b inst')
    (hb : x.instances b' = some inst) :
    ∃ inst₁, y.instances b' = some inst₁ ∧ inst.part.processTerm ≤ inst₁.part.processTerm ∧
      ∀ c, inst.committedMax c ≤ inst₁.committedMax c := by
  by_cases hne : b' = b
  · subst hne
    exact ⟨inst', hr.self, hf.ahead inst hb⟩
  · exact ⟨inst, (hr.other b' hne).trans hb, le_rfl, fun _ ↦ le_rfl⟩

/-- A name is stored at most once after an object has been stored. -/
theorem unique_of_stored {n₀ : ManifestName} {m? : Option Manifest}
    {l l' : List (ManifestName × Manifest)}
    (h : ∀ n m m', (n, m) ∈ l → (n, m') ∈ l → m = m')
    (hl : ∀ n m, (n, m) ∈ l' ↔ n ≠ n₀ ∧ (n, m) ∈ l ∨ n = n₀ ∧ m? = some m) :
    ∀ n m m', (n, m) ∈ l' → (n, m') ∈ l' → m = m' := by
  intro n m m' hm hm'
  rcases (hl n m).1 hm with ⟨hne, hm⟩ | ⟨heq, hm⟩
  · rcases (hl n m').1 hm' with ⟨-, hm'⟩ | ⟨heq, -⟩
    · exact h n m m' hm hm'
    · exact absurd heq hne
  · rcases (hl n m').1 hm' with ⟨hne, -⟩ | ⟨-, hm'⟩
    · exact absurd heq hne
    · exact some.inj (hm.symm.trans hm')

/-- **The branches stay in order when an instance is replaced by one that follows it.** -/
theorem BranchesInv.replace (h : BranchesInv opts x) (hr : Replaced x y b inst')
    (hf : Follows opts x b inst') (hpins : ∀ p ∈ y.pins, y.Resolves opts p) :
    BranchesInv opts y where
  inst {b' inst} hb' := by
    rcases hr.cases hb' with ⟨rfl, rfl⟩ | ⟨-, hb'⟩
    · exact hf.toInstanceInv
    · exact h.inst hb'
  synced {b' inst} hb' m := by
    rcases hr.cases hb' with ⟨rfl, rfl⟩ | ⟨hne, hb'⟩
    · simp [hr.objects]
    · have hown : inst.part.ownManifest ≠ inst'.part.ownManifest := by
        intro heq
        refine hne ?_
        rw [← (h.inst hb').branch, ← hf.branch]
        exact congrArg ManifestName.branch heq
      simp [hr.objects, hown, h.synced hb']
  unique := unique_of_stored h.unique hr.objects
  terms n m ho htag := by
    rcases (hr.objects n m).1 ho with ⟨-, ho⟩ | ⟨rfl, -⟩
    · obtain ⟨inst, hb', hle⟩ := h.terms n m ho htag
      obtain ⟨inst₁, hb₁, hterm, -⟩ := hr.ahead hf hb'
      exact ⟨inst₁, hb₁, hle.trans hterm⟩
    · refine ⟨inst', ?_, le_rfl⟩
      rw [show inst'.part.ownManifest.branch = b from hf.branch]
      exact hr.self
  ranged n m ho r hm := by
    -- what a range says of a branch stays true of the instance that follows
    have hold : ∀ n m, (n, m) ∈ x.objects → r ∈ (replay m).ranges →
        ∃ inst, y.instances r.branchName = some inst ∧ r.term ≤ inst.part.processTerm ∧
          ∀ c, r.maxOf c ≤ inst.committedMax c := by
      intro n m ho hm
      obtain ⟨inst, hb', hterm, hmax⟩ := h.ranged n m ho r hm
      obtain ⟨inst₁, hb₁, hterm', hmax'⟩ := hr.ahead hf hb'
      exact ⟨inst₁, hb₁, hterm.trans hterm', fun c ↦ (hmax c).trans (hmax' c)⟩
    rcases (hr.objects n m).1 ho with ⟨-, ho⟩ | ⟨-, hman⟩
    · exact hold n m ho hm
    · have hin : r ∈ (durable inst'.part.manifest).ranges := by
        rw [hman]
        exact hm
      rcases hf.ranges r hin with ⟨hb', hterm⟩ | ⟨n', m', ho', hm'⟩
      · refine ⟨inst', hb' ▸ hr.self, hterm, fun c ↦ ?_⟩
        rw [Traced.committedMax, hman]
        exact maxOf_le_lastMax (hf.traced.disk m hman).sorted c r hm
      · exact hold n' m' ho' hm'
  pinned := hpins

theorem Pin.Resolves.getRetainedFiles_subset {p : Pin} {ranges ranges' : BranchFileMapping}
    (h : p.Resolves opts ranges) (hext : Extends ranges ranges') :
    p.Resolves opts ranges' ∧ ∀ f ∈ getRetainedFiles opts p.cls p.tbl ranges',
      f ∈ getRetainedFiles opts p.cls p.tbl ranges := by
  have hpage : ∀ {fp f}, pageFile opts ranges p.cls fp = some f →
      pageFile opts ranges' p.cls fp = some f := by
    intro fp f hf
    obtain ⟨hfid, hown⟩ := pageFile_eq_some.1 hf
    exact pageFile_eq_some.2 ⟨hfid, hext _ _ hown⟩
  refine ⟨fun q fp hq ↦ ?_, fun f hf ↦ ?_⟩
  · obtain ⟨f, hf⟩ := h q fp hq
    exact ⟨f, hpage hf⟩
  · obtain ⟨q, fp, hq, hf⟩ := mem_getRetainedFiles.1 hf
    obtain ⟨f', hf'⟩ := h q fp hq
    cases (hpage hf').symm.trans hf
    exact mem_getRetainedFiles.2 ⟨q, fp, hq, hf'⟩

/-! ### A write -/

/-- What an event of an instance does to the shared state. -/
structure Wrote (opts : KvOptions) (collector : BranchName) (x y : Shared) (b : BranchName)
    (e : TraceEvent) (inst inst' : Traced) : Prop where
  old : x.instances b = some inst
  run : e.run opts inst = some inst'
  /-- The step belongs to a running instance. -/
  isWrite : e.isWrite = true
  free : ¬(b = collector ∧ x.phase.busy = true)
  instances : y.instances = (x.withInstance b inst').instances
  /-- A manifest that has changed is stored. -/
  objects : y.objects = if inst'.part.manifest = inst.part.manifest then x.objects
    else (x.store inst'.part.ownManifest inst'.part.manifest).objects
  pins : y.pins = x.pins
  phase : y.phase = x.phase

theorem SharedEvent.write_ok {e : TraceEvent} (h : (write b e).run opts collector x = some y) :
    ∃ inst inst', Wrote opts collector x y b e inst inst' := by
  obtain ⟨hcond, h⟩ := ite_none_right_eq_some.1 h
  obtain ⟨inst, hb, h⟩ := bind_eq_some_iff.1 h
  obtain ⟨inst', hrun, rfl⟩ := map_eq_some_iff.1 h
  refine ⟨inst, inst', hb, hrun, hcond.1, hcond.2, ?_, ?_, ?_, ?_⟩
  all_goals
    split
    · rfl
    · cases inst'.part.manifest <;> rfl

namespace Wrote

variable {b : BranchName} {e : TraceEvent} {inst inst' : Traced}

theorem ownManifest (heff : WriteEffect opts inst inst') :
    inst'.part.ownManifest = inst.part.ownManifest := by
  have hbranch : inst'.part.activeBranch = inst.part.activeBranch :=
    congrArg branchName heff.owner
  have hterm : inst'.part.processTerm = inst.part.processTerm := congrArg term heff.owner
  rw [Partition.ownManifest, Partition.ownManifest, hbranch, hterm]

variable (hw : Wrote opts collector x y b e inst inst') (h : BranchesInv opts x)
  (heff : WriteEffect opts inst inst')

include hw h heff

/-- The instance is replaced, and its manifest stored. -/
theorem replaced : Replaced x y b inst' where
  self := by
    rw [hw.instances]
    exact if_pos rfl
  other b' hne := by
    rw [hw.instances]
    exact if_neg hne
  objects n m := by
    rw [hw.objects]
    split
    · next hsame =>
      rw [hsame, ownManifest heff]
      by_cases hn : n = inst.part.ownManifest
      · simp [hn, h.synced hw.old]
      · simp [hn]
    · next hsame =>
      -- a manifest is not lost
      refine Shared.mem_store fun hman ↦ absurd hman (heff.kept fun hnone ↦ hsame ?_)
      rw [hman, hnone]

theorem follows (htraced : TraceInv opts inst') : Follows opts x b inst' where
  traced := htraced
  commits := heff.commits
  branch := (congrArg branchName heff.owner).trans (h.inst hw.old).branch
  ahead inst₀ hb := by
    cases hw.old.symm.trans hb
    exact ⟨Nat.le_of_eq (congrArg term heff.owner).symm, heff.succeeds.grows⟩
  ranges r hr := by
    by_cases hown : r.owner = inst.part.owner
    · left
      refine ⟨(congrArg branchName hown).trans (h.inst hw.old).branch, ?_⟩
      have hterm : r.term = inst'.part.processTerm := congrArg term (hown.trans heff.owner.symm)
      exact hterm.le
    · right
      obtain ⟨m, ho, hm⟩ := h.object_of_range hw.old (heff.succeeds.others r hr hown)
      exact ⟨_, m, ho, hm⟩

theorem pinned {p : Pin} (hp : p ∈ y.pins) :
    y.Resolves opts p ∧ ∀ f ∈ y.pinFiles opts p, f ∈ x.pinFiles opts p := by
  have hr := hw.replaced h heff
  rw [hw.pins] at hp
  obtain ⟨inst₀, hb, hm, hres⟩ := h.pinned p hp
  by_cases hne : p.branch = b
  · rw [hne] at hb
    cases hw.old.symm.trans hb
    obtain ⟨hm', hext⟩ := heff.cached hm
    obtain ⟨hres', hsub⟩ := hres.getRetainedFiles_subset hext
    refine ⟨⟨inst', hne ▸ hr.self, hm', hres'⟩, fun f hf ↦ ?_⟩
    rw [Shared.pinFiles, hne, hr.self] at hf
    rw [Shared.pinFiles, hne, hw.old]
    exact hsub f hf
  · refine ⟨⟨inst₀, (hr.other _ hne).trans hb, hm, hres⟩, fun f hf ↦ ?_⟩
    rwa [hr.pinFiles hne] at hf

/-- **There are floors after a write of another branch.** The floor of that branch moves only while
its manifest is still to be read. -/
theorem floors (hne : b ≠ collector) {base : BranchName → FileClass → ℕ}
    (hf : Floors opts collector x acc names base) :
    ∃ base', Floors opts collector y acc names base' := by
  have hr := hw.replaced h heff
  have hown := ownManifest heff
  have hgrows : ∀ c, inst.committedMax c ≤ inst'.committedMax c := heff.succeeds.grows
  obtain ⟨hguards, hle, hfollows, hunread⟩ := hf.floor hne hw.old
  -- the floor of the branch follows it until its manifest is read
  let base' : FileClass → ℕ :=
    if inst'.part.ownManifest ∈ names then inst'.committedMax else base b
  have hread : inst'.part.ownManifest ∉ names → base' = base b := fun hn ↦ if_neg hn
  have hmono : ∀ c, base b c ≤ base' c ∧ base' c ≤ inst'.committedMax c := by
    intro c
    by_cases hn : inst'.part.ownManifest ∈ names
    · rw [show base' = _ from if_pos hn, hfollows (hown ▸ hn)]
      exact ⟨hgrows c, le_rfl⟩
    · rw [hread hn]
      exact ⟨le_rfl, (hle c).trans (hgrows c)⟩
  refine ⟨Function.update base b base', fun {b' inst₀} hb' hi ↦ ?_, fun n m ho hn f hm ↦ ?_⟩
  · rcases hr.cases hi with ⟨rfl, rfl⟩ | ⟨hbb, hi⟩
    · rw [Function.update_self]
      refine ⟨fun g hg ↦ ?_, fun c ↦ (hmono c).2, fun hn ↦ if_pos hn,
        fun n hn hnown m ho r hm hrb c ↦ ?_⟩
      · obtain ⟨hterm, hmax⟩ := hguards g hg
        exact ⟨hterm.trans (Nat.le_of_eq (congrArg term heff.owner).symm),
          fun c ↦ (hmax c).trans (hmono c).1⟩
      · rcases (hr.objects n m).1 ho with ⟨-, ho⟩ | ⟨rfl, -⟩
        · exact (hunread n hn (hown ▸ hnown) m ho r hm hrb c).trans (hmono c).1
        · exact absurd rfl hnown
    · rw [Function.update_of_ne hbb]
      have hfloor := hf.floor hb' hi
      refine ⟨hfloor.guards, hfloor.le, hfloor.own, fun n hn hnown m ho r hm hrb ↦ ?_⟩
      rcases (hr.objects n m).1 ho with ⟨-, ho⟩ | ⟨rfl, hman⟩
      · exact hfloor.unread n hn hnown m ho r hm hrb
      · -- the new manifest says nothing new of other branches
        have hin : r ∈ (durable inst'.part.manifest).ranges := by
          rw [hman]
          exact hm
        have hforeign : r.owner ≠ inst.part.owner := by
          intro heq
          refine hbb ?_
          rw [← hrb, ← (h.inst hw.old).branch]
          exact congrArg branchName heq
        obtain ⟨m₀, ho₀, hm₀⟩ := h.object_of_range hw.old (heff.succeeds.others r hin hforeign)
        exact hfloor.unread _ (hown ▸ hn) (hown ▸ hnown) m₀ ho₀ r hm₀ hrb
  · rcases (hr.objects n m).1 ho with ⟨hnown, ho⟩ | ⟨rfl, hman⟩
    · refine (hf.read n m ho hn f hm).imp id fun ⟨inst₀, hb', hi, heq, howner, hle⟩ ↦ ?_
      have hbb : n.branch ≠ b := by
        intro hbb
        rw [hbb, hw.old] at hi
        cases hi
        exact hnown (heq.trans hown.symm)
      refine ⟨inst₀, hb', (hr.other _ hbb).trans hi, heq, howner, ?_⟩
      rwa [Function.update_of_ne hbb]
    · have hbranch : inst'.part.ownManifest.branch = b :=
        (congrArg branchName heff.owner).trans (h.inst hw.old).branch
      have hin : f ∈ (durable inst'.part.manifest).files opts := by
        rw [hman]
        exact hm
      rw [hbranch, Function.update_self]
      have hfresh : f.owner = inst.part.owner → base b f.fid.cls ≤ f.fid.fileId →
          ∃ inst₀, b ≠ collector ∧ y.instances b = some inst₀ ∧
            inst'.part.ownManifest = inst₀.part.ownManifest ∧ f.owner = inst₀.part.owner ∧
            base' f.fid.cls ≤ f.fid.fileId := fun howner hle ↦
        ⟨inst', hne, hr.self, rfl, howner.trans heff.owner.symm, hread hn ▸ hle⟩
      rcases heff.succeeds.files f hin with hold | ⟨howner, hmax⟩
      · -- a file of the manifest before
        obtain ⟨m₀, ho₀, hm₀⟩ := h.object_of_file hw.old hold
        refine (hf.read _ m₀ ho₀ (hown ▸ hn) f hm₀).imp id fun ⟨inst₀, _, hi, _, howner, hle⟩ ↦ ?_
        rw [← hown, hbranch] at hi hle
        cases hw.old.symm.trans hi
        exact hfresh howner hle
      · -- a file committed since
        exact .inr (hfresh howner ((hle f.fid.cls).trans hmax))

end Wrote

theorem CollectorKind.branch_of_gathers {p : Pin} (h : kind.gathers collector p = true) :
    p.branch = collector :=
  of_decide_eq_true (Bool.and_eq_true_iff.1 h).1

/-- A collection under way is not disturbed when objects go, and live mappings that come map only
pages of the manifest of their branch. -/
theorem PhaseInv.congr {phase : GcPhase} (h : PhaseInv opts collector x phase)
    (hi : y.instances = x.instances) (ho : ∀ n m, (n, m) ∈ y.objects → (n, m) ∈ x.objects)
    (hpins : ∀ p ∈ y.pins, p ∈ x.pins ∨ ∃ inst, x.instances p.branch = some inst ∧
      ∀ f ∈ x.pinFiles opts p, f ∈ (durable inst.part.manifest).files opts) :
    PhaseInv opts collector y phase := by
  have hfiles p : y.pinFiles opts p = x.pinFiles opts p := by rw [Shared.pinFiles, hi]; rfl
  cases phase with
  | idle => trivial
  | built kind retained =>
    obtain ⟨inst, hb, hidle, hret⟩ := h
    refine ⟨inst, hi ▸ hb, hidle, fun p hp hg f hf ↦ ?_⟩
    rw [hfiles] at hf
    rcases hpins p hp with hp | ⟨inst', hb', hman⟩
    · exact hret p hp hg f hf
    · rw [branch_of_gathers hg] at hb'
      cases hb.symm.trans hb'
      exact .inr (hman f hf)
  | scanning kind acc names listed =>
    obtain ⟨⟨inst, hb, hidle⟩, hscan, base, hfloors⟩ := h
    refine ⟨⟨inst, hi ▸ hb, hidle⟩, fun p hp f hf ↦ ?_, base, fun hne hb ↦ ?_, fun n m hn ↦ ?_⟩
    · rw [hfiles] at hf
      rw [hi]
      rcases hpins p hp with hp | ⟨inst', hb', hman⟩
      · exact hscan p hp f hf
      · exact .inr ⟨inst', hb', hman f hf⟩
    · obtain ⟨hguards, hle, hown, hunread⟩ := hfloors.floor hne (hi ▸ hb)
      exact ⟨hguards, hle, hown, fun n hn hne m hm ↦ hunread n hn hne m (ho n m hm)⟩
    · rw [hi]
      exact hfloors.read n m (ho n m hn)

/-- One that has only gathered is not disturbed by what happens to other branches. -/
theorem PhaseInv.built_congr {retained : List FileName}
    (h : PhaseInv opts collector x (.built kind retained))
    (hsame : y.instances collector = x.instances collector) (hpins : ∀ p ∈ y.pins, p ∈ x.pins) :
    PhaseInv opts collector y (.built kind retained) := by
  obtain ⟨inst, hb, hidle, hret⟩ := h
  refine ⟨inst, hsame.trans hb, hidle, fun p hp hg f hf ↦ hret p (hpins p hp) hg f ?_⟩
  rw [Shared.pinFiles, branch_of_gathers hg, hsame] at hf
  rwa [Shared.pinFiles, branch_of_gathers hg]

/-! ### Restarts, forks, archives -/

/-- An instance is installed, and its manifest stored. -/
structure Installed (x y : Shared) (b : BranchName) (inst' : Traced) : Prop where
  instances : y.instances = (x.withInstance b inst').instances
  objects : y.objects = (x.store inst'.part.ownManifest inst'.part.manifest).objects
  phase : y.phase = x.phase

theorem Installed.replaced (h : Installed x y b inst')
    (hnew : ∀ m, (inst'.part.ownManifest, m) ∉ x.objects) : Replaced x y b inst' where
  self := by
    rw [h.instances]
    exact if_pos rfl
  other b' hne := by
    rw [h.instances]
    exact if_neg hne
  objects n m := by
    rw [h.objects]
    exact Shared.mem_store fun _ ↦ hnew

theorem SharedEvent.restart_ok {term : ℕ} {uploaded : Bool}
    (hcareful : (restart b term uploaded).Careful opts collector x)
    (h : (restart b term uploaded).run opts collector x = some y) :
    ∃ inst, ¬(b = collector ∧ x.phase.busy = true) ∧ x.instances b = some inst ∧
      inst.part.processTerm < opts.runTerm term ∧
      Installed x y b { inst with part := inst.part.restarted (opts.runTerm term) } ∧
      y.pins = x.pins.filter (·.branch ≠ b) := by
  obtain ⟨hfree, h⟩ := ite_none_right_eq_some.1 h
  obtain ⟨inst, hb, h⟩ := bind_eq_some_iff.1 h
  obtain ⟨hlt, h⟩ := ite_none_right_eq_some.1 h
  obtain ⟨o?, ho, rfl⟩ := map_eq_some_iff.1 h
  rw [(hcareful.2 inst hb).2 o? ho]
  refine ⟨inst, hfree, hb, hlt, ⟨?_, ?_, ?_⟩, ?_⟩
  all_goals
    simp only [restarted]
    cases inst.part.manifest <;> rfl

theorem SharedEvent.fork_ok {child : BranchName}
    (h : (fork b child).run opts collector x = some y) :
    ∃ inst, x.instances b = some inst ∧ inst.part.task = none ∧
      Installed x y child { inst with
        part := .ofBranch child 0
          (inst.part.branchManifest opts child inst.part.branchFileMapping) } ∧
      y.pins = x.pins := by
  obtain ⟨-, h⟩ := ite_none_right_eq_some.1 h
  obtain ⟨inst, hb, h⟩ := bind_eq_some_iff.1 h
  obtain ⟨hloaded, rfl⟩ := ite_some_none_eq_some.1 h
  refine ⟨inst, hb, isNone_iff_eq_none.1 (Bool.and_eq_true_iff.1 hloaded).1,
    ⟨?_, ?_, ?_⟩, ?_⟩
  all_goals
    cases inst.part.branchManifest opts child inst.part.branchFileMapping <;> rfl

/-- **The objects change**, and every object is old or an archive of known ranges. -/
theorem BranchesInv.withObjects (h : BranchesInv opts x) {objects : List (ManifestName × Manifest)}
    (hunique : ∀ n m m', (n, m) ∈ objects → (n, m') ∈ objects → m = m')
    (hplain : ∀ n m, n.tag = none → (n, m) ∈ objects → (n, m) ∈ x.objects)
    (hown : ∀ b inst m, x.instances b = some inst → (inst.part.ownManifest, m) ∈ x.objects →
      (inst.part.ownManifest, m) ∈ objects)
    (hranges : ∀ n m, (n, m) ∈ objects → ∀ r ∈ (replay m).ranges,
      ∃ n' m', (n', m') ∈ x.objects ∧ r ∈ (replay m').ranges) :
    BranchesInv opts { x with objects := objects } :=
  { h with
    synced := fun {b inst} hb m ↦ ⟨fun ho ↦ (h.synced hb m).1 (hplain _ m rfl ho),
      fun hm ↦ hown b inst m hb ((h.synced hb m).2 hm)⟩
    unique := hunique
    terms := fun n m ho htag ↦ h.terms n m (hplain n m htag ho) htag
    ranged := fun n m ho r hr ↦ by
      obtain ⟨n', m', ho', hr'⟩ := hranges n m ho r hr
      exact h.ranged n' m' ho' r hr' }

theorem Shared.mem_listedNames {n : ManifestName} {m : Manifest} (ho : (n, m) ∈ x.objects)
    (hread : parseManifestFileSuffix n.suffix = some n) : n ∈ x.listedNames := by
  have hmem : n ∈ (classifyManifests x.objects).map (·.1) := by
    refine mem_map.2 ⟨(n, m), mem_filterMap.2 ⟨(n, m), ho, ?_⟩, rfl⟩
    rw [hread]
    rfl
  rw [Shared.listedNames, mem_append, mem_filter, mem_filter]
  cases htag : n.tag with
  | none => exact .inl ⟨hmem, by simp⟩
  | some tag => exact .inr ⟨hmem, by simp⟩

namespace SharedInv

section

variable (h : SharedInv opts collector x)

include h

theorem phase_eq {phase : GcPhase} (hph : x.phase = phase) : PhaseInv opts collector x phase :=
  hph ▸ h.phase

/-- **A write keeps the invariant.** -/
theorem write (happ : opts.dataAppendMode = true) {e : TraceEvent}
    (hcareful : (write b e).Careful opts collector x)
    (hrun : (write b e).run opts collector x = some y) : SharedInv opts collector y := by
  obtain ⟨inst, inst', hw⟩ := write_ok hrun
  obtain ⟨hcare, hlisted⟩ := hcareful inst hw.old
  obtain ⟨htraced, hcommits, -⟩ := h.inst hw.old
  have heff := hcommits.write htraced hw.isWrite hcare hw.run
  have hbr := h.toBranchesInv
  have hr := hw.replaced hbr heff
  have hpinned := fun p hp ↦ hw.pinned hbr heff (p := p) hp
  refine ⟨hbr.replace hr (hw.follows hbr heff (htraced.event happ hcare hw.run))
    fun p hp ↦ (hpinned p hp).1, ?_⟩
  rw [hw.phase]
  cases hph : x.phase with
  | idle => trivial
  | built kind retained =>
    have hne : collector ≠ b := fun heq ↦ hw.free ⟨heq.symm, by rw [hph]; rfl⟩
    exact (h.phase_eq hph).built_congr (hr.other _ hne) fun p hp ↦ hw.pins ▸ hp
  | scanning kind acc names listed =>
    have hne : collector ≠ b := fun heq ↦ hw.free ⟨heq.symm, by rw [hph]; rfl⟩
    obtain ⟨⟨inst₀, hb₀, hidle⟩, hscan, base, hfloors⟩ := h.phase_eq hph
    refine ⟨⟨inst₀, (hr.other _ hne).trans hb₀, hidle⟩, fun p hp f hf ↦ ?_,
      hw.floors hbr heff (Ne.symm hne) hfloors⟩
    have hp' : p ∈ x.pins := hw.pins ▸ hp
    refine (hscan p hp' f ((hpinned p hp).2 f hf)).imp id fun ⟨inst₁, hb₁, hf₁⟩ ↦ ?_
    by_cases hpb : p.branch = b
    · -- a branch with live mappings has written no manifest
      rw [hpb, hw.old] at hb₁
      cases hb₁
      rcases hlisted (by rw [hph]; rfl) inst' hw.run with hsame | hnone
      · exact ⟨inst', hpb ▸ hr.self, hsame ▸ hf₁⟩
      · exact absurd hpb (hnone p hp')
    · exact ⟨inst₁, (hr.other _ hpb).trans hb₁, hf₁⟩

/-- A collection that has listed nothing yet stays in order when another instance changes. -/
private theorem phase_of_unlisted (hlisted : x.phase.listed = false) (hphase : y.phase = x.phase)
    (hsame : x.phase.busy = true → y.instances collector = x.instances collector)
    (hpins : ∀ p ∈ y.pins, p ∈ x.pins) : PhaseInv opts collector y y.phase := by
  rw [hphase]
  cases hph : x.phase with
  | idle => trivial
  | built kind retained => exact (h.phase_eq hph).built_congr (hsame (by rw [hph]; rfl)) hpins
  | scanning kind acc names listed => simp [hph, GcPhase.listed] at hlisted

/-- **An instance that is new, or new in its term, keeps the invariant** when no manifest of its
name exists. -/
private theorem install (hlisted : x.phase.listed = false) (hi : Installed x y b inst')
    (hfree : x.phase.busy = true → b ≠ collector)
    (hf : Follows opts x b inst') (hnew : ∀ m, (inst'.part.ownManifest, m) ∉ x.objects)
    (hpins : ∀ p ∈ y.pins, p ∈ x.pins ∧ p.branch ≠ b) : SharedInv opts collector y := by
  have hr := hi.replaced hnew
  refine ⟨h.toBranchesInv.replace hr hf fun p hp ↦ ?_,
    h.phase_of_unlisted hlisted hi.phase (fun hbusy ↦ hr.other _ (Ne.symm (hfree hbusy)))
      fun p hp ↦ (hpins p hp).1⟩
  obtain ⟨hp', hne⟩ := hpins p hp
  obtain ⟨inst, hb, hm, hres⟩ := h.pinned p hp'
  exact ⟨inst, (hr.other _ hne).trans hb, hm, hres⟩

/-- **A restart keeps the invariant.** -/
theorem restart (happ : opts.dataAppendMode = true) {term : ℕ} {uploaded : Bool}
    (hcareful : (restart b term uploaded).Careful opts collector x)
    (hrun : (restart b term uploaded).run opts collector x = some y) :
    SharedInv opts collector y := by
  obtain ⟨inst, hfree, hb, hlt, hi, hpins⟩ := restart_ok hcareful hrun
  obtain ⟨hlisted, hcare⟩ := hcareful
  obtain ⟨htraced, -, hbranch⟩ := h.inst hb
  refine h.install hlisted hi (fun hbusy heq ↦ hfree ⟨heq, hbusy⟩)
    ⟨⟨htraced.restart happ hlt (hcare inst hb).1, .ofBranch opts _ _ _ _ _, hbranch⟩,
      fun inst₀ hb₀ ↦ ?_, fun r hr ↦ ?_⟩
    (fun m ho ↦ ?_) fun p hp ↦ ?_
  · cases hb.symm.trans hb₀
    exact ⟨hlt.le, fun c ↦ le_rfl⟩
  · obtain ⟨m, ho, hm⟩ := h.object_of_range hb hr
    exact .inr ⟨_, m, ho, hm⟩
  · -- no manifest of the new term exists yet
    obtain ⟨inst₀, hb₀, hle⟩ := h.terms _ m ho rfl
    rw [show (inst.part.restarted (opts.runTerm term)).ownManifest.branch = b from hbranch, hb]
      at hb₀
    cases hb₀
    exact absurd hle (Nat.not_le_of_lt hlt)
  · rw [hpins, mem_filter] at hp
    exact ⟨hp.1, of_decide_eq_true hp.2⟩

/-- The ranges in memory of a loaded instance are known. -/
private theorem object_of_loaded (hb : x.instances b = some inst) (hidle : inst.part.task = none)
    {root : RootMeta} (hroot : inst.part.liveRoot = some root)
    (hr : r ∈ inst.part.branchFileMapping) : ∃ n m, (n, m) ∈ x.objects ∧ r ∈ (replay m).ranges := by
  obtain ⟨hentry, -⟩ := filter_eq_some_iff.1 hroot
  have hm : inst.part.mappers = some (root.mapper, root.segmentMapper) := by
    simp [mappers, hentry]
  obtain ⟨-, -, -, hranges, -⟩ := makeCowRoot_of_mappers opts hm
  have hsame := (h.inst hb).commits.ranges hidle
  rw [← hranges, hsame] at hr
  obtain ⟨m, ho, hin⟩ := h.object_of_range hb hr
  exact ⟨_, m, ho, hin⟩

/-- **A fork keeps the invariant.** -/
theorem fork (happ : opts.dataAppendMode = true) {child : BranchName}
    (hcareful : (fork b child).Careful opts collector x)
    (hrun : (fork b child).run opts collector x = some y) : SharedInv opts collector y := by
  obtain ⟨hlisted, hchild⟩ := hcareful
  have hnone : x.instances child = none := isNone_iff_eq_none.1 hchild
  obtain ⟨inst, hb, hidle, hi, hpins⟩ := fork_ok hrun
  have hfresh : ∀ inst₀, x.instances child ≠ some inst₀ := fun inst₀ ↦ by simp [hnone]
  refine h.install hlisted hi (fun hbusy heq ↦ ?_)
    ⟨⟨(h.inst hb).traced.fork happ hidle child 0, .ofBranch opts _ _ _ _ _, rfl⟩,
      fun inst₀ hb₀ ↦ absurd hb₀ (hfresh inst₀), fun r hr ↦ .inr ?_⟩
    (fun m ho ↦ ?_) fun p hp ↦ ?_
  · -- the collector has an instance
    cases hph : x.phase with
    | idle => simp [hph, GcPhase.busy] at hbusy
    | built kind retained =>
      obtain ⟨inst₀, hb₀, -⟩ := h.phase_eq hph
      exact hfresh inst₀ (heq ▸ hb₀)
    | scanning kind acc names listed => simp [hph, GcPhase.listed] at hlisted
  · cases hroot : inst.part.liveRoot with
    | none => simp [ofBranch, branchManifest, hroot, durable, Replayer.ranges] at hr
    | some root =>
      obtain ⟨-, hsome⟩ := filter_eq_some_iff.1 hroot
      obtain ⟨mapper, hmapper⟩ := isSome_iff_exists.1 hsome
      have hin : r ∈ inst.part.branchFileMapping := by
        simp only [ofBranch, branchManifest, hroot, hmapper, bind_some, map_some] at hr
        exact hr
      exact h.object_of_loaded hb hidle hroot hin
  · obtain ⟨inst₀, hb₀, -⟩ := h.terms _ m ho rfl
    exact hfresh inst₀ hb₀
  · rw [hpins] at hp
    obtain ⟨inst₀, hb₀, -⟩ := h.pinned p hp
    exact ⟨hp, fun heq ↦ hfresh inst₀ (heq ▸ hb₀)⟩

/-- **An archive keeps the invariant.** -/
theorem archive {tag : String} (hcareful : (archive b tag).Careful opts collector x)
    (hrun : (archive b tag).run opts collector x = some y) : SharedInv opts collector y := by
  have hlisted : x.phase.listed = false := hcareful
  obtain ⟨-, hrun⟩ := ite_none_right_eq_some.1 hrun
  obtain ⟨inst, hb, hrun⟩ := bind_eq_some_iff.1 hrun
  obtain ⟨hloaded, hrun⟩ := ite_none_right_eq_some.1 hrun
  have hidle := isNone_iff_eq_none.1 (Bool.and_eq_true_iff.1 hloaded).1
  cases hrun
  cases hroot : inst.part.liveRoot with
  | none =>
    have hnone : inst.part.archiveManifest = none := by simp [archiveManifest, hroot]
    rw [hnone]
    exact h
  | some root =>
    obtain ⟨-, hsome⟩ := filter_eq_some_iff.1 hroot
    obtain ⟨mapper, hmapper⟩ := isSome_iff_exists.1 hsome
    obtain ⟨m, hm, hranges⟩ : ∃ m, inst.part.archiveManifest = some m ∧
        (replay m).ranges = inst.part.branchFileMapping := by
      rw [archiveManifest, hroot, bind_some, hmapper, map_some]
      exact ⟨_, rfl, rfl⟩
    rw [hm]
    have hput : ∀ n m₁, (n, m₁) ∈ (x.store ⟨b, inst.part.processTerm, some tag⟩ (some m)).objects ↔
        _ := fun n m₁ ↦ Shared.mem_store (by simp)
    refine ⟨h.toBranchesInv.withObjects (unique_of_stored h.unique hput) (fun n m₁ htag ho ↦ ?_)
      (fun b' inst' m₁ hb' ho ↦ ?_) fun n m₁ ho r hr ↦ ?_,
      h.phase_of_unlisted hlisted rfl (fun _ ↦ rfl) fun p hp ↦ hp⟩
    · rcases mem_putObject.1 ho with ⟨-, ho⟩ | ⟨rfl, -⟩
      · exact ho
      · cases htag
    · exact mem_putObject.2 (.inl ⟨by simp [ownManifest], ho⟩)
    · rcases mem_putObject.1 ho with ⟨-, ho⟩ | ⟨-, rfl⟩
      · exact ⟨n, m₁, ho, hr⟩
      · rw [hranges] at hr
        exact h.object_of_loaded hb hidle hroot hr

/-- **Deleting an object keeps the invariant.** -/
theorem deleteObject {n : ManifestName} (hcareful : (deleteObject n).Careful opts collector x) :
    SharedInv opts collector { x with objects := x.objects.filter (·.1 ≠ n) } := by
  have hold : ∀ {n' m}, (n', m) ∈ x.objects.filter (·.1 ≠ n) → (n', m) ∈ x.objects :=
    fun ho ↦ (mem_filter.1 ho).1
  refine ⟨h.toBranchesInv.withObjects
    (fun n' m m' hm hm' ↦ h.unique n' m m' (hold hm) (hold hm')) (fun n' m _ ho ↦ hold ho)
    (fun b inst m hb ho ↦ ?_) fun n' m ho r hr ↦ ⟨n', m, hold ho, hr⟩, ?_⟩
  · refine mem_filter.2 ⟨ho, decide_eq_true fun heq ↦ ?_⟩
    have hbranch : n.branch = b := heq ▸ (h.inst hb).branch
    exact hcareful inst (hbranch.symm ▸ hb) heq.symm
  · exact h.phase.congr rfl (fun _ _ ↦ hold) fun _ ↦ .inl

/-! ### Readers and the collector -/

/-- Live mappings come and go: what is added is published. -/
private theorem withPins (pins : List Pin)
    (hpins : ∀ p ∈ pins, p ∈ x.pins ∨
      ∃ b inst, x.instances b = some inst ∧ p ∈ inst.part.published) :
    SharedInv opts collector { x with pins := pins } := by
  refine ⟨{ h.toBranchesInv with pinned := fun p hp ↦ ?_ },
    h.phase.congr rfl (fun _ _ ↦ id) fun p hp ↦ (hpins p hp).imp id ?_⟩
  · rcases hpins p hp with hp | ⟨b, inst, hb, hp⟩
    · exact h.pinned p hp
    · obtain ⟨hpb, hres, hm, -⟩ := h.files_published hb hp
      exact ⟨inst, hpb ▸ hb, hm, hres⟩
  · rintro ⟨b, inst, hb, hp⟩
    obtain ⟨hpb, -, -, hfiles⟩ := h.files_published hb hp
    exact ⟨inst, hpb ▸ hb, hfiles⟩

private theorem withPhase {phase : GcPhase} (files : List FileName)
    (hphase : PhaseInv opts collector x phase) :
    SharedInv opts collector { x with files := files, phase := phase } :=
  ⟨{ h.toBranchesInv with }, hphase.congr rfl (fun _ _ ↦ id) fun _ ↦ .inl⟩

/-- **A collection gathers the files of live mappings.** -/
theorem trigger (hrun : (trigger kind).run opts collector x = some y) :
    SharedInv opts collector y := by
  obtain ⟨inst, hb, hrun⟩ := bind_eq_some_iff.1 hrun
  obtain ⟨hcond, rfl⟩ := ite_some_none_eq_some.1 hrun
  refine h.withPhase x.files ⟨inst, hb, hcond.2, fun p hp hg f hf ↦ .inl ?_⟩
  refine mem_flatMap.2 ⟨p, mem_filter.2 ⟨mem_append_left _ hp, hg⟩, hf⟩

/-- **A collection lists**: the floors are what the branches have committed. -/
theorem list {termFile : Option ℕ} (hcareful : (list termFile).Careful opts collector x)
    (hrun : (list termFile).run opts collector x = some y) : SharedInv opts collector y := by
  simp only [run] at hrun
  split at hrun
  · next kind retained inst hph hb =>
    split at hrun
    · cases hrun
      exact h.withPhase x.files trivial
    · cases hrun
      simp only [Careful, hph] at hcareful
      obtain ⟨hnames, hpins⟩ := hcareful
      obtain ⟨inst₀, hb₀, hidle, hret⟩ := h.phase_eq hph
      have hlisted : ∀ n m, (n, m) ∈ x.objects → n ∈ x.listedNames :=
        fun n m ho ↦ Shared.mem_listedNames ho (hnames (n, m) ho)
      refine h.withPhase x.files ⟨⟨inst₀, hb₀, hidle⟩, fun p hp f hf ↦ ?_,
        fun b ↦ ((x.instances b).map Traced.committedMax).getD fun _ ↦ 0,
        fun {b inst₁} hne hb₁ ↦ ?_, fun n m ho hn ↦ absurd (hlisted n m ho) hn⟩
      · cases hg : kind.gathers collector p with
        | true =>
          refine (hret p hp hg f hf).imp id fun hman ↦ ⟨inst₀, ?_, hman⟩
          rw [branch_of_gathers hg]
          exact hb₀
        | false =>
          obtain ⟨inst₁, hb₁, -⟩ := h.pinned p hp
          exact .inr ⟨inst₁, hb₁, hpins p hp hg inst₁ hb₁ f hf⟩
      · rw [hb₁, map_some, getD_some]
        refine ⟨fun g hg ↦ ?_, fun _ ↦ le_rfl, fun _ ↦ rfl, fun n hn hown m ho r hr hrb ↦ ?_⟩
        · -- only the collector's own guard is seeded
          have hnone : seedActiveBranchGuardFromInMemory opts inst.part b = none :=
            if_neg ((h.inst hb).branch.symm ▸ hne)
          cases hnone.symm.trans hg
        · obtain ⟨inst₂, hb₂, -, hmax⟩ := h.ranged n m ho r hr
          rw [hrb, hb₁] at hb₂
          cases hb₂
          exact hmax
  · cases hrun

/-- **A collection reads a manifest.** Its files are retained, and what it says of other branches
lies at or below their floors. -/
theorem read (hrun : read.run opts collector x = some y) : SharedInv opts collector y := by
  simp only [run] at hrun
  split at hrun
  · next kind acc n names listed hph =>
    obtain ⟨hidle, hscan, base, hf⟩ := h.phase_eq hph
    split at hrun
    · next o hfind =>
      cases hrun
      obtain ⟨n', m⟩ := o
      obtain rfl : n' = n := by simpa using find?_some hfind
      have ho : (n', m) ∈ x.objects := mem_of_find?_eq_some hfind
      refine h.withPhase x.files ⟨hidle,
        fun p hp f hf' ↦ (hscan p hp f hf').imp (mem_append_left _) id, base,
        fun {b inst} hne hb ↦ (hf.floor hne hb).tail fun g hg ↦ ?_, fun n₁ m₁ ho₁ hn₁ f hf₁ ↦ ?_⟩
      · have hfloor := hf.floor hne hb
        refine below_foldl hfloor.guards (fun r hr hrb ↦ ?_) g hg
        obtain ⟨inst', hb', hterm, hmax⟩ := h.ranged n' m ho r hr
        rw [hrb, hb] at hb'
        cases hb'
        refine ⟨hterm, fun c ↦ ?_⟩
        by_cases hown : n' = inst.part.ownManifest
        · -- the branch's own manifest: the floor is what it records
          rw [hfloor.own (hown ▸ mem_cons_self)]
          exact hmax c
        · exact hfloor.unread n' mem_cons_self hown m ho r hr hrb c
      · by_cases hn : n₁ = n'
        · subst hn
          obtain rfl := h.unique n₁ m m₁ ho ho₁
          exact .inl (mem_append_right _ hf₁)
        · have hnot : n₁ ∉ n' :: names := by
            rw [mem_cons, not_or]
            exact ⟨hn, hn₁⟩
          exact (hf.read n₁ m₁ ho₁ hnot f hf₁).imp (mem_append_left _) id
    · next hfind =>
      split at hrun
      · cases hrun
        exact h.withPhase x.files trivial
      · cases hrun
        refine h.withPhase x.files ⟨hidle, hscan, base,
          fun hne hb ↦ (hf.floor hne hb).tail (hf.floor hne hb).guards,
          fun n₁ m₁ ho₁ hn₁ ↦ hf.read n₁ m₁ ho₁ ?_⟩
        rw [mem_cons, not_or]
        refine ⟨?_, hn₁⟩
        rintro rfl
        exact absurd (find?_eq_none.1 hfind _ ho₁) (by simp)
  · cases hrun

/-- **Every careful event keeps the invariant.** -/
theorem event (happ : opts.dataAppendMode = true) {e : SharedEvent}
    (hcareful : e.Careful opts collector x)
    (hrun : e.run opts collector x = some y) : SharedInv opts collector y := by
  cases e with
  | write b e => exact h.write happ hcareful hrun
  | restart b term uploaded => exact h.restart happ hcareful hrun
  | fork b child => exact h.fork happ hcareful hrun
  | archive b tag => exact h.archive hcareful hrun
  | deleteObject n =>
    cases hrun
    exact h.deleteObject hcareful
  | pin b =>
    obtain ⟨inst, hb, rfl⟩ := map_eq_some_iff.1 hrun
    exact h.withPins _ fun p hp ↦ (mem_append.1 hp).imp id fun hp ↦ ⟨b, inst, hb, hp⟩
  | unpin i =>
    cases hrun
    exact h.withPins _ fun p hp ↦ .inl (mem_of_mem_eraseIdx hp)
  | trigger kind => exact h.trigger hrun
  | list termFile => exact h.list hcareful hrun
  | read => exact h.read hrun
  | delete =>
    simp only [run] at hrun
    split at hrun
    · next kind acc f listed inst hph hb =>
      cases hrun
      have hphase := h.phase_eq hph
      exact h.withPhase _ hphase
    · cases hrun
  | stop =>
    cases hrun
    exact h.withPhase x.files trivial

end

theorem start (happ : opts.dataAppendMode = true) (collector branch : BranchName) (term : ℕ) :
    SharedInv opts collector (.start branch term) := by
  have hcases : ∀ b inst, (Shared.start branch term).instances b = some inst →
      b = branch ∧ inst = .fresh branch term := by
    intro b inst hb
    obtain ⟨heq, hb⟩ := ite_none_right_eq_some.1 hb
    exact ⟨heq, (some.inj hb).symm⟩
  refine ⟨⟨fun {b inst} hb ↦ ?_, fun {b inst} hb ↦ ?_, ?_, ?_, ?_, ?_⟩, trivial⟩
  · obtain ⟨rfl, rfl⟩ := hcases b inst hb
    exact ⟨.fresh happ b term, .ofBranch opts b term none _ _, rfl⟩
  · obtain ⟨rfl, rfl⟩ := hcases b inst hb
    simp [Shared.start, Traced.fresh, fresh]
  all_goals simp [Shared.start]

end SharedInv

/-! ### Safety -/

/-- **A collector deletes nothing that is needed.** In append mode, in every careful run of a
partition that branches share, whatever the collector is about to delete holds no page of a live
mapping, of a manifest or of an archive, and is no file that an uncommitted write has created at or
above its branch's committed maximum. -/
theorem deletes_nothing_needed (opts : KvOptions) (happ : opts.dataAppendMode = true)
    (collector branch : BranchName) (term : ℕ) {x : Shared}
    (hrun : SharedRuns opts collector (SharedEvent.Careful opts collector) (.start branch term) x)
    {f : FileName} (hdel : x.deletes collector = some f) : ¬x.Needed opts f := by
  intro hneed
  have h : SharedInv opts collector x :=
    hrun.invariant (SharedInv opts collector) (.start happ collector branch term)
      fun hx hcareful hstep ↦ hx.event happ hcareful hstep
  unfold Shared.deletes at hdel
  split at hdel
  · next kind acc f' listed inst hph hb =>
    obtain ⟨hdrops, rfl⟩ := ite_some_none_eq_some.1 hdel
    have hkeeps := Scanning.keeps h.toBranchesInv (h.phase_eq hph) hneed
    rw [Shared.drops, (h.inst hb).branch, hkeeps] at hdrops
    simp at hdrops
  · cases hdel

/-- The branch `dev` is forked from `main` and keeps its file 0, which `main` itself has rewritten.
The instance of `dev` has loaded its root. -/
def forkedRun : List SharedEvent :=
  SharedEvent.commits "main"
      [.allocatePage none, .allocatePage none, .setRoots (some 0) none 0] ++
    .fork "main" "dev" ::
    SharedEvent.commits "main"
      [.allocatePage (some 0), .allocatePage (some 1), .allocatePage none] ++
    [.write "dev" .begin, .write "dev" .abort]

/-- A cloud collection of `main` that has listed when `dev` rewrites the pages of that file too. It
then deletes the file. -/
theorem deletes_file_rewritten_meanwhile : ∃ x f,
    SharedRuns cloudOptions "main" (SharedEvent.Careful cloudOptions "main") (.start "main" 1) x ∧
      f = ⟨⟨.data, 0⟩, ⟨"main", 1⟩⟩ ∧ x.deletes "main" = some f ∧ ¬x.Needed cloudOptions f := by
  obtain ⟨x, hrun, hdel⟩ : ∃ x,
      SharedRuns cloudOptions "main" (Careful cloudOptions "main") (.start "main" 1) x ∧
        x.deletes "main" = some ⟨⟨.data, 0⟩, ⟨"main", 1⟩⟩ :=
    exists_reach_of_exec
      (forkedRun ++ [.trigger .triggerCloudGC, .list (some 1)] ++
        commits "dev" [.allocatePage (some 0), .allocatePage (some 1)] ++
        [.read, .read]) (by decide +kernel)
  exact ⟨x, _, hrun, rfl, hdel, deletes_nothing_needed cloudOptions rfl "main" "main" 1 hrun hdel⟩

/-- **An archive made during a scan loses its files.** A cloud collection of `main` has listed when
`dev` is archived and then rewrites its pages. The archive is not among the names listed, and the
manifest that is read no longer refers to the file, so the collection deletes a file of the archive.

**A reader's segments are deleted.** `TriggerLocalFileGC` gathers no segment mapping, so the segment
file that a reader's mapping lies in is deleted once the manifest no longer refers to it. -/
theorem collector_deletes_needed :
    (∃ x f n m, SharedRuns cloudOptions "main" (fun _ _ ↦ True) (.start "main" 1) x ∧
      x.deletes "main" = some f ∧ n = ⟨"dev", 0, some "nightly"⟩ ∧ (n, m) ∈ x.objects ∧
      f ∈ (replay m).files cloudOptions ∧ x.Needed cloudOptions f) ∧
    ∃ x f p, SharedRuns sampleOptions "main" (fun _ _ ↦ True) (.start "main" 0) x ∧
      x.deletes "main" = some f ∧ p ∈ x.pins ∧ p.cls = .segment ∧ f ∈ x.pinFiles sampleOptions p ∧
      x.Needed sampleOptions f := by
  constructor
  · obtain ⟨x, hrun, f, hdel, ⟨n, m⟩, ho, hn, hf⟩ : ∃ x,
        SharedRuns cloudOptions "main" (fun _ _ ↦ True) (.start "main" 1) x ∧
        ∃ f ∈ x.deletes "main", ∃ o ∈ x.objects, o.1 = ⟨"dev", 0, some "nightly"⟩ ∧
          f ∈ (replay o.2).files cloudOptions :=
      exists_reach_of_exec
        (forkedRun ++ [.trigger .triggerCloudGC, .list (some 1), .archive "dev" "nightly"] ++
          commits "dev" [.allocatePage (some 0), .allocatePage (some 1)] ++
          [.read, .read]) (by decide +kernel)
    exact ⟨x, f, n, m, hrun, hdel, hn, ho, hf, .manifest n m ho hf⟩
  · obtain ⟨x, hrun, f, hdel, p, hp, hcls, hf⟩ : ∃ x,
        SharedRuns sampleOptions "main" (fun _ _ ↦ True) (.start "main" 0) x ∧
        ∃ f ∈ x.deletes "main", ∃ p ∈ x.pins, p.cls = .segment ∧ f ∈ x.pinFiles sampleOptions p :=
      exists_reach_of_exec
        (commits "main" [.ensureSegmentMapper, .allocateSegment none, .allocatePage none,
            .setRoots (some 0) none 0] ++
          .pin "main" ::
          commits "main" [.allocateSegment none, .allocateSegment none, .freeSegment 0,
            .freeSegment 1, .allocatePage (some 0)] ++
          [.trigger .triggerLocalFileGC, .list none, .read]) (by decide +kernel)
    exact ⟨x, f, p, hrun, hdel, hp, hcls, hf, .pinned p hp hf⟩

end EloqStore
