import EloqStore.Cloud.Loading
import EloqStore.Partition.FileProvenance

/-!
# Dropping a partition

`Drop` deletes the manifest of the active branch and the process term, locally and in the object
store, and clears the partition's entry in the root cache. A failed deletion is logged and the drop
still succeeds. The entry is cleared and not removed, since a reader may hold it; it goes away
later, when nobody does.

A dropped partition should be **gone**: it loads as not found, with its entry in memory or without,
and the next write starts from nothing and publishes nothing but what it wrote itself (`Gone`). That
is so exactly when nothing else brings the partition back (`DropSafe`):

* the segment mapper, which `Drop` leaves in the entry and which the next commit keeps in place when
  it has none of its own, maps nothing;
* both deletions succeeded, or had nothing to delete;
* the object store lists no manifest that a load would select in the place of the deleted one.
-/

namespace EloqStore

open List ManifestName Option EloqStore.Partition WriteTask Stored

open LastMaximum

/-! ### Dropping -/

/-- Clear a root. **The segment mapper stays.** -/
def RootMeta.cleared (root : RootMeta) : RootMeta :=
  { root with
    rootId := none
    ttlRootId := none
    mapper := none
    manifestSize := 0
    nextExpireTs := 0
    compression := none }

/-- Drop the partition; `unlinked` says whether the local manifest could be deleted. The file ranges
stay in memory. -/
def Partition.drop (s : Partition) (unlinked : Bool) : Partition :=
  { s with
    manifest := if unlinked then none else s.manifest
    entry := s.entry.map RootMeta.cleared
    pendingFree := [] }

/-- Drop the partition and its own manifest in the object store; `deleted` says whether that could
be deleted. -/
def Stored.drop (x : Stored) (unlinked deleted : Bool) : Stored where
  part := x.part.drop unlinked
  cloud := x.cloud.map fun objects ↦
    if deleted then objects.filter fun o ↦ o.1 ≠ x.part.ownManifest else objects

/-- What can happen to a partition between writes: it is looked for, and its entry leaves the cache
once nobody uses it. -/
inductive IdleEvent
  | findRoot (uploaded : Bool)
  | erase
deriving DecidableEq, Repr

def IdleEvent.run (opts : KvOptions) (x : Stored) : IdleEvent → Stored
  | .findRoot uploaded => (x.findRoot opts uploaded).1
  | .erase => { x with part := { x.part with entry := none } }

/-- What is reached without a write. -/
abbrev Idles (opts : KvOptions) : Stored → Stored → Prop :=
  Transition.Reach (fun x e y ↦ IdleEvent.run opts x e = y) fun _ _ ↦ True

/-- **The partition is gone**, whether or not a manifest could be uploaded if one were found. -/
structure Gone (opts : KvOptions) (x : Stored) : Prop where
  notFound : ∀ uploaded, (x.findRoot opts uploaded).2 = .notFound
  /-- The next write starts without a root. -/
  fresh : ∀ uploaded t, ((x.findRoot opts uploaded).1.part.makeCowRoot opts).task = some t →
    t.cow.rootId = none ∧ t.cow.ttlRootId = none
  /-- Whatever steps it takes, what it publishes is what it recorded itself. -/
  own : ∀ uploaded steps s t,
    ((x.findRoot opts uploaded).1.part.makeCowRoot opts).taskSteps opts steps = .ok s →
    s.task = some t → ∀ c q fp, denote ((s.updateMeta opts t).liveMapper c) q = some fp →
      (q, .filePageId fp) ∈ t.deltasOf c

/-- The listed names other than the instance's own manifest. -/
def Stored.otherNames (x : Stored) (objects : List (ManifestName × Manifest)) : List ManifestName :=
  (objects.map (·.1)).filter (· ≠ x.part.ownManifest)

/-- **Nothing brings the partition back.** -/
structure DropSafe (x : Stored) (unlinked deleted : Bool) : Prop where
  segments : ∀ q, denote (x.part.entry.bind (·.segmentMapper)) q = none
  localFile : unlinked = true ∨ x.part.manifest = none
  object : ∀ objects, x.cloud = some objects →
    deleted = true ∨ x.part.ownManifest ∉ objects.map (·.1)
  /-- No other name there reads as a number, and the last of the newest manifests, if there is one,
  is another branch's of the running term. -/
  others : ∀ objects, x.cloud = some objects → (∀ n ∈ x.otherNames objects, ¬ n.IsNumeric) ∧
    ∀ n, IsLastMax ManifestName.term (manifestsOf (x.otherNames objects)) n →
      n.term = x.part.processTerm

/-! ### What a write publishes -/

/-- Every entry of the copy's mappings is one the task recorded. -/
def WriteTask.Recorded (t : WriteTask) : Prop :=
  ∀ c q fp, denote (t.mapperOf c) q = some fp → (q, .filePageId fp) ∈ t.deltasOf c

namespace WriteTask.Recorded

variable {opts : KvOptions} {s s' : Partition} {t t' : WriteTask}

/-- **A step records what it maps.** -/
theorem step {a : TaskStep} (h : t.Recorded) (ht : s.task = some t)
    (hstep : s.taskStep opts a = .ok s') : ∃ t', s'.task = some t' ∧ t'.Recorded := by
  obtain ⟨t', ht', hc⟩ := taskStep_change ht hstep
  refine ⟨t', ht', fun c q fp hq ↦ ?_⟩
  cases ClassStep.of_change hc c with
  | same hm hd =>
    rw [hd]
    exact h c q fp (hm ▸ hq)
  | create _ _ _ hm' =>
    rw [hm'] at hq
    cases hq
  | shrink hm hm' hs hd =>
    rw [hm'] at hq
    rw [hd]
    exact h c q fp (hm ▸ hs.map q fp hq)
  | free page hm hm' hd =>
    rw [hm'] at hq
    rw [hd]
    exact mem_append_left _ (h c q fp (hm ▸ (PageMapper.Shrinks.freePage _ page).map q fp hq))
  | take page? _ hm hm' hd =>
    rw [hm', denote_some, toFilePage_allocated] at hq
    rw [hd]
    split at hq
    · next heq =>
      rw [← some.inj hq, heq]
      exact mem_append_right _ (by simp)
    · exact mem_append_left _ (h c q fp (hm ▸ hq))

theorem steps {as : List TaskStep} (h : t.Recorded) (ht : s.task = some t)
    (hsteps : s.taskSteps opts as = .ok s') : ∃ t', s'.task = some t' ∧ t'.Recorded :=
  taskSteps_induction (P := fun y ↦ ∃ t, y.task = some t ∧ t.Recorded) ⟨t, ht, h⟩ hsteps
    fun _ ⟨_, ht, h⟩ hs ↦ h.step ht hs

end WriteTask.Recorded

/-! ### When a dropped partition is gone -/

/-- **Nothing of the partition is left**, but perhaps a stub in the cache. -/
structure Stored.Empty (x : Stored) : Prop where
  /-- A cached entry is a stub, and its segment mapper maps nothing. -/
  stub : ∀ root, x.part.entry = some root →
    root.mapper = none ∧ ∀ q, denote root.segmentMapper q = none
  manifest : x.part.manifest = none
  /-- Nothing is found in the object store. -/
  objects : ∀ objects uploaded, x.cloud = some objects →
    getManifest (objects.map (·.1.suffix)) x.part.activeBranch x.part.processTerm uploaded =
      .notFound

namespace Stored

variable {opts : KvOptions} {x : Stored} {unlinked deleted : Bool}

namespace Empty

theorem findRoot_eq (h : x.Empty) (opts : KvOptions) (uploaded : Bool) :
    x.findRoot opts uploaded = (x, .notFound) := by
  unfold findRoot
  cases hentry : x.part.entry with
  | some root => simp [(h.stub root hentry).1]
  | none =>
    cases hcloud : x.cloud with
    | none => simp [h.manifest]
    | some objects => simp [h.manifest, h.objects objects uploaded hcloud]

theorem event (h : x.Empty) (e : IdleEvent) : (e.run opts x).Empty := by
  cases e with
  | findRoot uploaded =>
    rw [IdleEvent.run, h.findRoot_eq]
    exact h
  | erase => exact ⟨by simp [IdleEvent.run], h.manifest, h.objects⟩

/-- A write that starts from nothing: an empty data mapper, no segment mapper, nothing recorded, and
an entry whose segment mapper maps nothing. -/
theorem makeCowRoot (h : x.Empty) (opts : KvOptions) :
    ∃ t sm?, (x.part.makeCowRoot opts).task = some t ∧
      (x.part.makeCowRoot opts).mappers = some (none, sm?) ∧ (∀ q, denote sm? q = none) ∧
      t.cow.rootId = none ∧ t.cow.ttlRootId = none ∧ t.Recorded := by
  have hempty : ∀ c q, denote (mapperOf
      { cow := { mapper := .empty (newAllocator opts), ownCompression := some {} } } c) q =
        none := by
    intro c q
    cases c <;> simp [mapperOf]
  have hrec : Recorded
      { cow := { mapper := .empty (newAllocator opts), ownCompression := some {} } } :=
    fun c q fp hq ↦ absurd hq (by simp [hempty])
  have hfind : x.part.findRoot opts = x.part := by
    unfold Partition.findRoot
    rw [h.manifest]
    split <;> rfl
  unfold Partition.makeCowRoot
  rw [hfind]
  cases hentry : x.part.entry with
  | none =>
    simp only [hentry]
    exact ⟨_, none, rfl, rfl, fun q ↦ rfl, rfl, rfl, hrec⟩
  | some root =>
    obtain ⟨hstub, hseg⟩ := h.stub root hentry
    simp only [hentry, hstub]
    exact ⟨_, root.segmentMapper, rfl, by simp [mappers, hstub], hseg, rfl, rfl, hrec⟩

/-- **Where nothing is left, the partition is gone.** -/
theorem gone (h : x.Empty) (opts : KvOptions) : Gone opts x := by
  obtain ⟨t₀, sm?, ht₀, hmap, hseg, hroot, httl, hrec⟩ := h.makeCowRoot opts
  have hfind := h.findRoot_eq opts
  refine ⟨fun uploaded ↦ by rw [hfind], fun uploaded t ht ↦ ?_,
    fun uploaded steps s t hs ht c q fp hq ↦ ?_⟩
  · rw [hfind] at ht
    cases ht₀.symm.trans ht
    exact ⟨hroot, httl⟩
  · rw [hfind] at hs
    obtain ⟨t', ht', hrec'⟩ := hrec.steps ht₀ hs
    obtain rfl := some.inj (ht'.symm.trans ht)
    have hmap' : s.mappers = some (none, sm?) := (taskSteps_frame hs).1.trans hmap
    have hlive := liveMapper_of_mappers (updateMeta_spec opts ht hmap').mappers
    refine hrec' c q fp ?_
    cases c with
    | data =>
      rw [hlive.1] at hq
      exact hq
    | segment =>
      rw [hlive.2] at hq
      -- the entry's segment mapper stays in place, but maps nothing
      cases hsm : t'.cow.segmentMapper with
      | none =>
        rw [hsm] at hq
        cases (hseg q).symm.trans hq
      | some m =>
        rw [hsm] at hq
        rw [mapperOf, hsm]
        exact hq

end Empty

section Named

variable (hns : ∀ objects, x.cloud = some objects → ∀ o ∈ objects, o.1.WellNamed)
  (hbranch : IsNormalized x.part.activeBranch) (hterm : x.part.processTerm < 2 ^ 64)

include hns hbranch hterm

/-- What a load finds in the object store after a drop. -/
private theorem objects_drop_iff (deleted uploaded : Bool)
    {objects : List (ManifestName × Manifest)} (hcloud : x.cloud = some objects) :
    getManifest ((if deleted then objects.filter fun o ↦ o.1 ≠ x.part.ownManifest
        else objects).map (·.1.suffix)) x.part.activeBranch x.part.processTerm uploaded =
        .notFound ↔
      (deleted = true ∨ x.part.ownManifest ∉ objects.map (·.1)) ∧
        (∀ n ∈ x.otherNames objects, ¬ n.IsNumeric) ∧
        ∀ n, IsLastMax ManifestName.term (manifestsOf (x.otherNames objects)) n →
          n.term = x.part.processTerm := by
  have hwell : ∀ n ∈ objects.map (·.1), n.WellNamed := by
    intro n hn
    obtain ⟨o, ho, rfl⟩ := mem_map.1 hn
    exact hns objects hcloud o ho
  have hother : ∀ n ∈ x.otherNames objects, n.WellNamed := fun n hn ↦
    hwell n (mem_of_mem_filter hn)
  cases deleted with
  | true =>
    have hnames : (objects.filter fun o ↦ o.1 ≠ x.part.ownManifest).map (·.1.suffix) =
        (x.otherNames objects).map suffix := by
      rw [otherNames, List.filter_map, List.map_map]
      rfl
    have hown : x.part.ownManifest ∉ x.otherNames objects := by simp [otherNames]
    simp only [if_true, true_or, true_and]
    rw [hnames, getManifest_eq_notFound_iff hother hbranch hterm]
    exact and_iff_right hown
  | false =>
    have hnames : objects.map (·.1.suffix) = (objects.map (·.1)).map suffix := by
      rw [List.map_map]
      rfl
    simp only [Bool.false_eq_true, if_false, false_or]
    rw [hnames, getManifest_eq_notFound_iff hwell hbranch hterm]
    refine and_congr_right fun hown ↦ ?_
    have hsame : x.otherNames objects = objects.map (·.1) := by
      refine filter_eq_self.2 fun n hn ↦ ?_
      simp only [ne_eq, decide_not, Bool.not_eq_true', decide_eq_false_iff_not]
      rintro rfl
      exact hown hn
    rw [hsame]

omit hns hbranch hterm in
/-- A write that does nothing publishes what a stub's segment mapper still maps. -/
private theorem segments_of_gone {root : RootMeta} (h : Gone opts x)
    (hroot : x.part.entry = some root) (hstub : root.mapper = none) (q : ℕ) :
    denote root.segmentMapper q = none := by
  have hfind : (x.findRoot opts true).1 = x := by rw [findRoot, hroot]
  have hmap : x.part.mappers = some (none, root.segmentMapper) := by
    rw [mappers, hroot, map_some, hstub]
  obtain ⟨t, ht, hmap', -, -, hseg⟩ := makeCowRoot_of_mappers opts hmap
  obtain ⟨t₁, -, -, ht₁, -, -, -, -, hdeltas, -⟩ := makeCowRoot_spec opts x.part
  obtain rfl := some.inj (ht₁.symm.trans ht)
  have hlive := liveMapper_of_mappers (updateMeta_spec opts ht hmap').mappers
  cases hq : denote root.segmentMapper q with
  | none => rfl
  | some fp =>
    have hpub : denote (((x.part.makeCowRoot opts).updateMeta opts t₁).liveMapper .segment) q =
        some fp := by
      rw [hlive.2, hseg]
      exact hq
    have hmem := h.own true [] (x.part.makeCowRoot opts) t₁ (by rw [hfind]; rfl) ht .segment q fp
      hpub
    rw [show t₁.deltasOf .segment = [] from hdeltas] at hmem
    cases hmem

/-- **A safe drop leaves nothing**, and only a safe one does. -/
private theorem empty_drop_iff : (x.drop unlinked deleted).Empty ↔ DropSafe x unlinked deleted := by
  constructor
  · intro h
    have hobjects : ∀ objects, x.cloud = some objects → _ := fun objects hcloud ↦
      (objects_drop_iff hns hbranch hterm deleted true hcloud).1
        (h.objects _ true (by rw [drop, hcloud]; rfl))
    refine ⟨fun q ↦ ?_, ?_, fun objects hcloud ↦ (hobjects objects hcloud).1,
      fun objects hcloud ↦ (hobjects objects hcloud).2⟩
    · cases hentry : x.part.entry with
      | none => rfl
      | some root =>
        exact (h.stub root.cleared (by rw [drop, Partition.drop, hentry]; rfl)).2 q
    · cases unlinked with
      | true => exact .inl rfl
      | false => exact .inr h.manifest
  · intro h
    refine ⟨fun root hroot ↦ ?_, ?_, fun objects' uploaded hcloud' ↦ ?_⟩
    · obtain ⟨old, hold, rfl⟩ := map_eq_some_iff.1 hroot
      refine ⟨rfl, fun q ↦ ?_⟩
      have hseg := h.segments q
      rw [hold] at hseg
      exact hseg
    · rcases h.localFile with rfl | hnone
      · rfl
      · show (if unlinked then none else x.part.manifest) = none
        rw [hnone, ite_self]
    · obtain ⟨objects, hcloud, rfl⟩ := map_eq_some_iff.1 hcloud'
      exact (objects_drop_iff hns hbranch hterm deleted uploaded hcloud).2
        ⟨h.object objects hcloud, h.others objects hcloud⟩

/-- **A dropped partition is gone, and stays so until it is written, exactly when the drop is
safe.** -/
theorem dropped_gone_iff (opts : KvOptions) (unlinked deleted : Bool) :
    (∀ y, Idles opts (x.drop unlinked deleted) y → Gone opts y) ↔ DropSafe x unlinked deleted := by
  rw [← empty_drop_iff hns hbranch hterm]
  constructor
  · intro h
    have hdropped := h _ .start
    have herased := h _ (.step .start (a := IdleEvent.erase) trivial rfl)
    obtain ⟨hman, hobjects⟩ := findRoot_eq_notFound rfl (herased.notFound true)
    refine ⟨fun root hroot ↦ ?_, hman, fun objects' uploaded hcloud' ↦ ?_⟩
    · obtain ⟨old, -, rfl⟩ := map_eq_some_iff.1 hroot
      exact ⟨rfl, segments_of_gone hdropped hroot rfl⟩
    · have htrue := hobjects objects' hcloud'
      obtain ⟨objects, hcloud, rfl⟩ := map_eq_some_iff.1 hcloud'
      exact (objects_drop_iff hns hbranch hterm deleted uploaded hcloud).2
        ((objects_drop_iff hns hbranch hterm deleted true hcloud).1 htrue)
  · intro h y hy
    have hempty : y.Empty := hy.invariant Empty h fun {x e y} hx _ hrun ↦ by
      rw [← hrun]
      exact hx.event e
    exact hempty.gone opts

end Named

end Stored

/-- A partition whose manifest alone is in the object store is dropped. -/
theorem dropped_gone_after_pageWrites : ∃ s m, Histories sampleOptions (.fresh "main" 1) s ∧
    s.manifest = some m ∧
    ∀ y, Idles sampleOptions (drop ⟨s, some [(⟨"main", 1, none⟩, m)]⟩ true true) y →
      Gone sampleOptions y := by
  obtain ⟨s, hrun, hm, hbranch, hterm, hseg⟩ : ∃ s, Histories sampleOptions (.fresh "main" 1) s ∧
      s.manifest.isSome = true ∧ s.activeBranch = "main" ∧ s.processTerm = 1 ∧
      s.entry.bind (·.segmentMapper) = none :=
    Transition.exists_reach_of_exec pageWrites (by decide)
  obtain ⟨m, hm⟩ := isSome_iff_exists.1 hm
  refine ⟨s, m, hrun, hm, (dropped_gone_iff ?_ ?_ ?_ sampleOptions true true).2
    ⟨fun q ↦ ?_, .inl rfl, fun _ _ ↦ .inl rfl, fun objects hobjects ↦ ?_⟩⟩
  · intro objects hobjects o ho
    rw [← some.inj hobjects, mem_singleton] at ho
    have hname : WellNamed ⟨"main", 1, none⟩ := ⟨by decide, by decide, by decide⟩
    rw [ho]
    exact hname
  · show IsNormalized s.activeBranch
    rw [hbranch]
    decide
  · show s.processTerm < 2 ^ 64
    rw [hterm]
    decide
  · show denote (s.entry.bind (·.segmentMapper)) q = none
    rw [hseg, denote_none]
  · have hother : otherNames ⟨s, some [(⟨"main", 1, none⟩, m)]⟩ objects = [] := by
      cases hobjects
      simp [otherNames, ownManifest, hbranch, hterm]
    rw [hother]
    refine ⟨by simp, fun n hn ↦ ?_⟩
    exact absurd (mem_manifestsOf.1 hn.mem).1 (by simp)

/-- **A dropped partition's segments come back.** The partition maps segment 0 when it is dropped,
and both deletions succeed. The next write allocates one page and no segment, and publishes a root
that maps segment 0 again. -/
theorem drop_leaves_segments : ∃ s s' t, Histories sampleOptions (.fresh "main" 1) s ∧
    s.task = none ∧
    ((s.drop true).makeCowRoot sampleOptions).taskSteps sampleOptions
      [.allocatePage none, .setRoots (some 0) none 0] = .ok s' ∧
    s'.task = some t ∧ t.segMappingDeltas = [] ∧
    denote ((s'.updateMeta sampleOptions t).liveMapper .segment) 0 = some 0 ∧
    ¬ ∀ y, Idles sampleOptions (drop ⟨s, none⟩ true true) y → Gone sampleOptions y := by
  obtain ⟨s, hrun, hidle, hentry, s', hs', t, ht, hdeltas, hmapped⟩ : ∃ s,
      Histories sampleOptions (.fresh "main" 1) s ∧ s.task = none ∧ s.entry.isSome = true ∧
      ∃ s' ∈ (((s.drop true).makeCowRoot sampleOptions).taskSteps sampleOptions
        [.allocatePage none, .setRoots (some 0) none 0]).toOption,
      ∃ t ∈ s'.task, t.segMappingDeltas = [] ∧
        denote ((s'.updateMeta sampleOptions t).liveMapper .segment) 0 = some 0 :=
    Transition.exists_reach_of_exec segmentWrite (by decide)
  have hsteps := Transition.ok_of_toOption hs'
  refine ⟨s, s', t, hrun, hidle, hsteps, ht, hdeltas, hmapped, fun hgone ↦ ?_⟩
  obtain ⟨root, hroot⟩ := Option.isSome_iff_exists.1 hentry
  have hcached : (drop ⟨s, none⟩ true true).part.entry = some root.cleared := by
    simp [Stored.drop, Partition.drop, hroot]
  have hfind : ((drop ⟨s, none⟩ true true).findRoot sampleOptions true).1.part =
      s.drop true := by
    rw [Stored.findRoot, hcached]
    rfl
  have hmem := (hgone _ .start).own true _ s' t (by rw [hfind]; exact hsteps) ht .segment 0 0
    hmapped
  rw [show t.deltasOf .segment = [] from hdeltas] at hmem
  cases hmem

end EloqStore
