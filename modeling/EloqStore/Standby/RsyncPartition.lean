import EloqStore.Foundation.AssocMap
import EloqStore.Standby.Reopen

/-!
# What a copied manifest finds in the replica's directory

The two steps of an rsync job copy the data files first and one manifest second. So the manifest may
be newer than the files, and the files are selected by their names: **segment files are never
copied**.

When the job ends well, every file page the fetched manifest maps is in the replica's directory with
the content the manifest refers to, in every run in which (`ReplicaEvent.Steady`)

* the master writes no manifest under the name the job copies, from the start of the data step until
  the manifest has been copied;
* the manifest that is copied maps no segment, and no stray of an earlier job is running then;
* the master rewrites no page and deletes no file that one of its manifests maps. This is what
  append mode and a careful collector give.

The invariant (`Replica.Copies`) says of the manifest the job will copy that each of its data pages
has been copied, or lies in a file that is listed and still to be copied.
-/

namespace EloqStore

open List Option Transition ReplicaEvent ReopenPhase

/-- The job whose manifest has not been copied yet, with the files it still has to copy. -/
def ReopenPhase.todo? : ReopenPhase → Option (String × List FileName)
  | .data tag todo => some (tag, todo)
  | .manifest tag none => some (tag, [])
  | .idle | .queued _ | .manifest _ (some _) | .done _ _ => none

/-- **The condition on events.** -/
def ReplicaEvent.Steady (s : Replica) : ReplicaEvent → Prop
  | .writePage p _ => ∀ o ∈ s.master.manifests, ∀ x ∈ o.2.mapped, x.1 ≠ p
  | .deleteFile f => ∀ o ∈ s.master.manifests, ∀ x ∈ o.2.mapped, x.1.file ≠ f
  | .storeManifest n _ => ∀ job ∈ s.phase.todo?, n ≠ remoteManifestName s.term job.1
  | .copyManifest => s.strays = [] ∧ ∀ job ∈ s.phase.todo?, ∀ man ∈ s.remoteManifest job.1,
      ∀ x ∈ man.mapped, rsyncIncludes x.1.file
  | _ => True

instance (s : Replica) : DecidablePred (ReplicaEvent.Steady s)
  | .writePage .. | .deleteFile .. | .storeManifest .. | .copyManifest => by
    dsimp only [ReplicaEvent.Steady]
    infer_instance
  | .deleteManifest _ | .reopen _ | .startRsyncJob _ | .copyFile _ | .exitData .. | .copyPart
  | .exitManifest _ | .resume _ | .reopenClean | .collect _ | .restart | .strayCopyFile _
  | .strayCopyPart _ | .strayCopyManifest _ | .strayExit _ => .isTrue trivial

/-! ### Manifests on the master -/

variable {man : MasterManifest}

/-- What a manifest records of the pages it maps is what they hold. -/
theorem Master.pages_of_manifestOf {m : Master} {ps : List FilePage}
    (h : m.manifestOf ps = some man) {x : FilePage × ℕ} (hx : x ∈ man.mapped) :
    m.pages x.1 = some x.2 := by
  obtain ⟨mapped, hmap, rfl⟩ := map_eq_some_iff.1 h
  clear h
  induction ps generalizing mapped with
  | nil =>
    cases hmap
    cases hx
  | cons p ps ih =>
    rw [mapM_cons] at hmap
    obtain ⟨y, hy, hmap⟩ := bind_eq_some_iff.1 hmap
    obtain ⟨ys, hys, hmap⟩ := bind_eq_some_iff.1 hmap
    cases hmap
    obtain ⟨v, hv, rfl⟩ := map_eq_some_iff.1 hy
    rcases mem_cons.1 hx with rfl | hx
    · exact hv
    · exact ih ys hys hx

namespace Replica

/-- **The invariant of a job.** -/
structure Copies (s : Replica) : Prop where
  intact : ∀ o ∈ s.master.manifests, ∀ x ∈ o.2.mapped, s.master.pages x.1 = some x.2
  /-- A page that has been written is in a file. -/
  file : ∀ p v, s.master.pages p = some v → p.file ∈ s.master.files
  /-- What the job will need has been copied, or will be. -/
  todo : ∀ job ∈ s.phase.todo?, ∀ man ∈ s.remoteManifest job.1, ∀ x ∈ man.mapped,
    rsyncIncludes x.1.file → x.1.file ∈ job.2 ∨ s.pages x.1 = some x.2
  copied : ∀ man ∈ s.phase.copied?, ∀ x ∈ man.mapped, s.pages x.1 = some x.2

namespace Copies

variable {s t : Replica}

variable (h : s.Copies)

include h

theorem of_phase (hmaster : t.master = s.master) (htodo : t.phase.todo? = none)
    (hcopied : t.phase.copied? = none) : t.Copies where
  intact := hmaster ▸ h.intact
  file := hmaster ▸ h.file
  todo job hjob := absurd (htodo ▸ hjob) (by simp)
  copied man hman := absurd (hcopied ▸ hman) (by simp)

/-- The master changes, and every manifest that is there after was there before. -/
theorem ofMaster (hphase : t.phase = s.phase) (hpages : t.pages = s.pages) (hterm : t.term = s.term)
    (hintact : ∀ o ∈ t.master.manifests, ∀ x ∈ o.2.mapped, t.master.pages x.1 = some x.2)
    (hfile : ∀ p v, t.master.pages p = some v → p.file ∈ t.master.files)
    (hlookup : ∀ job ∈ s.phase.todo?, ∀ man,
      t.master.manifests.lookup (remoteManifestName s.term job.1) = some man →
      s.remoteManifest job.1 = some man) : t.Copies where
  intact := hintact
  file := hfile
  todo job hjob man hman := by
    rw [hphase] at hjob
    rw [hpages]
    rw [remoteManifest, hterm] at hman
    exact h.todo job hjob man (hlookup job hjob man hman)
  copied := by
    rw [hphase, hpages]
    exact h.copied

theorem writePage {p : FilePage} {v : ℕ} (hsteady : (writePage p v).Steady s) :
    Copies { s with master := s.master.writePage p v } := by
  refine h.ofMaster rfl rfl rfl (fun o ho x hx ↦ ?_) (fun q w hq ↦ ?_) fun _ _ _ hman ↦ hman
  · exact (if_neg (hsteady o ho x hx)).trans (h.intact o ho x hx)
  · have hmem : q.file = p.file ∨ q.file ∈ s.master.files := by
      by_cases hqp : q = p
      · exact .inl (congrArg _ hqp)
      · exact .inr (h.file q w ((if_neg hqp).symm.trans hq))
    show q.file ∈ if p.file ∈ s.master.files then s.master.files else p.file :: s.master.files
    rcases hmem with heq | hmem
    · rw [heq]
      split
      · assumption
      · exact mem_cons_self
    · split
      · exact hmem
      · exact mem_cons_of_mem _ hmem

theorem storeManifest {n : ManifestName} {ps : List FilePage}
    (hsteady : (storeManifest n ps).Steady s) (hman : s.master.manifestOf ps = some man) :
    Copies { s with master := s.master.storeManifest n man } := by
  refine h.ofMaster rfl rfl rfl (fun o ho x hx ↦ ?_) h.file fun job hjob man' hman' ↦ ?_
  · rcases mem_cons.1 ho with rfl | ho
    · exact Master.pages_of_manifestOf hman hx
    · exact h.intact o (mem_of_mem_filter ho) x hx
  · have hne : remoteManifestName s.term job.1 ≠ n := (hsteady job hjob).symm
    rw [Master.storeManifest, lookup_cons, beq_false_of_ne hne, lookup_filter_fst_ne,
      if_neg hne] at hman'
    exact hman'

theorem deleteManifest (n : ManifestName) :
    Copies { s with master := s.master.deleteManifest n } := by
  refine h.ofMaster rfl rfl rfl (fun o ho ↦ h.intact o (mem_of_mem_filter ho)) h.file
    fun job _ man hman ↦ ?_
  rw [Master.deleteManifest, lookup_filter_fst_ne] at hman
  exact (ite_none_left_eq_some.1 hman).2

theorem deleteFile {f : FileName} (hsteady : (deleteFile f).Steady s) :
    Copies { s with master := s.master.deleteFile f } := by
  refine h.ofMaster rfl rfl rfl (fun o ho x hx ↦ ?_) (fun p v hp ↦ ?_) fun _ _ _ hman ↦ hman
  · exact (if_neg (hsteady o ho x hx)).trans (h.intact o ho x hx)
  · obtain ⟨hne, hv⟩ := ite_none_left_eq_some.1 hp
    exact mem_filter.2 ⟨h.file p v hv, decide_eq_true hne⟩

/-- **The data step lists every file its manifest needs.** -/
theorem startData (tag : String) :
    Copies { s with phase := .data tag (s.master.files.filter rsyncIncludes) } where
  __ := h
  todo job hjob man hman x hx hinc := by
    cases hjob
    exact .inl (mem_filter.2
      ⟨h.file _ _ (h.intact _ (mem_of_lookup hman) x hx), hinc⟩)
  copied man hman := absurd hman (by simp [copied?])

/-- A file is copied as it is, so with the pages of every manifest that is there. -/
theorem copyFile {tag : String} {todo : List FileName} (hphase : s.phase = .data tag todo)
    (f : FileName) :
    Copies { s with pages := s.copyPages f, phase := .data tag (todo.filter (· ≠ f)) } where
  __ := h
  todo job hjob man hman x hx hinc := by
    cases hjob
    have hold : x.1.file ∈ todo ∨ s.pages x.1 = some x.2 :=
      h.todo (tag, todo) (by rw [hphase]; rfl) man hman x hx hinc
    by_cases hf : x.1.file = f
    · exact .inr ((if_pos hf).trans (h.intact _ (mem_of_lookup hman) x hx))
    · rcases hold with hmem | hpage
      · exact .inl (mem_filter.2 ⟨hmem, decide_eq_true hf⟩)
      · exact .inr ((if_neg hf).trans hpage)
  copied man hman := absurd hman (by simp [copied?])

/-- The manifest step starts when nothing is left to copy. -/
theorem startManifest {tag : String} (hphase : s.phase = .data tag []) :
    Copies { s with phase := .manifest tag none } where
  __ := h
  todo job hjob := by
    cases hjob
    exact h.todo (tag, []) (by rw [hphase]; rfl)
  copied man hman := absurd hman (by simp [copied?])

/-- **The manifest that is copied is the one whose pages have been**, and it maps no segment. -/
theorem copyManifest {tag : String} (hsteady : copyManifest.Steady s)
    (hphase : s.phase = .manifest tag none) (hman : s.remoteManifest tag = some man) :
    Copies { s with manifestTmp := some (.whole man), phase := .manifest tag (some man) } where
  __ := h
  todo job hjob := absurd hjob (by simp [todo?])
  copied man' hman' x hx := by
    obtain rfl : man = man' := some.inj hman'
    have hjob : (tag, []) ∈ s.phase.todo? := by
      rw [hphase]
      rfl
    rcases h.todo _ hjob man hman x hx (hsteady.2 _ hjob man hman x hx) with hmem | hpage
    · cases hmem
    · exact hpage

/-- A stray copies a file while the job still has its manifest to copy. -/
theorem strayCopyFile (f : FileName) (hcopied : s.phase.copied? = none) :
    Copies { s with pages := s.copyPages f } where
  __ := h
  todo job hjob man hman x hx hinc := by
    refine (h.todo job hjob man hman x hx hinc).imp_right fun hpage ↦ ?_
    by_cases hf : x.1.file = f
    · exact (if_pos hf).trans (h.intact _ (mem_of_lookup hman) x hx)
    · exact (if_neg hf).trans hpage
  copied man hman := absurd (hcopied ▸ hman) (by simp)

/-- Every event keeps the invariant, if it meets the condition. -/
theorem event (hf : s.Fetches) {e : ReplicaEvent} (hsteady : e.Steady s)
    (hrun : e.run s = some t) : t.Copies := by
  cases e with
  | writePage p v =>
    cases hrun
    exact h.writePage hsteady
  | storeManifest n ps =>
    obtain ⟨man, hman, rfl⟩ := map_eq_some_iff.1 hrun
    exact h.storeManifest hsteady hman
  | deleteManifest n =>
    cases hrun
    exact h.deleteManifest n
  | deleteFile f =>
    cases hrun
    exact h.deleteFile hsteady
  | reopen tag =>
    obtain ⟨-, rfl⟩ := ite_some_none_eq_some.1 hrun
    exact h.of_phase rfl rfl rfl
  | startRsyncJob failed =>
    obtain ⟨tag, -, ⟨e, strays, -, rfl⟩ | rfl⟩ := startRsyncJob_ok hrun
    · exact h.of_phase rfl rfl rfl
    · exact h.startData tag
  | copyFile f =>
    obtain ⟨tag, todo, hphase, rfl⟩ := copyFile_ok hrun
    exact h.copyFile hphase f
  | exitData status failed =>
    obtain ⟨tag, todo, hphase, ⟨e, strays, -, rfl⟩ | ⟨rfl, rfl⟩⟩ := exitData_ok hrun
    · exact h.of_phase rfl rfl rfl
    · exact h.startManifest hphase
  | copyPart =>
    obtain ⟨tag, -, rfl⟩ := copyPart_ok hrun
    exact ⟨h.intact, h.file, h.todo, h.copied⟩
  | copyManifest =>
    obtain ⟨tag, man, hphase, hman, rfl⟩ := copyManifest_ok hrun
    exact h.copyManifest hsteady hphase hman
  | exitManifest status =>
    obtain ⟨tag, copied, result, hphase, -, rfl⟩ := exitManifest_ok hrun
    refine ⟨h.intact, h.file, by simp [todo?], ?_⟩
    intro man hman
    exact h.copied man (by rw [hphase]; exact hman)
  | resume rename =>
    obtain ⟨result, copied, -, ⟨-, rfl⟩ | rfl⟩ := resume_ok hrun
    · exact h.of_phase (s.master_refreshManifest copied rename) rfl rfl
    · exact h.of_phase rfl rfl rfl
  | reopenClean | strayCopyPart tag | strayExit child =>
    obtain ⟨-, rfl⟩ := ite_some_none_eq_some.1 hrun
    exact ⟨h.intact, h.file, h.todo, h.copied⟩
  | strayCopyManifest tag =>
    obtain ⟨man, -, rfl⟩ := map_eq_some_iff.1 (ite_none_right_eq_some.1 hrun).2
    exact ⟨h.intact, h.file, h.todo, h.copied⟩
  | strayCopyFile f =>
    obtain ⟨⟨hmem, -⟩, rfl⟩ := ite_some_none_eq_some.1 hrun
    refine h.strayCopyFile f ?_
    by_contra hne
    rw [hf.alone hne] at hmem
    cases hmem
  | collect f =>
    obtain ⟨hidle, rfl⟩ := ite_some_none_eq_some.1 hrun
    exact h.of_phase rfl (by rw [hidle]; rfl) (by rw [hidle]; rfl)
  | restart =>
    cases hrun
    exact h.of_phase rfl rfl rfl

end Copies

/-- **A job that ends well has fetched a manifest and all it maps**, in every steady run. -/
theorem pages_of_steady (term : ℕ) {s : Replica} {copied : Option MasterManifest}
    (hrun : ReplicaRuns ReplicaEvent.Steady { term := term } s)
    (hdone : s.phase = .done .noError copied) :
    ∃ man, s.manifestTmp = some (.whole man) ∧ ∀ x ∈ man.mapped, s.pages x.1 = some x.2 := by
  have hinit : Copies { term := term } :=
    ⟨by simp, by simp, by simp [todo?], by simp [copied?]⟩
  obtain ⟨hcopies, hfetches⟩ := hrun.invariant (fun s ↦ s.Copies ∧ s.Fetches)
    ⟨hinit, .of_phase rfl (by simp)⟩ fun h hg hstep ↦
      ⟨h.1.event h.2 hg hstep, h.2.event (fun heq ↦ by subst heq; exact hg.1) hstep⟩
  obtain ⟨man, rfl⟩ := isSome_iff_exists.1 (hfetches.done copied hdone)
  have hcopied : s.phase.copied? = some man := by
    rw [hdone]
    rfl
  exact ⟨man, hfetches.tmp man hcopied, hcopies.copied man hcopied⟩

theorem pages_of_steady_fetched : ∃ s : Replica, ∃ copied : Option MasterManifest,
    ReplicaRuns ReplicaEvent.Steady { term := 0 } s ∧ s.phase = .done .noError copied ∧
      ∃ man, s.manifestTmp = some (.whole man) ∧ ∀ x ∈ man.mapped, s.pages x.1 = some x.2 := by
  obtain ⟨s, hrun, hp⟩ : ∃ s, ReplicaRuns Steady { term := 0 } s ∧
      s.phase = .done .noError (some ⟨[(samplePage, 7)]⟩) :=
    exists_reach_of_exec (fetchData ++ [.copyManifest, .exitManifest (.exited 0)])
      (by decide +kernel)
  exact ⟨s, _, hrun, hp, pages_of_steady 0 hrun hp⟩

/-- A second data page, in a file of its own. -/
def laterPage : FilePage := ⟨⟨dataFileKey 1, ⟨mainBranchName, 0⟩⟩, 16⟩

def sampleSegment : FilePage := ⟨⟨segmentFileKey 0, ⟨mainBranchName, 0⟩⟩, 0⟩

/-- **A job ends well and what its manifest maps is missing.** In the first run the master commits a
page in a new file between the two steps. In the second the master is idle while the job runs, and
the manifest maps a segment. -/
theorem fetched_manifest_lacks_pages :
    (∃ s : Replica, ∃ man : MasterManifest, ReplicaRuns (fun _ _ ↦ True) { term := 0 } s ∧
      s.phase = .done .noError (some man) ∧ s.manifestTmp = some (.whole man) ∧
        ∃ x ∈ man.mapped, rsyncIncludes x.1.file ∧ s.pages x.1 = none) ∧
    ∃ s : Replica, ∃ man : MasterManifest, ReplicaRuns (fun _ _ ↦ True) { term := 0 } s ∧
      s.phase = .done .noError (some man) ∧ s.manifestTmp = some (.whole man) ∧
        ∃ x ∈ man.mapped, x.1.file.fid.cls = .segment ∧ s.pages x.1 = none := by
  let newer : MasterManifest := ⟨[(samplePage, 7), (laterPage, 8)]⟩
  let large : MasterManifest := ⟨[(samplePage, 7), (sampleSegment, 9)]⟩
  obtain ⟨s, hrun, hp⟩ : ∃ s, ReplicaRuns (fun _ _ ↦ True) { term := 0 } s ∧
      s.phase = .done .noError (some newer) ∧ s.manifestTmp = some (.whole newer) ∧
      s.pages laterPage = none :=
    exists_reach_of_exec
      (fetchData ++ [.writePage laterPage 8,
        .storeManifest (remoteManifestName 0 "") [samplePage, laterPage], .copyManifest,
        .exitManifest (.exited 0)])
      (by decide +kernel)
  obtain ⟨s', hrun', hp'⟩ : ∃ s, ReplicaRuns (fun _ _ ↦ True) { term := 0 } s ∧
      s.phase = .done .noError (some large) ∧ s.manifestTmp = some (.whole large) ∧
      s.pages sampleSegment = none :=
    exists_reach_of_exec
      [.writePage samplePage 7, .writePage sampleSegment 9,
        .storeManifest (remoteManifestName 0 "") [samplePage, sampleSegment], .reopen "",
        .startRsyncJob none, .copyFile samplePage.file, .exitData (.exited 0) none,
        .copyManifest, .exitManifest (.exited 0)]
      (by decide +kernel)
  obtain ⟨hdone, htmp, hpage⟩ := hp
  obtain ⟨hdone', htmp', hpage'⟩ := hp'
  exact ⟨⟨s, newer, hrun, hdone, htmp, (laterPage, 8), by simp [newer], rfl, hpage⟩,
    s', large, hrun', hdone', htmp', (sampleSegment, 9), by simp [large], rfl, hpage'⟩

end Replica

end EloqStore
