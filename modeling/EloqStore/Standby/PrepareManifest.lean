import EloqStore.Foundation.AssocMap
import EloqStore.Partition.DeleteBranch

/-!
# Preparing the manifest of a standby replica

A replica that finds no manifest of its term takes the manifest of an earlier one:
`RunPrepareManifestJob` looks for the greatest term in the partition's directory, renames that
manifest of the main branch, and removes the manifests of the other terms. **The first and the last
pass do not look at the branch**, so a manifest of another branch may be taken for one of the main
branch, and is removed with them (`prepared_iff`).
-/

namespace EloqStore

open List Option

namespace PrepareManifest

variable {C : Type*}

/-- The manifest files of a directory, with their contents. -/
abbrev Directory (C : Type*) := List (ManifestName × C)

/-- The term of a file, if it is read as a manifest and not as an archive. -/
def listed (n : ManifestName) : Option ℕ :=
  (parseManifestFileSuffix n.suffix).bind fun m ↦ if m.tag.isSome then none else some m.term

def terms (dir : Directory C) : List ℕ := dir.filterMap fun x ↦ listed x.1

def select (targetTerm : ℕ) : Option ℕ → List ℕ → Except KvError (Option ℕ)
  | selected, [] => .ok selected
  | selected, term :: terms =>
    if targetTerm < term then .error .expiredTerm
    else select targetTerm (if selected.all (· < term) then some term else selected) terms

/-- The manifest of the main branch for a term. -/
def mainManifest (term : ℕ) : ManifestName := ⟨mainBranchName, term, none⟩

/-- A file is renamed over another one. -/
def rename (dir : Directory C) (src dst : ManifestName) : Except KvError (Directory C) :=
  match dir.lookup src with
  | none => .error .notFound
  | some c => .ok ((dst, c) :: (dir.filter (·.1 ≠ src)).filter (·.1 ≠ dst))

/-- The loop that removes the manifests of other terms. -/
def cleanup (targetTerm : ℕ) (dir : Directory C) : Directory C :=
  dir.filter fun x ↦ (listed x.1).all (· = targetTerm)

def runPrepareManifestJob (dir : Directory C) (targetTerm : ℕ) : Except KvError (Directory C) :=
  match select targetTerm none (terms dir) with
  | .error e => .error e
  | .ok none => .error .notFound
  | .ok (some selected) =>
    if selected = targetTerm then .ok (cleanup targetTerm dir)
    else
      (rename dir (mainManifest selected) (mainManifest targetTerm)).map (cleanup targetTerm)

/-! ### The passes -/

variable {t : ℕ} {dir dir' : Directory C}

theorem select_some (s : ℕ) (terms : List ℕ) :
    select t (some s) terms =
      if ∀ o ∈ terms, o ≤ t then .ok (some (terms.foldl max s)) else .error .expiredTerm := by
  induction terms generalizing s with
  | nil => rfl
  | cons term terms ih =>
    have hmax : (if (some s).all (· < term) then some term else some s) = some (max s term) := by
      simp only [all_some, decide_eq_true_eq]
      split <;> simp <;> omega
    rw [select, hmax, ih]
    by_cases hle : t < term <;> simp [hle, not_lt.1]

/-- **The first pass selects the greatest term**, if none is above the target. -/
theorem select_eq (terms : List ℕ) :
    select t none terms = if ∀ o ∈ terms, o ≤ t then .ok terms.max? else .error .expiredTerm := by
  cases terms with
  | nil => rfl
  | cons term terms =>
    have hmax : (term :: terms).max? = some (terms.foldl max term) := rfl
    rw [select, all_none, if_pos rfl, select_some, hmax]
    by_cases hle : t < term <;> simp [hle, not_lt.1]

/-- **When the job ends well, and what it leaves.** -/
theorem runPrepareManifestJob_ok : runPrepareManifestJob dir t = .ok dir' ↔
    ∃ s ∈ terms dir, (∀ o ∈ terms dir, o ≤ s) ∧ s ≤ t ∧
      (s = t ∧ dir' = cleanup t dir ∨ s ≠ t ∧ ∃ c, dir.lookup (mainManifest s) = some c ∧
        dir' = cleanup t ((mainManifest t, c) ::
          (dir.filter (·.1 ≠ mainManifest s)).filter (·.1 ≠ mainManifest t))) := by
  rw [runPrepareManifestJob, select_eq]
  by_cases hle : ∀ o ∈ terms dir, o ≤ t
  · rw [if_pos hle]
    cases hmax : (terms dir).max? with
    | none =>
      rw [max?_eq_none_iff] at hmax
      simp [hmax]
    | some s =>
      obtain ⟨hs, hgreatest⟩ := max?_eq_some_iff.1 hmax
      dsimp only
      constructor
      · intro h
        refine ⟨s, hs, hgreatest, hle s hs, ?_⟩
        split at h
        · next hst => exact .inl ⟨hst, (Except.ok.inj h).symm⟩
        · next hst =>
          rw [rename] at h
          cases hc : dir.lookup (mainManifest s) with
          | none =>
            rw [hc] at h
            cases h
          | some c =>
            rw [hc] at h
            exact .inr ⟨hst, c, rfl, (Except.ok.inj h).symm⟩
      · rintro ⟨s', hs', hgreatest', -, hleft⟩
        obtain rfl : s' = s := le_antisymm (hgreatest s' hs') (hgreatest' s hs)
        obtain ⟨hst, rfl⟩ | ⟨hst, c, hc, rfl⟩ := hleft
        · rw [if_pos hst]
        · rw [if_neg hst, rename, hc]
          rfl
  · rw [if_neg hle]
    refine ⟨nofun, ?_⟩
    rintro ⟨s, -, hs, hst, -⟩
    exact absurd (fun o ho ↦ (hs o ho).trans hst) hle

theorem lookup_cleanup (dir : Directory C) (n : ManifestName) :
    (cleanup t dir).lookup n = if (listed n).all (· = t) then dir.lookup n else none :=
  lookup_filter_fst (fun n ↦ (listed n).all (· = t)) dir n

/-- A file of the main branch is looked at for the term it is named after, unless it is an archive.
-/
theorem listed_of_main {n : ManifestName} (h : n.WellNamed) (hmain : n.branch = mainBranchName)
    {o : ℕ} : listed n = some o ↔ n = mainManifest o := by
  obtain ⟨branch, term, tag⟩ := n
  obtain rfl : branch = mainBranchName := hmain
  have hnum : ¬(⟨mainBranchName, term, tag⟩ : ManifestName).IsNumeric :=
    show ¬(parseUint64 mainBranchName.toList).isSome by decide +kernel
  rw [listed, parseManifestFileSuffix_suffix h, if_neg hnum]
  cases tag <;> simp [mainManifest]

/-! ### What is asked for -/

/-- The main branch has a manifest for the term. -/
def MainTerm (dir : Directory C) (term : ℕ) : Prop := (dir.lookup (mainManifest term)).isSome

instance (dir : Directory C) : DecidablePred (MainTerm dir) :=
  fun _ ↦ inferInstanceAs (Decidable (_ = true))

/-- Another branch has a manifest for the term, which the passes look at. -/
def OtherTerm (dir : Directory C) (term : ℕ) : Prop :=
  ∃ n, (dir.lookup n).isSome ∧ n.branch ≠ mainBranchName ∧ listed n = some term

/-- **The job as it is meant**: it ends well if the main branch has a manifest and none for a term
above the target; then the manifest for the target is the one for the greatest term, and those of
other branches are what they were. -/
def Prepared (dir : Directory C) (t : ℕ) : Prop :=
  ((∃ dir', runPrepareManifestJob dir t = .ok dir') ↔
    (∃ m, MainTerm dir m) ∧ ∀ m, MainTerm dir m → m ≤ t) ∧
  ∀ dir', runPrepareManifestJob dir t = .ok dir' →
    (∀ m, MainTerm dir m → (∀ m', MainTerm dir m' → m' ≤ m) →
      dir'.lookup (mainManifest t) = dir.lookup (mainManifest m)) ∧
    ∀ n, n.branch ≠ mainBranchName → dir'.lookup n = dir.lookup n

/-- The content for the target, and the other branches, after a job that ends well. -/
theorem lookup_of_ok (ht : t < 2 ^ 64) (h : runPrepareManifestJob dir t = .ok dir') :
    ∃ s ∈ terms dir, (∀ o ∈ terms dir, o ≤ s) ∧ s ≤ t ∧
      (s ≠ t → MainTerm dir s) ∧ dir'.lookup (mainManifest t) = dir.lookup (mainManifest s) ∧
      ∀ n, n.branch ≠ mainBranchName →
        dir'.lookup n = if (listed n).all (· = t) then dir.lookup n else none := by
  obtain ⟨s, hs, hgreatest, hst, hleft⟩ := runPrepareManifestJob_ok.1 h
  have hkept : (listed (mainManifest t)).all (· = t) := by
    have hmain : IsNormalized mainBranchName := by decide +kernel
    rw [(listed_of_main ⟨hmain, ht, by simp [mainManifest]⟩ rfl).2 rfl]
    exact decide_eq_true rfl
  refine ⟨s, hs, hgreatest, hst, ?_⟩
  obtain ⟨rfl, rfl⟩ | ⟨hne, c, hc, rfl⟩ := hleft
  · refine ⟨absurd rfl, ?_, fun n _ ↦ lookup_cleanup dir n⟩
    rw [lookup_cleanup, if_pos hkept]
  · refine ⟨fun _ ↦ by simp [MainTerm, hc], ?_, fun n hn ↦ ?_⟩
    · rw [lookup_cleanup, if_pos hkept, lookup_cons, beq_self_eq_true, hc]
    · have hother : ∀ o, n ≠ mainManifest o := fun o heq ↦ hn (by rw [heq]; rfl)
      rw [lookup_cleanup, lookup_cons, beq_false_of_ne (hother t)]
      rw [lookup_filter_fst_ne, if_neg (hother t), lookup_filter_fst_ne, if_neg (hother s)]

variable (hdir : ∀ x ∈ dir, x.1.WellNamed)

include hdir

/-- The passes look at the manifests of the main branch and of others. -/
theorem mem_terms {o : ℕ} : o ∈ terms dir ↔ MainTerm dir o ∨ OtherTerm dir o := by
  rw [terms, mem_filterMap]
  constructor
  · rintro ⟨x, hx, ho⟩
    have hsome : (dir.lookup x.1).isSome := lookup_isSome_iff.2 ⟨x, hx, beq_self_eq_true _⟩
    by_cases hmain : x.1.branch = mainBranchName
    · rw [(listed_of_main (hdir x hx) hmain).1 ho] at hsome
      exact .inl hsome
    · exact .inr ⟨x.1, hsome, hmain, ho⟩
  · rintro (hsome | ⟨n, hsome, -, ho⟩)
    · obtain ⟨x, hx, heq⟩ := lookup_isSome_iff.1 hsome
      have heq : x.1 = mainManifest o := (eq_of_beq heq).symm
      exact ⟨x, hx, (listed_of_main (hdir x hx) (by rw [heq]; rfl)).2 heq⟩
    · obtain ⟨x, hx, heq⟩ := lookup_isSome_iff.1 hsome
      exact ⟨x, hx, (eq_of_beq heq) ▸ ho⟩

/-- **When the job does what it is meant to do.** While the main branch has a manifest and none for
a term above the target, the others have none but for the target, which the main branch then has
too. While the main branch has none, no other branch has one for the target as its greatest. -/
theorem prepared_iff (ht : t < 2 ^ 64) : Prepared dir t ↔
    ((∃ m, MainTerm dir m) → (∀ m, MainTerm dir m → m ≤ t) →
      ∀ o, OtherTerm dir o → o = t ∧ MainTerm dir t) ∧
    ((∀ m, ¬MainTerm dir m) → OtherTerm dir t → ∃ o, OtherTerm dir o ∧ t < o) := by
  have hterms := @mem_terms _ _ hdir
  constructor
  · rintro ⟨hends, hleaves⟩
    refine ⟨fun ⟨m, hm⟩ hle o ho ↦ ?_, fun hnone hother ↦ ?_⟩
    · obtain ⟨dir', hok⟩ := hends.2 ⟨⟨m, hm⟩, hle⟩
      obtain ⟨hmain, hothers⟩ := hleaves dir' hok
      obtain ⟨s, hs, hgreatest, hst, -, htarget, hlookup⟩ := lookup_of_ok ht hok
      obtain rfl : o = t := by
        obtain ⟨n, hn, hbranch, hterm⟩ := ho
        by_contra hne
        rw [← hothers n hbranch, hlookup n hbranch, hterm] at hn
        simp [hne] at hn
      obtain rfl : s = o := le_antisymm hst (hgreatest o (hterms.2 (.inr ho)))
      have hfound := Nat.findGreatest_spec (hle m hm) hm
      have hmax := hmain _ hfound fun m' hm' ↦ Nat.le_findGreatest (hle m' hm') hm'
      rw [htarget] at hmax
      exact ⟨rfl, (congrArg isSome hmax).trans hfound⟩
    · by_contra hle
      have hgreatest : ∀ o ∈ terms dir, o ≤ t := fun o ho ↦ not_lt.1 fun hlt ↦
        hle ⟨o, (hterms.1 ho).resolve_left (hnone o), hlt⟩
      obtain ⟨⟨m, hm⟩, -⟩ := hends.1 ⟨_, runPrepareManifestJob_ok.2
        ⟨t, hterms.2 (.inr hother), hgreatest, Nat.le_refl t, .inl ⟨rfl, rfl⟩⟩⟩
      exact hnone m hm
  · rintro ⟨hothers, hnone⟩
    have hends : ∀ dir', runPrepareManifestJob dir t = .ok dir' →
        (∃ m, MainTerm dir m) ∧ ∀ m, MainTerm dir m → m ≤ t := by
      intro dir' hok
      obtain ⟨s, hs, hgreatest, hst, hsrc, -⟩ := lookup_of_ok ht hok
      refine ⟨?_, fun m hm ↦ (hgreatest m (hterms.2 (.inl hm))).trans hst⟩
      by_contra hno
      have hno : ∀ m, ¬MainTerm dir m := fun m hm ↦ hno ⟨m, hm⟩
      obtain rfl : s = t := by
        by_contra hne
        exact hno s (hsrc hne)
      obtain ⟨o, ho, hlt⟩ := hnone hno ((hterms.1 hs).resolve_left (hno s))
      exact absurd (hgreatest o (hterms.2 (.inr ho))) (not_le.2 hlt)
    refine ⟨⟨fun ⟨dir', hok⟩ ↦ hends dir' hok, fun ⟨⟨m, hm⟩, hle⟩ ↦ ?_⟩, fun dir' hok ↦ ?_⟩
    · cases hmax : (terms dir).max? with
      | none => exact absurd (hterms.2 (.inl hm)) (by simp [max?_eq_none_iff.1 hmax])
      | some s =>
        obtain ⟨hs, hgreatest⟩ := max?_eq_some_iff.1 hmax
        have hother := hothers ⟨m, hm⟩ hle
        by_cases hst : s = t
        · exact ⟨_, runPrepareManifestJob_ok.2 ⟨s, hs, hgreatest, hst.le, .inl ⟨hst, rfl⟩⟩⟩
        · have hmain : MainTerm dir s := (hterms.1 hs).resolve_right fun ho ↦ hst (hother s ho).1
          obtain ⟨c, hc⟩ := isSome_iff_exists.1 hmain
          exact ⟨_, runPrepareManifestJob_ok.2
            ⟨s, hs, hgreatest, hle s hmain, .inr ⟨hst, c, hc, rfl⟩⟩⟩
    · obtain ⟨hm, hle⟩ := hends dir' hok
      have hother := hothers hm hle
      obtain ⟨s, hs, hgreatest, hst, hsrc, htarget, hlookup⟩ := lookup_of_ok ht hok
      refine ⟨fun m hmain hmax ↦ ?_, fun n hn ↦ ?_⟩
      · have hs' : MainTerm dir s := by
          rcases hterms.1 hs with h | h
          · exact h
          · obtain ⟨rfl, hmain⟩ := hother s h
            exact hmain
        rw [htarget, le_antisymm (hmax s hs') (hgreatest m (hterms.2 (.inl hmain)))]
      · rw [hlookup n hn]
        split
        · rfl
        · next hnot =>
          by_contra hne
          obtain ⟨o, ho⟩ : ∃ o, listed n = some o := by
            cases hlisted : listed n with
            | none => simp [hlisted] at hnot
            | some o => exact ⟨o, rfl⟩
          have hpresent : (dir.lookup n).isSome := isSome_iff_ne_none.2 (Ne.symm hne)
          exact hnot (by simp [ho, (hother o ⟨n, hpresent, hn, ho⟩).1])

omit hdir

/-- Two branches with a manifest for the target, and an archive of an earlier term. -/
def twoBranches : Directory ℕ :=
  [(mainManifest 5, 7), (⟨"feature", 5, none⟩, 8), (⟨"feature", 3, some "nightly"⟩, 9)]

theorem prepared_iff_twoBranches : Prepared twoBranches 5 := by
  have hmain : MainTerm twoBranches 5 := by decide
  refine (prepared_iff ?_ (by decide)).2 ⟨fun _ _ o ↦ ?_, fun hno ↦ absurd hmain (hno 5)⟩
  · simp only [twoBranches, forall_mem_cons, not_mem_nil, false_imp_iff, implies_true, and_true]
    exact ⟨⟨by decide +kernel, by decide, by decide⟩, ⟨by decide +kernel, by decide, by decide⟩,
      ⟨by decide +kernel, by decide, by decide⟩⟩
  · rintro ⟨n, hn, hbranch, ho⟩
    refine ⟨?_, hmain⟩
    obtain ⟨x, hx, heq⟩ := lookup_isSome_iff.1 hn
    obtain rfl := eq_of_beq heq
    -- the archive is none of the manifests that are looked at
    have hfeature : listed ⟨"feature", 5, none⟩ = some 5 ∧
        listed ⟨"feature", 3, some "nightly"⟩ = none := by
      decide +kernel
    simp only [twoBranches, mem_cons, not_mem_nil, or_false] at hx
    obtain rfl | rfl | rfl := hx
    · exact absurd rfl hbranch
    · exact some.inj (ho.symm.trans hfeature.1)
    · cases ho.symm.trans hfeature.2

/-- **Another branch's manifest is removed**, and one with a greater term is taken for the main
branch's, which then is not found. -/
theorem other_branch_removed :
    (runPrepareManifestJob [(mainManifest 5, 7), (⟨"feature", 3, none⟩, 8)] 5).toOption =
        some [(mainManifest 5, 7)] ∧
      (runPrepareManifestJob [(mainManifest 1, 7), (⟨"feature", 3, none⟩, 8)] 5).toOption =
        none := by
  decide +kernel

end PrepareManifest

end EloqStore
