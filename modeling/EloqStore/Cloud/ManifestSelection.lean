import EloqStore.Cloud.FileNames
import EloqStore.Foundation.LastMaximum

/-!
# Which manifest a cloud instance loads

A cloud instance without a local manifest asks the object store for the manifest of its own branch
and term. If there is none, it lists every manifest of the partition and takes the one with the
greatest term, **whatever its branch**; `getManifest` then downloads that one and, if its term is
older, renames it to the instance's own and uploads it under that name. `refreshManifest` takes the
greatest term of all branches too, looks for its own branch's manifest of that term, and renames it
without an upload. Both end by opening the instance's own manifest, and a local file that the cache
does not know is downloaded for it: a renamed file that is not in the object store is not found.

So what an instance loads is its own branch's newest manifest only when the other branches do not
interfere. `Isolated` says when: exactly then, and if a manifest of an older term can be uploaded
and the cache knows the file, both functions do what they should
(`manifests_selected_iff_isolated`); without it a branch can be loaded with another one's content
and publish it as its own (`promotes_other_branch`).
-/

namespace EloqStore

open List ManifestName Option

open LastMaximum

/-- The outcome of looking for a manifest. -/
inductive ManifestResult
  /-- The content of the object `source`, uploaded again as `promotedAs` if that is given. -/
  | found (source : List Char) (promotedAs : Option (List Char))
  | notFound
  /-- The object `source`, renamed locally, could not be uploaded as `promotedAs`, and is not found
  under that name. -/
  | notUploaded (source promotedAs : List Char)
  | expiredTerm
  /-- A listed name cannot be parsed, and the process stops. -/
  | fatal
deriving DecidableEq, Repr

/-- The suffix of the manifest of a branch and term. -/
def manifestSuffix (branch : BranchName) (term : ℕ) : List Char :=
  (ManifestName.mk branch term none).suffix

/-! ### The functions -/

/-- The loop over the listed names: parse each, skip archives, keep the best term. `none` is the
failure to parse. -/
def selectManifest : Option ManifestName → List (List Char) → Option (Option ManifestName)
  | best, [] => some best
  | best, name :: names =>
    (parseManifestFileSuffix name).bind fun n ↦
      selectManifest (if n.tag.isSome then best else better ManifestName.term best n) names

/-- The store's own term file, should the listing show nothing else. -/
def currentTermFileName : List Char := "CURRENT_TERM".toList

/-- There is nothing to select from. -/
def nothingListed (names : List (List Char)) : Bool :=
  names.isEmpty || names = [currentTermFileName]

/-- `CloudStoreMgr::GetManifest` with no local manifest, over the names in the cloud; `uploaded`
says whether a promoted manifest can be uploaded. -/
def getManifest (names : List (List Char)) (activeBranch : BranchName) (processTerm : ℕ)
    (uploaded : Bool) : ManifestResult :=
  let own := manifestSuffix activeBranch processTerm
  if own ∈ names then .found own none
  else if nothingListed names then .notFound
  else
    match selectManifest none names with
    | none => .fatal
    | some none => .notFound
    | some (some selected) =>
      if processTerm < selected.term then .expiredTerm
      else
        let source := manifestSuffix selected.branch selected.term
        if source ∉ names then .notFound
        else if selected.term ≠ processTerm then
          -- a failed upload is logged, and the file is not there when it is opened
          if uploaded then .found source (some own) else .notUploaded source own
        else
          -- nothing is promoted, and the file opened is the instance's own
          if source = own then .found own none else .notFound

/-- `CloudStoreMgr::RefreshManifest` without an archive tag, over the names in the cloud; `cached`
says whether the cache knows a local file of the instance's own name. -/
def refreshManifest (names : List (List Char)) (activeBranch : BranchName) (processTerm : ℕ)
    (cached : Bool) : ManifestResult :=
  let own := manifestSuffix activeBranch processTerm
  if own ∈ names then .found own none
  else if nothingListed names then .notFound
  else
    match selectManifest none names with
    | none => .fatal
    | some none => .notFound
    | some (some selected) =>
      let source := manifestSuffix activeBranch selected.term
      -- renamed to the instance's own, which is downloaded if the cache does not know it
      if source ∈ names ∧ cached then .found source none else .notFound

/-! ### What they should do -/

/-- The manifests among the listed names; the others are archives. -/
def manifestsOf (ns : List ManifestName) : List ManifestName := ns.filter (·.tag.isNone)

def greatestTerm (ns : List ManifestName) (branch : BranchName) : Option ℕ :=
  (((manifestsOf ns).filter (·.branch = branch)).map (·.term)).max?

/-- **The right outcome** for a branch and term: the branch's newest manifest, an error if that is
of a later term, and nothing if the branch has none. -/
def RightManifest (ns : List ManifestName) (branch : BranchName) (term : ℕ) (r : ManifestResult) :
    Prop :=
  match greatestTerm ns branch with
  | none => r = .notFound
  | some newest =>
    if term < newest then r = .expiredTerm
    else ∃ promotedAs, r = .found (manifestSuffix branch newest) promotedAs

/-- **The other branches do not interfere.** Either the branch's newest manifest is of the running
term; or it has none of that term, no listed branch name reads as a number, and its newest manifest
is the last of the newest of all branches, or, if it has none, every newest manifest of all is of
the running term. -/
def Isolated (ns : List ManifestName) (branch : BranchName) (term : ℕ) : Prop :=
  greatestTerm ns branch = some term ∨
    (⟨branch, term, none⟩ ∉ ns ∧ (∀ n ∈ ns, ¬ n.IsNumeric) ∧
      match greatestTerm ns branch with
      | some newest =>
        newest < term ∧ IsLastMax ManifestName.term (manifestsOf ns) ⟨branch, newest, none⟩
      | none => ∀ n, IsLastMax ManifestName.term (manifestsOf ns) n → n.term = term)

instance (ns : List ManifestName) (branch : BranchName) (term : ℕ) :
    Decidable (Isolated ns branch term) :=
  have : Decidable (match greatestTerm ns branch with
      | some newest =>
        newest < term ∧ IsLastMax ManifestName.term (manifestsOf ns) ⟨branch, newest, none⟩
      | none => ∀ n, IsLastMax ManifestName.term (manifestsOf ns) n → n.term = term) :=
    match greatestTerm ns branch with
    | some _ => inferInstanceAs (Decidable (_ ∧ _))
    | none => inferInstanceAs (Decidable (∀ n, IsLastMax ManifestName.term _ n → _))
  inferInstanceAs (Decidable (_ ∨ _ ∧ _ ∧ _))

/-! ### The listing -/

variable {n : ManifestName} {ns : List ManifestName} {branch : BranchName}

theorem mem_manifestsOf : n ∈ manifestsOf ns ↔ n ∈ ns ∧ n.tag = none := by
  simp [manifestsOf]

theorem selectManifest_map (hns : ∀ n ∈ ns, n.WellNamed) (best : Option ManifestName) :
    selectManifest best (ns.map suffix) =
      if ∃ n ∈ ns, n.IsNumeric then none
      else some ((manifestsOf ns).foldl (better term) best) := by
  induction ns generalizing best with
  | nil => simp [selectManifest, manifestsOf]
  | cons n ns ih =>
    rw [map_cons, selectManifest, parseManifestFileSuffix_suffix (hns n (by simp))]
    by_cases hnum : n.IsNumeric
    · rw [if_pos hnum, if_pos ⟨n, by simp, hnum⟩]
      rfl
    · have hiff : (∃ m ∈ n :: ns, m.IsNumeric) ↔ ∃ m ∈ ns, m.IsNumeric := by simp [hnum]
      rw [if_neg hnum, bind_some, ih fun m hm ↦ hns m (mem_cons_of_mem n hm)]
      simp only [hiff]
      cases htag : n.tag with
      | none => simp [manifestsOf, htag]
      | some tag => simp [manifestsOf, htag]

theorem suffix_mem_map_iff (hns : ∀ n ∈ ns, n.WellNamed) (hn : n.WellNamed) :
    n.suffix ∈ ns.map suffix ↔ n ∈ ns := by
  rw [List.mem_map]
  refine ⟨fun ⟨m, hm, heq⟩ ↦ ?_, fun h ↦ ⟨n, h, rfl⟩⟩
  rwa [← suffix_inj (hns m hm) hn heq]

theorem suffix_ne_currentTermFileName (hn : n.WellNamed) : n.suffix ≠ currentTermFileName := by
  intro heq
  have hsplit := splitAtSeparator_suffix hn.branch
  rw [heq, show splitAtSeparator currentTermFileName = some ("CURRENT".toList, "TERM".toList) by
    decide, some.injEq, Prod.mk.injEq] at hsplit
  have hbranch : n.branch = "CURRENT" := String.toList_injective hsplit.1.symm
  -- the name is in capitals, and a normalized one is not
  exact absurd (hbranch ▸ hn.branch) (by decide)

theorem nothingListed_map (hns : ∀ n ∈ ns, n.WellNamed) :
    nothingListed (ns.map suffix) = true ↔ ns = [] := by
  rw [nothingListed, Bool.or_eq_true, List.isEmpty_iff, List.map_eq_nil_iff, decide_eq_true_eq]
  refine ⟨fun h ↦ h.resolve_right fun heq ↦ ?_, .inl⟩
  obtain ⟨n, hn, hsuffix⟩ := List.mem_map.1 (heq ▸ List.mem_singleton_self currentTermFileName)
  exact suffix_ne_currentTermFileName (hns n hn) hsuffix

private theorem mem_terms {term : ℕ} :
    term ∈ ((manifestsOf ns).filter (·.branch = branch)).map (·.term) ↔
      ⟨branch, term, none⟩ ∈ ns := by
  simp only [List.mem_map, mem_filter, mem_manifestsOf, decide_eq_true_eq]
  constructor
  · rintro ⟨n, ⟨⟨hn, htag⟩, rfl⟩, rfl⟩
    rwa [← htag]
  · exact fun h ↦ ⟨_, ⟨⟨h, rfl⟩, rfl⟩, rfl⟩

theorem greatestTerm_eq_none (h : greatestTerm ns branch = none) (term : ℕ) :
    ⟨branch, term, none⟩ ∉ ns := by
  rw [greatestTerm, max?_eq_none_iff] at h
  rw [← mem_terms, h]
  exact not_mem_nil

theorem greatestTerm_eq_some {newest : ℕ} (h : greatestTerm ns branch = some newest) :
    ⟨branch, newest, none⟩ ∈ ns ∧ ∀ term, ⟨branch, term, none⟩ ∈ ns → term ≤ newest := by
  rw [greatestTerm, max?_eq_some_iff] at h
  exact ⟨mem_terms.1 h.1, fun term hterm ↦ h.2 term (mem_terms.2 hterm)⟩

/-! ### What the functions do on a listing of the store's own names -/

theorem mem_of_getManifest_found {names : List (List Char)} {term : ℕ} {source : List Char}
    {promotedAs : Option (List Char)} {uploaded : Bool}
    (h : getManifest names branch term uploaded = .found source promotedAs) : source ∈ names := by
  unfold getManifest at h
  dsimp only at h
  split at h
  · next hown => exact (ManifestResult.found.inj h).1 ▸ hown
  split at h
  · cases h
  split at h
  · cases h
  · cases h
  split at h
  · cases h
  split at h
  · cases h
  next hsource =>
  split at h
  · split at h
    · exact (ManifestResult.found.inj h).1 ▸ not_not.1 hsource
    · cases h
  split at h
  · next heq =>
    rw [← (ManifestResult.found.inj h).1, ← heq]
    exact not_not.1 hsource
  · cases h

theorem getManifest_ne_notUploaded {names : List (List Char)} {term : ℕ}
    {source promotedAs : List Char} :
    getManifest names branch term true ≠ .notUploaded source promotedAs := by
  grind [getManifest]

section Selected

variable {ns : List ManifestName} {branch : BranchName} {term : ℕ} {uploaded cached : Bool}

variable (uploaded cached) in
/-- The instance's own manifest is listed: both take it. -/
theorem getManifest_of_own (h : ⟨branch, term, none⟩ ∈ ns) :
    getManifest (ns.map suffix) branch term uploaded =
        .found (manifestSuffix branch term) none ∧
      refreshManifest (ns.map suffix) branch term cached =
        .found (manifestSuffix branch term) none := by
  have hmem : manifestSuffix branch term ∈ ns.map suffix :=
    List.mem_map.2 ⟨_, h, rfl⟩
  simp only [getManifest, refreshManifest, if_pos hmem, and_self]

variable (hns : ∀ n ∈ ns, n.WellNamed) (hbranch : IsNormalized branch) (hterm : term < 2 ^ 64)

include hns hbranch hterm

section

variable (h : ⟨branch, term, none⟩ ∉ ns)

include h

/-- The instance's own manifest is not listed: both look at the listing. -/
private theorem own_notMem :
    manifestSuffix branch term ∉ ns.map suffix := by
  have hown : (mk branch term none).WellNamed := ⟨hbranch, hterm, by simp⟩
  rwa [manifestSuffix, suffix_mem_map_iff hns hown]

variable (uploaded cached) in
theorem getManifest_of_numeric (hnum : ∃ n ∈ ns, n.IsNumeric) :
    getManifest (ns.map suffix) branch term uploaded = .fatal ∧
      refreshManifest (ns.map suffix) branch term cached = .fatal := by
  have hown := own_notMem hns hbranch hterm h
  have hlisted : ¬ nothingListed (ns.map suffix) = true := by
    rw [nothingListed_map hns]
    obtain ⟨n, hn, -⟩ := hnum
    exact ne_nil_of_mem hn
  have hsel := selectManifest_map hns none
  rw [if_pos hnum] at hsel
  simp only [getManifest, refreshManifest, if_neg hown, if_neg hlisted, hsel, and_self]

variable (uploaded cached) in
theorem getManifest_of_none (hnum : ¬ ∃ n ∈ ns, n.IsNumeric)
    (hnone : lastMaxBy ManifestName.term (manifestsOf ns) = none) :
    getManifest (ns.map suffix) branch term uploaded = .notFound ∧
      refreshManifest (ns.map ManifestName.suffix) branch term cached = .notFound := by
  have hown := own_notMem hns hbranch hterm h
  have hsel := selectManifest_map hns none
  rw [if_neg hnum, show (manifestsOf ns).foldl (better ManifestName.term) none = none from hnone]
    at hsel
  simp only [getManifest, refreshManifest, if_neg hown, hsel]
  split <;> exact ⟨rfl, rfl⟩

variable (uploaded cached) in
/-- Otherwise both go by the last of the newest manifests of all branches. -/
theorem getManifest_of_selected (hnum : ¬ ∃ n ∈ ns, n.IsNumeric)
    (hn : IsLastMax ManifestName.term (manifestsOf ns) n) :
    getManifest (ns.map ManifestName.suffix) branch term uploaded =
        (if term < n.term then .expiredTerm
          else if n.term ≠ term then
            if uploaded then
              .found (manifestSuffix n.branch n.term) (some (manifestSuffix branch term))
            else .notUploaded (manifestSuffix n.branch n.term) (manifestSuffix branch term)
          else .notFound) ∧
      refreshManifest (ns.map ManifestName.suffix) branch term cached =
        if ⟨branch, n.term, none⟩ ∈ ns ∧ cached then .found (manifestSuffix branch n.term) none
        else .notFound := by
  have hown := own_notMem hns hbranch hterm h
  obtain ⟨hmem, htag⟩ := mem_manifestsOf.1 hn.mem
  have hlisted : ¬ nothingListed (ns.map ManifestName.suffix) = true := by
    rw [nothingListed_map hns]
    exact List.ne_nil_of_mem hmem
  have hsel := selectManifest_map hns none
  rw [if_neg hnum, show (manifestsOf ns).foldl (better ManifestName.term) none = some n from
    lastMaxBy_eq_some_iff.2 hn] at hsel
  have hsuffix : n.suffix = manifestSuffix n.branch n.term := by
    rw [manifestSuffix, ← htag]
  have hsource : manifestSuffix n.branch n.term ∈ ns.map ManifestName.suffix :=
    List.mem_map.2 ⟨n, hmem, hsuffix⟩
  have hne : manifestSuffix n.branch n.term ≠ manifestSuffix branch term := fun heq ↦
    hown (heq ▸ hsource)
  have hrefresh : manifestSuffix branch n.term ∈ ns.map ManifestName.suffix ↔
      ⟨branch, n.term, none⟩ ∈ ns :=
    suffix_mem_map_iff hns ⟨hbranch, (hns n hmem).term, by simp⟩
  simp only [getManifest, refreshManifest, if_neg hown, if_neg hlisted, hsel, hsource, not_true,
    if_false, hne, hrefresh, and_self]

end

/-- **What an isolated branch finds** is its own newest manifest, promoted if that is of an older
term. -/
theorem getManifest_found_of_isolated (h : Isolated ns branch term) {source : List Char}
    {promotedAs : Option (List Char)}
    (hfound : getManifest (ns.map suffix) branch term uploaded = .found source promotedAs) :
    ∃ newest, greatestTerm ns branch = some newest ∧ source = manifestSuffix branch newest ∧
      (promotedAs.isSome → newest < term) ∧ (promotedAs = none → newest = term) := by
  by_cases hown : ⟨branch, term, none⟩ ∈ ns
  · rw [(getManifest_of_own uploaded true hown).1] at hfound
    obtain ⟨rfl, rfl⟩ := ManifestResult.found.inj hfound
    rcases h with hnew | ⟨hnot, -⟩
    · exact ⟨term, hnew, rfl, by simp, fun _ ↦ rfl⟩
    · exact absurd hown hnot
  rcases h with hnew | ⟨-, hnum, hcase⟩
  · exact absurd (greatestTerm_eq_some hnew).1 hown
  have hnum' : ¬ ∃ n ∈ ns, n.IsNumeric := fun ⟨n, hn, hn'⟩ ↦ hnum n hn hn'
  cases hsel : lastMaxBy ManifestName.term (manifestsOf ns) with
  | none =>
    rw [(getManifest_of_none uploaded true hns hbranch hterm hown hnum' hsel).1] at hfound
    cases hfound
  | some n =>
    have hn := lastMaxBy_eq_some_iff.1 hsel
    rw [(getManifest_of_selected uploaded true hns hbranch hterm hown hnum' hn).1] at hfound
    cases hnew : greatestTerm ns branch with
    | none =>
      rw [hnew] at hcase
      simp [hcase n hn] at hfound
    | some newest =>
      rw [hnew] at hcase
      obtain rfl := hn.unique hcase.2
      rw [if_neg (lt_asymm hcase.1), if_pos hcase.1.ne] at hfound
      split at hfound
      · obtain ⟨rfl, rfl⟩ := ManifestResult.found.inj hfound
        exact ⟨newest, rfl, rfl, fun _ ↦ hcase.1, by simp⟩
      · cases hfound

/-- **When nothing is found**: the instance's own manifest is not listed, and no other is taken in
its place. A manifest of the running term that is another branch's is selected, and then not opened.
-/
theorem getManifest_eq_notFound_iff :
    getManifest (ns.map suffix) branch term uploaded = .notFound ↔
      ⟨branch, term, none⟩ ∉ ns ∧ (∀ n ∈ ns, ¬ n.IsNumeric) ∧
        ∀ n, IsLastMax ManifestName.term (manifestsOf ns) n → n.term = term := by
  by_cases hown : ⟨branch, term, none⟩ ∈ ns
  · rw [(getManifest_of_own uploaded true hown).1]
    exact iff_of_false (by simp) fun h ↦ h.1 hown
  by_cases hnum : ∃ n ∈ ns, n.IsNumeric
  · rw [(getManifest_of_numeric uploaded true hns hbranch hterm hown hnum).1]
    obtain ⟨n, hn, hn'⟩ := hnum
    exact iff_of_false (by simp) fun h ↦ h.2.1 n hn hn'
  have hnum' : ∀ n ∈ ns, ¬ n.IsNumeric := fun n hn hn' ↦ hnum ⟨n, hn, hn'⟩
  cases hsel : lastMaxBy ManifestName.term (manifestsOf ns) with
  | none =>
    rw [(getManifest_of_none uploaded true hns hbranch hterm hown hnum hsel).1]
    refine iff_of_true rfl ⟨hown, hnum', fun n hn ↦ ?_⟩
    rw [lastMaxBy_eq_some_iff.2 hn] at hsel
    cases hsel
  | some n =>
    have hn := lastMaxBy_eq_some_iff.1 hsel
    rw [(getManifest_of_selected uploaded true hns hbranch hterm hown hnum hn).1]
    constructor
    · intro h
      refine ⟨hown, hnum', fun m hm ↦ ?_⟩
      rw [hm.unique hn]
      by_contra hne
      split at h
      · cases h
      · split at h <;> cases h
    · intro h
      have heq := h.2.2 n hn
      simp [heq]

omit hns hbranch hterm in
/-- With the instance's own manifest listed, it is right to take it if there is no newer one. -/
private theorem right_own_iff (hown : ⟨branch, term, none⟩ ∈ ns) :
    RightManifest ns branch term (.found (manifestSuffix branch term) none) ↔
      Isolated ns branch term := by
  cases hnew : greatestTerm ns branch with
  | none => exact absurd hown (greatestTerm_eq_none hnew term)
  | some newest =>
    have hle : term ≤ newest := (greatestTerm_eq_some hnew).2 term hown
    simp only [RightManifest, Isolated, hnew, some.injEq, hown, not_true, false_and,
      or_false]
    by_cases hlt : term < newest
    · simp only [hlt, if_true, reduceCtorEq, false_iff]
      omega
    · obtain rfl : newest = term := by omega
      simp

omit hns hbranch hterm in
/-- A branch without a manifest: nothing should be found. -/
private theorem right_none_iff (hown : ⟨branch, term, none⟩ ∉ ns) (hnum : ¬ ∃ n ∈ ns, n.IsNumeric)
    (hn : IsLastMax ManifestName.term (manifestsOf ns) n) (hnew : greatestTerm ns branch = none) :
    n.term = term ↔ Isolated ns branch term := by
  simp only [Isolated, hnew, reduceCtorEq, false_or]
  refine ⟨fun heq ↦ ⟨hown, fun m hm hmnum ↦ hnum ⟨m, hm, hmnum⟩, fun m hm ↦ ?_⟩,
    fun h ↦ h.2.2 n hn⟩
  rw [hm.unique hn, heq]

omit hns hbranch hterm in
/-- A branch with manifests, none of them of the running term: it is isolated if its newest one is
older and is the one selected. -/
private theorem isolated_some_iff {newest : ℕ} (hown : ⟨branch, term, none⟩ ∉ ns)
    (hnum : ¬ ∃ n ∈ ns, n.IsNumeric) (hn : IsLastMax ManifestName.term (manifestsOf ns) n)
    (hnew : greatestTerm ns branch = some newest) :
    newest < term ∧ n = ⟨branch, newest, none⟩ ↔ Isolated ns branch term := by
  simp only [Isolated, hnew, some.injEq]
  constructor
  · rintro ⟨hlt, rfl⟩
    exact .inr ⟨hown, fun m hm hmnum ↦ hnum ⟨m, hm, hmnum⟩, hlt, hn⟩
  · rintro (rfl | ⟨-, -, hlt, hmax⟩)
    · exact absurd (greatestTerm_eq_some hnew).1 hown
    · exact ⟨hlt, hn.unique hmax⟩

omit hbranch hterm in
/-- For such a branch both outcomes are right in the same case. -/
private theorem right_some_iff {newest : ℕ} (hown : ⟨branch, term, none⟩ ∉ ns)
    (hn : IsLastMax ManifestName.term (manifestsOf ns) n)
    (hnew : greatestTerm ns branch = some newest) :
    (RightManifest ns branch term (if term < n.term then .expiredTerm
        else if n.term ≠ term then
          if uploaded then
            .found (manifestSuffix n.branch n.term) (some (manifestSuffix branch term))
          else .notUploaded (manifestSuffix n.branch n.term) (manifestSuffix branch term)
        else .notFound) ∧
      RightManifest ns branch term (if ⟨branch, n.term, none⟩ ∈ ns ∧ cached then
        .found (manifestSuffix branch n.term) none else .notFound)) ↔
      (newest < term ∧ n = ⟨branch, newest, none⟩) ∧ uploaded ∧ cached := by
  obtain ⟨hmem, htag⟩ := mem_manifestsOf.1 hn.mem
  have hnewMem := (greatestTerm_eq_some hnew).1
  simp only [RightManifest, hnew]
  by_cases hlt : newest < term
  · rw [if_neg (lt_asymm hlt), if_neg (lt_asymm hlt)]
    rcases Nat.lt_trichotomy term n.term with hgt | heq | hgt
    · rw [if_pos hgt]
      refine iff_of_false (by simp) fun h ↦ ?_
      rw [h.1.2] at hgt
      exact lt_asymm hlt hgt
    · rw [if_neg (Nat.not_lt_of_le heq.symm.le), if_neg (by simp [heq])]
      refine iff_of_false (by simp) fun h ↦ ?_
      rw [h.1.2] at heq
      exact Nat.ne_of_gt hlt heq
    · rw [if_neg (lt_asymm hgt), if_pos hgt.ne]
      constructor
      · rintro ⟨⟨p, hp⟩, q, hq⟩
        obtain ⟨hup, hp⟩ : uploaded = true ∧ _ := by
          split at hp
          · next hup => exact ⟨hup, hp⟩
          · cases hp
        obtain ⟨hcached, -⟩ : cached = true ∧ _ := by
          split at hq
          · next hin => exact ⟨hin.2, hq⟩
          · cases hq
        have hname : (⟨n.branch, n.term, none⟩ : ManifestName) = ⟨branch, newest, none⟩ :=
          suffix_inj ⟨(hns n hmem).branch, (hns n hmem).term, by simp⟩
            (hns _ hnewMem) (ManifestResult.found.inj hp).1
        exact ⟨⟨hlt, by rw [← hname, ← htag]⟩, hup, hcached⟩
      · rintro ⟨⟨-, rfl⟩, hup, hcached⟩
        exact ⟨⟨_, if_pos hup⟩, none, if_pos ⟨hnewMem, hcached⟩⟩
  · -- the branch's own newest manifest is of a later term, and a refresh does not say so
    have hgt : term < newest := by
      refine Nat.lt_of_le_of_ne (not_lt.1 hlt) fun heq ↦ ?_
      exact hown (heq ▸ hnewMem)
    rw [if_pos hgt, if_pos hgt]
    refine iff_of_false (fun ⟨_, href⟩ ↦ ?_) fun h ↦ hlt h.1.1
    split at href <;> cases href

/-- **Both functions do what they should exactly when the other branches do not interfere**, and a
manifest of an older term, if that is what the branch has, is uploaded and known to the cache. -/
theorem manifests_selected_iff_isolated :
    (RightManifest ns branch term
        (getManifest (ns.map ManifestName.suffix) branch term uploaded) ∧
      RightManifest ns branch term
        (refreshManifest (ns.map ManifestName.suffix) branch term cached)) ↔
      Isolated ns branch term ∧
        (⟨branch, term, none⟩ ∈ ns ∨ greatestTerm ns branch = none ∨ uploaded ∧ cached) := by
  by_cases hown : ⟨branch, term, none⟩ ∈ ns
  · obtain ⟨hget, href⟩ := getManifest_of_own uploaded cached hown
    rw [hget, href, and_self, and_iff_left (.inl hown)]
    exact right_own_iff hown
  have hne : greatestTerm ns branch ≠ some term := fun heq ↦ hown (greatestTerm_eq_some heq).1
  by_cases hnum : ∃ n ∈ ns, n.IsNumeric
  · -- both stop, which is never right
    obtain ⟨hget, href⟩ := getManifest_of_numeric uploaded cached hns hbranch hterm hown hnum
    have hwrong : ¬ RightManifest ns branch term .fatal := by
      unfold RightManifest
      split
      · simp
      · split <;> simp
    rw [hget, href]
    refine iff_of_false (fun h ↦ hwrong h.1) ?_
    rintro ⟨h | ⟨-, hnot, -⟩, -⟩
    · exact hne h
    · obtain ⟨n, hn, hnnum⟩ := hnum
      exact hnot n hn hnnum
  have hnot : ∀ n ∈ ns, ¬ n.IsNumeric := fun n hn hnnum ↦ hnum ⟨n, hn, hnnum⟩
  cases hsel : lastMaxBy ManifestName.term (manifestsOf ns) with
  | none =>
    -- no manifest at all
    obtain ⟨hget, href⟩ := getManifest_of_none uploaded cached hns hbranch hterm hown hnum hsel
    have hempty : manifestsOf ns = [] := lastMaxBy_eq_none_iff.1 hsel
    have hnew : greatestTerm ns branch = none := by simp [greatestTerm, hempty]
    have hlast : ∀ n, ¬ IsLastMax ManifestName.term (manifestsOf ns) n := fun n hn ↦
      absurd hn.mem (by simp [hempty])
    have hright : RightManifest ns branch term .notFound := by
      rw [RightManifest, hnew]
    have hisolated : Isolated ns branch term := by
      rw [Isolated, hnew]
      exact .inr ⟨hown, hnot, fun n hn ↦ absurd hn (hlast n)⟩
    rw [hget, href]
    exact iff_of_true ⟨hright, hright⟩ ⟨hisolated, .inr (.inl hnew)⟩
  | some n =>
    have hlast : IsLastMax ManifestName.term (manifestsOf ns) n := lastMaxBy_eq_some_iff.1 hsel
    obtain ⟨hget, href⟩ := getManifest_of_selected uploaded cached hns hbranch hterm hown hnum hlast
    obtain ⟨hmem, htag⟩ := mem_manifestsOf.1 hlast.mem
    rw [hget, href]
    cases hnew : greatestTerm ns branch with
    | none =>
      have hbr : ¬ (⟨branch, n.term, none⟩ ∈ ns ∧ cached = true) := fun h ↦
        greatestTerm_eq_none hnew n.term h.1
      rw [← right_none_iff hown hnum hlast hnew]
      simp only [RightManifest, hnew, if_neg hbr, and_true, true_or, or_true]
      rcases Nat.lt_trichotomy term n.term with hlt | heq | hgt
      · rw [if_pos hlt]
        exact iff_of_false (by simp) hlt.ne'
      · rw [if_neg (Nat.not_lt_of_le heq.symm.le), if_neg (by simp [heq])]
        exact iff_of_true rfl heq.symm
      · rw [if_neg (lt_asymm hgt), if_pos hgt.ne]
        exact iff_of_false (by split <;> simp) hgt.ne
    | some newest =>
      rw [← isolated_some_iff hown hnum hlast hnew, right_some_iff hns hown hlast hnew]
      simp [hown]

end Selected

/-- The listing of a partition whose branch has a manifest of an older term and nothing else. -/
theorem manifests_selected_alone :
    RightManifest [⟨"main", 3, none⟩, ⟨"main", 3, some "a"⟩] "main" 7
        (getManifest ([⟨"main", 3, none⟩, ⟨"main", 3, some "a"⟩].map ManifestName.suffix)
          "main" 7 true) ∧
      RightManifest [⟨"main", 3, none⟩, ⟨"main", 3, some "a"⟩] "main" 7
        (refreshManifest ([⟨"main", 3, none⟩, ⟨"main", 3, some "a"⟩].map ManifestName.suffix)
          "main" 7 true) := by
  refine (manifests_selected_iff_isolated ?_ (by decide) (by decide)).2
    ⟨.inr ⟨by decide, ?_, ?_⟩, .inr (.inr ⟨rfl, rfl⟩)⟩
  · intro n hn
    simp only [mem_cons, not_mem_nil, or_false] at hn
    rcases hn with rfl | rfl <;> exact ⟨by decide, by decide, by decide⟩
  · decide
  · exact ⟨by decide, [], [], rfl, by simp, by simp⟩

/-- **Another branch's manifest is loaded and promoted.** The instance runs as `main` under term 7;
listed are `main`'s manifest of term 3 and `feature`'s of term 5. It loads `feature`'s content and
uploads it as `main`'s manifest of term 7. -/
theorem promotes_other_branch :
    getManifest ([⟨"main", 3, none⟩, ⟨"feature", 5, none⟩].map ManifestName.suffix) "main" 7 true =
      .found "feature_5".toList (some "main_7".toList) ∧
    ¬ RightManifest [⟨"main", 3, none⟩, ⟨"feature", 5, none⟩] "main" 7 (getManifest
      ([⟨"main", 3, none⟩, ⟨"feature", 5, none⟩].map ManifestName.suffix) "main" 7 true) := by
  have hget : getManifest ([⟨"main", 3, none⟩, ⟨"feature", 5, none⟩].map suffix)
      "main" 7 true = .found "feature_5".toList (some "main_7".toList) := by
    decide
  refine ⟨hget, ?_⟩
  rintro ⟨p, hp⟩
  exact absurd (ManifestResult.found.inj hp).1 (by decide)

end EloqStore
