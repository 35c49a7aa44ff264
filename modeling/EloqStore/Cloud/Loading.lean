import EloqStore.Cloud.ManifestSelection
import EloqStore.Partition.WriteTask

/-!
# Loading a partition from the object store

A root that is not cached is loaded from the local manifest, and without one from the object store:
the selected manifest is downloaded, renamed to the instance's own if it is another's, uploaded
under that name, and replayed. If the upload fails the manifest is not found.
-/

namespace EloqStore

/-- A partition, with the manifests and archives the object store holds for it; `none` without an
object store. -/
structure Stored where
  /-- The partition of the running instance. -/
  part : Partition
  cloud : Option (List (ManifestName × Manifest))
deriving DecidableEq, Repr

/-- The outcome of looking for a root. -/
inductive LoadResult
  | ok
  | notFound
  | expiredTerm
  /-- A listed name cannot be parsed, and the process stops. -/
  | fatal
deriving DecidableEq, Repr

/-- The name of the instance's own manifest. -/
def Partition.ownManifest (s : Partition) : ManifestName := ⟨s.activeBranch, s.processTerm, none⟩

namespace Stored

variable (opts : KvOptions) (x : Stored)

/-- Install a downloaded manifest, uploaded again under the instance's own name if it is promoted,
and load it. -/
def install (m : Manifest) (promoted : Bool) : Stored where
  part := { x.part with manifest := some m }.loadMeta opts m
  cloud := if promoted then x.cloud.map fun objects ↦ objects ++ [(x.part.ownManifest, m)]
    else x.cloud

/-- Find the root: in the cache, in the local manifest, in the object store. A cached stub is not
found. `uploaded` says whether a promoted manifest can be uploaded. -/
def findRoot (uploaded : Bool) : Stored × LoadResult :=
  match x.part.entry with
  | some root => (x, if root.mapper.isSome then .ok else .notFound)
  | none =>
    match x.part.manifest with
    | some m => ({ x with part := x.part.loadMeta opts m }, .ok)
    | none =>
      match x.cloud with
      | none => (x, .notFound)
      | some objects =>
        match getManifest (objects.map (·.1.suffix)) x.part.activeBranch x.part.processTerm
            uploaded with
        | .notFound | .notUploaded _ _ => (x, .notFound)
        | .expiredTerm => (x, .expiredTerm)
        | .fatal => (x, .fatal)
        | .found source promotedAs =>
          match objects.find? (·.1.suffix = source) with
          | none => (x, .notFound)
          | some (_, m) => (x.install opts m promotedAs.isSome, .ok)

/-- **What a search for the root does to the objects**: nothing, unless a manifest found there is
promoted. -/
theorem findRoot_cloud (uploaded : Bool) :
    (x.findRoot opts uploaded).1.cloud = x.cloud ∨
      (x.part.entry = none ∧ x.part.manifest = none ∧ ∃ objects source promotedAs n m,
        x.cloud = some objects ∧
        getManifest (objects.map (·.1.suffix)) x.part.activeBranch x.part.processTerm uploaded =
          .found source (some promotedAs) ∧
        (n, m) ∈ objects ∧ n.suffix = source ∧
        (x.findRoot opts uploaded).1.cloud = some (objects ++ [(x.part.ownManifest, m)])) := by
  unfold findRoot
  cases hentry : x.part.entry with
  | some root => exact .inl rfl
  | none =>
    cases hman : x.part.manifest with
    | some m => exact .inl rfl
    | none =>
      cases hcloud : x.cloud with
      | none => exact .inl hcloud
      | some objects =>
        dsimp only
        split
        · exact .inl hcloud
        · exact .inl hcloud
        · exact .inl hcloud
        · exact .inl hcloud
        · next source promotedAs hfound =>
          split
          · exact .inl hcloud
          · next n m hfind =>
            cases promotedAs with
            | none => exact .inl (by simp [install, hcloud])
            | some p =>
              refine .inr ⟨rfl, rfl, objects, source, p, n, m, rfl, hfound,
                List.mem_of_find?_eq_some hfind, by simpa using List.find?_some hfind, ?_⟩
              simp [install, hcloud]

/-- A search that finds the root leaves it in the cache. -/
theorem findRoot_loaded (uploaded : Bool) :
    (x.findRoot opts uploaded).1.part.entry.isSome ∨
      x.part.entry = none ∧ (x.findRoot opts uploaded).2 ≠ .ok := by
  unfold findRoot
  split
  · next root hroot => exact .inl (by rw [hroot]; rfl)
  · next hentry =>
    split
    · exact .inl rfl
    split
    · exact .inr ⟨hentry, by simp⟩
    split
    · exact .inr ⟨hentry, by simp⟩
    · exact .inr ⟨hentry, by simp⟩
    · exact .inr ⟨hentry, by simp⟩
    · exact .inr ⟨hentry, by simp⟩
    split
    · exact .inr ⟨hentry, by simp⟩
    · exact .inl rfl

/-- **When nothing is found** with no entry: there is no local manifest, and none is selected. -/
theorem findRoot_eq_notFound {opts : KvOptions} {x : Stored} (hentry : x.part.entry = none)
    (hnf : (x.findRoot opts true).2 = .notFound) :
    x.part.manifest = none ∧ ∀ objects, x.cloud = some objects →
      getManifest (objects.map (·.1.suffix)) x.part.activeBranch x.part.processTerm true =
        .notFound := by
  unfold findRoot at hnf
  rw [hentry] at hnf
  cases hman : x.part.manifest with
  | some m => simp [hman] at hnf
  | none =>
    refine ⟨rfl, fun objects hcloud ↦ ?_⟩
    simp only [hman, hcloud] at hnf
    split at hnf
    · assumption
    · next hfound => exact absurd hfound getManifest_ne_notUploaded
    · cases hnf
    · cases hnf
    · next source promotedAs hfound =>
      -- what is found is listed, and what is listed is there
      obtain ⟨o, ho, hsource⟩ := List.mem_map.1 (mem_of_getManifest_found hfound)
      split at hnf
      · next hnone =>
        exact absurd (List.find?_eq_none.1 hnone o ho) (by simp [hsource])
      · cases hnf

theorem findRoot_owner (uploaded : Bool) :
    (x.findRoot opts uploaded).1.part.owner = x.part.owner := by
  unfold findRoot
  split
  · rfl
  · split
    · rfl
    · split
      · rfl
      · split
        · rfl
        · rfl
        · rfl
        · rfl
        · split <;> rfl

end Stored

end EloqStore
