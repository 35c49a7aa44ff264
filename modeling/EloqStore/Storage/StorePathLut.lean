import Mathlib.Algebra.Order.BigOperators.Group.List
import Mathlib.Tactic.Ring

/-!
# The table of store paths

`ComputeStorePathLut` turns the weights of the store paths into a table with one entry per unit of
weight, from which a partition picks its path. The weights are divided by their greatest common
divisor, and scaled down when there are more units than entries asked for. Both the sum of the
weights and the scale are computed in 64 bits, and an entry has 32. A sum that wraps around can give
a table of any length (`lut_overflow`); for the others `lut_iff` says when the table is right.
-/

namespace EloqStore

open List

namespace StorePathLut

/-- The weights divided by their greatest common divisor, where zero counts as one. -/
def shares (weights : List ℕ) : List ℕ :=
  let normalized := weights.map fun w ↦ if w = 0 then 1 else w
  let gcdValue := normalized.tail.foldl Nat.gcd (normalized.headD 0)
  if 1 < gcdValue then normalized.map (· / gcdValue) else normalized

/-- The sum of the shares, as `total_slots` has it. -/
def totalSlots (l : List ℕ) : ℕ := l.foldl (fun t w ↦ (t + w) % 2 ^ 64) 0

/-- The shares and their sum; when the sum is zero, every path counts one. -/
def counted (l : List ℕ) : List ℕ × ℕ :=
  if totalSlots l = 0 then (l.map fun _ ↦ 1, l.length) else (l, totalSlots l)

/-- Scale shares down to the number of entries. There is no result when one is divided by zero. -/
def scaled (l : List ℕ) (total maxEntries : ℕ) : Option (List ℕ) :=
  if maxEntries < total then
    let scale := (total + maxEntries - 1) % 2 ^ 64 / maxEntries
    if scale = 0 then none else some (l.map fun w ↦ max 1 (w / scale))
  else some l

def slots (weights : List ℕ) (maxEntries : ℕ) : Option (List ℕ) :=
  scaled (counted (shares weights)).1 (counted (shares weights)).2 maxEntries

/-- The entries of the paths, one path behind the other. -/
def fill (l : List ℕ) : List ℕ := l.zipIdx.flatMap fun x ↦ .replicate x.1 (x.2 % 2 ^ 32)

def computeStorePathLut (weights : List ℕ) (maxEntries : ℕ) : Option (List ℕ) :=
  if weights = [] ∨ maxEntries = 0 then some [] else (slots weights maxEntries).map fill

/-! ### Shares and entries -/

theorem foldl_gcd_dvd (a : ℕ) (l : List ℕ) :
    l.foldl Nat.gcd a ∣ a ∧ ∀ x ∈ l, l.foldl Nat.gcd a ∣ x := by
  induction l generalizing a with
  | nil => exact ⟨Nat.dvd_refl a, fun x hx ↦ absurd hx not_mem_nil⟩
  | cons b l ih =>
    obtain ⟨hgcd, hl⟩ := ih (a.gcd b)
    refine ⟨Nat.dvd_trans hgcd (Nat.gcd_dvd_left a b), fun x hx ↦ ?_⟩
    rcases mem_cons.1 hx with rfl | hx
    · exact Nat.dvd_trans hgcd (Nat.gcd_dvd_right a x)
    · exact hl x hx

theorem pos_of_mem_shares {weights : List ℕ} {w : ℕ} (hw : w ∈ shares weights) : 0 < w := by
  have hpos : ∀ w ∈ weights.map (fun w ↦ if w = 0 then 1 else w), 0 < w := by
    intro w hw
    obtain ⟨v, -, rfl⟩ := mem_map.1 hw
    split <;> omega
  rw [shares] at hw
  generalize weights.map (fun w ↦ if w = 0 then 1 else w) = l at hpos hw
  split at hw
  · next hgcd =>
    obtain ⟨v, hv, rfl⟩ := mem_map.1 hw
    refine Nat.div_pos (Nat.le_of_dvd (hpos v hv) ?_) (by omega)
    cases l with
    | nil => exact absurd hv not_mem_nil
    | cons a l =>
      rcases mem_cons.1 hv with rfl | hv
      · exact (foldl_gcd_dvd _ l).1
      · exact (foldl_gcd_dvd a l).2 v hv
  · exact hpos w hw

theorem length_shares (weights : List ℕ) : (shares weights).length = weights.length := by
  rw [shares]
  split <;> simp

theorem totalSlots_eq (l : List ℕ) : totalSlots l = l.sum % 2 ^ 64 := by
  have h : ∀ t, l.foldl (fun t w ↦ (t + w) % 2 ^ 64) (t % 2 ^ 64) = (t + l.sum) % 2 ^ 64 := by
    induction l with
    | nil => exact fun t ↦ rfl
    | cons w l ih =>
      intro t
      rw [foldl_cons, Nat.mod_add_mod, ih, sum_cons, Nat.add_assoc]
  simpa [totalSlots] using h 0

theorem length_fill (l : List ℕ) : (fill l).length = l.sum := by
  simp [fill, length_flatMap]

theorem mem_fill {l : List ℕ} (hl : ∀ w ∈ l, 0 < w) {i : ℕ} :
    i ∈ fill l ↔ ∃ idx < l.length, idx % 2 ^ 32 = i := by
  constructor
  · intro hi
    obtain ⟨x, hx, hi⟩ := mem_flatMap.1 hi
    obtain ⟨hlt, -⟩ := List.getElem?_eq_some_iff.1 (mem_zipIdx_iff_getElem?.1 hx)
    exact ⟨x.2, hlt, (mem_replicate.1 hi).2.symm⟩
  · rintro ⟨idx, hlt, rfl⟩
    refine mem_flatMap.2 ⟨(l[idx], idx), mem_zipIdx_iff_getElem?.2 (getElem?_eq_getElem hlt), ?_⟩
    exact mem_replicate.2 ⟨(hl _ (getElem_mem hlt)).ne', rfl⟩

theorem mem_fill_iff_lt {l : List ℕ} (hl : ∀ w ∈ l, 0 < w) :
    (∀ i, i ∈ fill l ↔ i < l.length) ↔ l.length ≤ 2 ^ 32 := by
  constructor
  · intro h
    by_contra hlong
    obtain ⟨idx, -, hidx⟩ := (mem_fill hl).1 ((h (2 ^ 32)).2 (not_le.1 hlong))
    omega
  · intro hshort i
    refine (mem_fill hl).trans ⟨?_, fun hi ↦ ⟨i, hi, Nat.mod_eq_of_lt (by omega)⟩⟩
    rintro ⟨idx, hlt, rfl⟩
    exact (Nat.mod_le ..).trans_lt hlt

/-- Rounding every share down and then up to one adds at most one entry for each path. -/
theorem sum_scaled_le (l : List ℕ) (scale : ℕ) :
    (l.map fun w ↦ max 1 (w / scale)).sum ≤ l.sum / scale + l.length := by
  induction l with
  | nil => exact Nat.zero_le _
  | cons w l ih =>
    have hone : max 1 (w / scale) ≤ w / scale + 1 :=
      Nat.max_le.2 ⟨Nat.le_add_left .., Nat.le_add_right ..⟩
    have hdiv : w / scale + l.sum / scale ≤ (w + l.sum) / scale := Nat.div_add_div_le_add_div
    rw [map_cons, sum_cons, sum_cons, length_cons]
    omega

variable {weights l l' : List ℕ} {total maxEntries : ℕ}

theorem of_scaled (h : scaled l total maxEntries = some l') (hl : ∀ w ∈ l, 0 < w) :
    l'.length = l.length ∧ ∀ w ∈ l', 0 < w := by
  rw [scaled] at h
  split at h
  · obtain ⟨-, heq⟩ := Option.ite_none_left_eq_some.1 h
    cases heq
    refine ⟨length_map _, fun w hw ↦ ?_⟩
    obtain ⟨v, -, rfl⟩ := mem_map.1 hw
    exact Nat.le_max_left ..
  · cases h
    exact ⟨rfl, hl⟩

/-- The scale is rounded up in 64 bits, and is zero if that overflows. -/
theorem scaled_eq_none_iff (hmax : 0 < maxEntries) (htotal : total < 2 ^ 64) :
    scaled l total maxEntries = none ↔ maxEntries < total ∧ 2 ^ 64 < total + maxEntries := by
  rw [scaled]
  split
  · next hlt =>
    have hzero : (total + maxEntries - 1) % 2 ^ 64 / maxEntries = 0 ↔
        2 ^ 64 < total + maxEntries := by
      rw [Nat.div_eq_zero_iff_lt hmax]
      omega
    rw [ite_eq_left_iff, hzero]
    simp [hlt]
  · next hle => simp [hle]

/-- **Scaling shares that add up to the total leaves few enough entries.** -/
theorem sum_scaled (h : scaled l total maxEntries = some l') (hmax : 0 < maxEntries)
    (htotal : total < 2 ^ 64) (hsum : l.sum = total) : l'.sum ≤ maxEntries + l.length := by
  have hsome : ¬(maxEntries < total ∧ 2 ^ 64 < total + maxEntries) :=
    fun hnone ↦ nomatch h.symm.trans ((scaled_eq_none_iff hmax htotal).2 hnone)
  rw [scaled] at h
  split at h
  · next hlt =>
    obtain ⟨-, heq⟩ := Option.ite_none_left_eq_some.1 h
    cases heq
    have hmod : (total + maxEntries - 1) % 2 ^ 64 = total + maxEntries - 1 :=
      Nat.mod_eq_of_lt (by omega)
    have hscale := Nat.div_add_mod (total + maxEntries - 1) maxEntries
    have hrem := Nat.mod_lt (total + maxEntries - 1) hmax
    have hdiv : l.sum / ((total + maxEntries - 1) / maxEntries) ≤ maxEntries := by
      refine Nat.div_le_of_le_mul ?_
      rw [Nat.mul_comm, hsum]
      omega
    rw [hmod]
    exact (sum_scaled_le l _).trans (Nat.add_le_add_right hdiv _)
  · cases h
    omega

theorem sum_shares_pos (hne : weights ≠ []) : 0 < (shares weights).sum := by
  have hlen : 0 < (shares weights).length := by
    rw [length_shares]
    exact length_pos_iff.2 hne
  obtain ⟨w, hw⟩ := exists_mem_of_length_pos hlen
  exact (pos_of_mem_shares hw).trans_le (le_sum_of_mem hw)

/-- A sum that does not wrap around is the one that is counted. -/
theorem counted_shares (hne : weights ≠ []) (hsum : (shares weights).sum < 2 ^ 64) :
    counted (shares weights) = (shares weights, (shares weights).sum) := by
  have hpos := sum_shares_pos hne
  rw [counted, totalSlots_eq, Nat.mod_eq_of_lt hsum, if_neg (by omega)]

/-- **When the table is as it should be.** As long as the sum of the shares has 64 bits, the table
has the indices of the paths and no more entries than asked for and one for each path, if and only
if there are at most `2 ^ 32` paths and rounding up the scale does not overflow. -/
theorem lut_iff (hne : weights ≠ []) (hmax : 0 < maxEntries)
    (hsum : (shares weights).sum < 2 ^ 64) :
    (∃ lut, computeStorePathLut weights maxEntries = some lut ∧
      (∀ i, i ∈ lut ↔ i < weights.length) ∧ lut.length ≤ maxEntries + weights.length) ↔
    weights.length ≤ 2 ^ 32 ∧
      (maxEntries < (shares weights).sum → (shares weights).sum + maxEntries ≤ 2 ^ 64) := by
  have hlen := length_shares weights
  have hpos : ∀ w ∈ shares weights, 0 < w := fun w ↦ pos_of_mem_shares
  have hnone := scaled_eq_none_iff (l := shares weights) hmax hsum
  rw [computeStorePathLut, if_neg (by simp [hne]; omega), slots, counted_shares hne hsum]
  constructor
  · rintro ⟨lut, h, hmem, -⟩
    obtain ⟨l, hl, rfl⟩ := Option.map_eq_some_iff.1 h
    obtain ⟨hll, hposl⟩ := of_scaled hl hpos
    rw [hlen] at hll
    refine ⟨hll ▸ (mem_fill_iff_lt hposl).1 (hll ▸ hmem), fun hlt ↦ ?_⟩
    by_contra hover
    exact nomatch hl.symm.trans (hnone.2 ⟨hlt, by omega⟩)
  · rintro ⟨hshort, hscale⟩
    have hsome : scaled (shares weights) (shares weights).sum maxEntries ≠ none := by
      rw [Ne, hnone]
      omega
    obtain ⟨l, hl⟩ := Option.ne_none_iff_exists'.1 hsome
    obtain ⟨hll, hposl⟩ := of_scaled hl hpos
    have hle := sum_scaled hl hmax hsum rfl
    rw [hlen] at hll hle
    refine ⟨fill l, by rw [hl]; rfl, hll ▸ (mem_fill_iff_lt hposl).2 (hll ▸ hshort), ?_⟩
    rwa [length_fill]

/-- Weights of three paths, scaled down to four entries. -/
theorem lut_iff_three : ∃ lut, computeStorePathLut [6, 0, 4] 4 = some lut ∧
    (∀ i, i ∈ lut ↔ i < 3) ∧ lut.length ≤ 7 :=
  (@lut_iff [6, 0, 4] 4 (by simp) (by decide) (by decide)).2 ⟨by decide, by decide⟩

/-- **The sum of the weights wraps around to one**, and the table gets an entry for every unit. -/
theorem lut_overflow : (computeStorePathLut [2 ^ 64 - 1, 2] (2 ^ 20)).map length =
    some (2 ^ 64 + 1) := by
  have hslots : slots [2 ^ 64 - 1, 2] (2 ^ 20) = some [2 ^ 64 - 1, 2] := by decide
  rw [computeStorePathLut, if_neg (by simp), hslots]
  simp [length_fill]

end StorePathLut

end EloqStore
