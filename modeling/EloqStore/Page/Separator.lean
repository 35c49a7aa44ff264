import Mathlib.Data.List.Basic

/-!
# The separators of data pages

Where a data page is full, the next one begins, and the index gets a key between the two: the
shortest part of the first key of the new page that is above the last key before it
(`findShortestSeparator`). A small last page takes entries over from the page before it; its key in
the index is then its first key (`finishDataPage`).

`Compare` orders keys by their bytes, as unsigned numbers, and a key before those it begins. That is
the order of lists of `UInt8`.
-/

namespace EloqStore

open List Std

namespace Separator

/-- The loop of `FindShortestSeparator`: how many bytes of `right` are those of `left`. -/
def diffIdx : List UInt8 → List UInt8 → ℕ
  | a :: left, b :: right => if a = b then diffIdx left right + 1 else 0
  | _, _ => 0

def findShortestSeparator (left right : List UInt8) : List UInt8 :=
  right.take (diffIdx left right + 1)

/-- **The keys of the two pages and of the index**, after `FinishDataPage` of a new page: the page
before it keeps its first keys if the two are redistributed, and all of them otherwise. -/
def finishDataPage (prev cur : List (List UInt8)) (pageKey : List UInt8) :
    Option ℕ → List (List UInt8) × List (List UInt8) × List UInt8
  | none => (prev, cur, pageKey)
  | some preserved =>
    let new := prev.drop preserved ++ cur
    (prev.take preserved, new, new.headD pageKey)

variable {left right : List UInt8}

theorem lt_separator (h : left < right) : left < findShortestSeparator left right := by
  induction left generalizing right with
  | nil =>
    cases right with
    | nil => exact absurd h (List.lt_irrefl [])
    | cons b right => exact nil_lt_cons b []
  | cons a left ih =>
    cases right with
    | nil => exact absurd h (not_lt_nil _)
    | cons b right =>
      rw [findShortestSeparator, diffIdx]
      rcases cons_lt_cons_iff.1 h with hlt | ⟨rfl, hlt⟩
      · -- the first bytes differ, and one byte is enough
        exact cons_lt_cons_iff.2 (.inl hlt)
      · rw [if_pos rfl]
        exact cons_lt_cons_iff.2 (.inr ⟨rfl, ih hlt⟩)

/-- A shorter part of `right` is a part of `left`, and not above it. -/
theorem length_separator_le {p : List UInt8} (hp : p <+: right) (h : left < p) :
    (findShortestSeparator left right).length ≤ p.length := by
  induction left generalizing right p with
  | nil =>
    cases p with
    | nil => exact absurd h (List.lt_irrefl [])
    | cons c p =>
      rw [findShortestSeparator, length_take]
      exact Nat.le_trans (Nat.min_le_left ..) (Nat.le_add_left ..)
  | cons a left ih =>
    cases p with
    | nil => exact absurd h (not_lt_nil _)
    | cons c p =>
      obtain ⟨rest, rfl⟩ := hp
      rw [findShortestSeparator, cons_append, diffIdx]
      split
      · next heq =>
        rcases cons_lt_cons_iff.1 h with hlt | ⟨-, hlt⟩
        · exact absurd heq (ne_of_lt hlt)
        · have hle := ih (prefix_append p rest) hlt
          exact Nat.succ_le_succ hle
      · exact Nat.le_add_left ..

theorem le_of_isPrefix {p : List UInt8} (hp : p <+: right) : p ≤ right := by
  obtain ⟨rest, rfl⟩ := hp
  induction p with
  | nil => exact List.nil_le rest
  | cons c p ih => exact cons_le_cons_iff.2 (.inr ⟨rfl, ih⟩)

variable {ls rs : List (List UInt8)}

theorem le_last (h : (ls ++ [left]).Pairwise (· < ·)) {k : List UInt8} (hk : k ∈ ls ++ [left]) :
    k ≤ left := by
  rcases mem_append.1 hk with hk | hk
  · exact le_of_lt ((pairwise_append.1 h).2.2 k hk left mem_cons_self)
  · exact le_of_eq (mem_singleton.1 hk)

theorem first_le (h : (right :: rs).Pairwise (· < ·)) {k : List UInt8} (hk : k ∈ right :: rs) :
    right ≤ k := by
  rcases mem_cons.1 hk with rfl | hk
  · exact le_refl k
  · exact le_of_lt ((pairwise_cons.1 h).1 k hk)

/-- The key in the index is above what stays on the left, and not above what is on the right. -/
theorem finishDataPage_between {sep : List UInt8} (hl : (ls ++ [left]).Pairwise (· < ·))
    (hr : (right :: rs).Pairwise (· < ·)) (hlt : left < sep) (hle : sep ≤ right)
    (preserved : Option ℕ) :
    let r := finishDataPage (ls ++ [left]) (right :: rs) sep preserved
    (∀ k ∈ r.1, k < r.2.2) ∧ ∀ k ∈ r.2.1, r.2.2 ≤ k := by
  cases preserved with
  | none =>
    exact ⟨fun k hk ↦ lt_of_le_of_lt (le_last hl hk) hlt,
      fun k hk ↦ le_trans hle (first_le hr hk)⟩
  | some n =>
    -- all keys are in order, and the new page begins somewhere among them
    have hall : (ls ++ [left] ++ right :: rs).Pairwise (· < ·) :=
      pairwise_append.2 ⟨hl, hr, fun k hk k' hk' ↦ lt_of_lt_of_le
        (lt_of_le_of_lt (le_last hl hk) hlt) (le_trans hle (first_le hr hk'))⟩
    rw [← take_append_drop n (ls ++ [left]), append_assoc] at hall
    obtain ⟨-, hnew, hacross⟩ := pairwise_append.1 hall
    simp only [finishDataPage]
    generalize hn : drop n (ls ++ [left]) ++ right :: rs = new at hnew hacross
    cases new with
    | nil => exact absurd hn (append_ne_nil_of_right_ne_nil _ (cons_ne_nil _ _))
    | cons x xs => exact ⟨fun k hk ↦ hacross k hk x mem_cons_self, fun k ↦ first_le hnew⟩

/-- **The separator of two keys** is the shortest part of the greater one that is above the smaller
one. For pages that end and begin with the two keys, whether or not they are redistributed, the key
in the index is above every key on the left and not above any on the right. -/
theorem separator_spec (h : left < right) :
    findShortestSeparator left right <+: right ∧ left < findShortestSeparator left right ∧
      findShortestSeparator left right ≤ right ∧
      (∀ p, p <+: right → left < p → (findShortestSeparator left right).length ≤ p.length) ∧
      ∀ ls rs, (ls ++ [left]).Pairwise (· < ·) → (right :: rs).Pairwise (· < ·) → ∀ preserved,
        let r := finishDataPage (ls ++ [left]) (right :: rs) (findShortestSeparator left right)
          preserved
        (∀ k ∈ r.1, k < r.2.2) ∧ ∀ k ∈ r.2.1, r.2.2 ≤ k := by
  have hpre : findShortestSeparator left right <+: right := take_prefix ..
  have hlt := lt_separator h
  have hle := le_of_isPrefix hpre
  exact ⟨hpre, hlt, hle, fun p ↦ length_separator_le,
    fun ls rs hl hr ↦ finishDataPage_between hl hr hlt hle⟩

/-- The bytes are compared as unsigned numbers: `128` is above `127`. -/
theorem separator_spec_unsigned :
    findShortestSeparator [1, 127, 9] [1, 128, 0] = [1, 128] ∧
      [1, 127, 9] < findShortestSeparator [1, 127, 9] [1, 128, 0] :=
  ⟨by decide, (separator_spec (by decide)).2.1⟩

end Separator

end EloqStore
