import EloqStore.Partition.WriteTask
import Mathlib.Algebra.Order.BigOperators.Group.Finset
import Mathlib.Order.Interval.Finset.Nat

/-!
# The scan over the files of a compaction

A compaction sorts the mapped pages by their file page and goes through the files in order, from the
file of the first page up to the file that is being written, which is left alone. A file whose pages
are enough for the amplification limit is kept; all pages of any other file are moved to the end. On
its way the scan counts what the allocator is to record: the first file that is kept, and the files
after it that are empty, or are so once their pages have been moved.

Data files and segment files are scanned in the same way, so the scan is stated once, over the
options it reads. The quotient that is compared with the limit is computed in floating point; the
numbers are below 2^32 and the limit is an 8-bit number, so the comparison is that of the numbers.
-/

namespace EloqStore

/-- What a scan reads of the options. -/
structure ScanOptions where
  /-- Base-two logarithm of the pages of a file. -/
  shift : ℕ
  limit : ℕ
deriving DecidableEq, Repr

/-- The options for a class of files. -/
def KvOptions.scan (opts : KvOptions) : FileClass → ScanOptions
  | .data => ⟨opts.pagesPerFileShift, opts.fileAmplifyFactor⟩
  | .segment => ⟨opts.segmentsPerFileShift, opts.segmentFileAmplifyFactor⟩

/-- The order of `FilePageLess`, on file pages with their logical ids. -/
def filePageLe (x y : ℕ × ℕ) : Prop := x.1 < y.1 ∨ x.1 = y.1 ∧ x.2 ≤ y.2

instance : DecidableRel filePageLe := fun _ _ ↦ inferInstanceAs (Decidable (_ ∨ _))

/-- `HeapSortFpIdsWithYield`. -/
def sortFpIds (fpIds : List (ℕ × ℕ)) : List (ℕ × ℕ) := fpIds.insertionSort filePageLe

/-- The pages that are moved together: `max_read_pages_batch`. -/
def maxMoveBatch : ℕ := 128

/-- What is to be done with a file. -/
inductive FileVerdict
  | empty
  | keep
  | compact
deriving DecidableEq, Repr

variable (o : ScanOptions)

/-- The verdict on a file with `count` mapped pages. -/
def ScanOptions.verdict (count : ℕ) : FileVerdict :=
  if count = 0 then .empty
  else if 1 <<< o.shift ≤ o.limit * count then .keep
  else .compact

/-- **The scan**, at the head of its loop. -/
structure FileScan where
  fileId : ℕ
  /-- The pages from `it_low` on. -/
  rest : List (ℕ × ℕ)
  /-- The first file that is kept; the end of the scan if there is none so far. -/
  minFileId : ℕ
  /-- The files after it that are not kept, in 32 bits. -/
  emptyFileCnt : ℕ
deriving DecidableEq, Repr

namespace FileScan

variable (endFileId : ℕ) (s : FileScan)

/-- The scan starts at the file of the first page. -/
def start (fpIds : List (ℕ × ℕ)) : FileScan :=
  ⟨fileOf o.shift (fpIds.headD (0, 0)).1, fpIds, endFileId, 0⟩

/-- A page is in the next file, or before it. -/
def isBefore (x : ℕ × ℕ) : Bool := decide (x.1 < (s.fileId + 1) <<< o.shift)

/-- The pages of the next file, from `it_low` to `it_high`. -/
def pages : List (ℕ × ℕ) := s.rest.takeWhile (s.isBefore o)

/-- The pages from `it_high` on. -/
def beyond : List (ℕ × ℕ) := s.rest.dropWhile (s.isBefore o)

def verdict : FileVerdict := o.verdict (s.pages o).length

/-- The scan leaves the file behind. -/
def leave : FileScan :=
  match s.verdict o with
  | .keep => ⟨s.fileId + 1, s.beyond o,
      if s.minFileId = endFileId then s.fileId else s.minFileId, s.emptyFileCnt⟩
  | .empty | .compact => ⟨s.fileId + 1, s.beyond o, s.minFileId,
      if s.minFileId = endFileId then s.emptyFileCnt else (s.emptyFileCnt + 1) % 2 ^ 32⟩

theorem pages_append_beyond : s.pages o ++ s.beyond o = s.rest := List.takeWhile_append_dropWhile

@[simp] theorem leave_rest : (s.leave o endFileId).rest = s.beyond o := by
  rw [leave]
  split <;> rfl

end FileScan

/-! ### The whole scan -/

/-- What a compaction has decided so far. -/
structure CompactPlan where
  /-- The pages of the files that are to be compacted, file by file. -/
  moves : List (List (ℕ × ℕ)) := []
  scan : FileScan
deriving DecidableEq, Repr

/-- The scan passes a file. -/
def CompactPlan.pass (endFileId : ℕ) (p : CompactPlan) : CompactPlan where
  moves := if p.scan.verdict o = .compact then p.moves ++ [p.scan.pages o] else p.moves
  scan := p.scan.leave o endFileId

/-- The scan passes all files before the one that is being written. -/
def CompactPlan.ofPages (endFileId : ℕ) (fpIds : List (ℕ × ℕ)) : CompactPlan :=
  let start := FileScan.start o endFileId fpIds
  (CompactPlan.pass o endFileId)^[endFileId - start.fileId] { scan := start }

namespace PageMapper

variable (m : PageMapper)

/-- What a compaction of the mapped pages decides. -/
def compactPlan : CompactPlan :=
  .ofPages o m.allocator.currentFileId (sortFpIds m.tbl.mapped)

/-- The file after the last page. -/
def nextFileId : ℕ :=
  (m.allocator.maxFpId + (1 <<< m.allocator.shift - 1)) >>> m.allocator.shift

/-- What the allocator records of an empty mapping: the file that is being written is given up too,
unless there is nothing to give up. -/
def giveUpTail : PageMapper :=
  if 0 < m.allocator.spaceSize then
    { m with allocator := m.allocator.updateStat m.nextFileId 0 }
  else m

/-- What the allocator records when the scan has ended. -/
def record (s : FileScan) : PageMapper :=
  { m with allocator := m.allocator.updateStat s.minFileId s.emptyFileCnt }

/-- There is nothing in the files and nothing in the mapping. -/
def isClean : Bool := decide (m.mappingCount = 0 ∧ m.allocator.spaceSize = 0)

end PageMapper

/-! ### What a scan decides -/

/-- The verdict on a file, by the pages mapped to it. -/
def ScanOptions.verdictOn (fpIds : List (ℕ × ℕ)) (file : ℕ) : FileVerdict :=
  o.verdict (fpIds.filter fun x ↦ fileOf o.shift x.1 = file).length

/-- The plan after the files before `e`. It has moved the pages of the files that are to be
compacted, and no others; it has the first file that is kept, and has counted the files after it
that are not. -/
structure CompactPlan.Decided (o : ScanOptions) (endFileId : ℕ) (fpIds : List (ℕ × ℕ)) (e : ℕ)
    (p : CompactPlan) : Prop where
  moves : ∀ x, x ∈ p.moves.flatten ↔
    x ∈ fpIds ∧ fileOf o.shift x.1 < e ∧ o.verdictOn fpIds (fileOf o.shift x.1) = .compact
  first : p.scan.minFileId = endFileId ∨
    p.scan.minFileId < e ∧ o.verdictOn fpIds p.scan.minFileId = .keep
  kept : ∀ file < e, o.verdictOn fpIds file = .keep → p.scan.minFileId ≤ file
  empty : p.scan.emptyFileCnt = ((List.range' p.scan.minFileId (e - p.scan.minFileId)).countP
    fun file ↦ o.verdictOn fpIds file ≠ .keep) % 2 ^ 32

/-- The scan is at file `e`, with the pages of the files before it behind. -/
structure CompactPlan.Scanned (o : ScanOptions) (endFileId : ℕ) (fpIds : List (ℕ × ℕ)) (e : ℕ)
    (p : CompactPlan) : Prop extends p.Decided o endFileId fpIds e where
  fileId : p.scan.fileId = e
  rest : p.scan.rest = fpIds.filter fun x ↦ e ≤ fileOf o.shift x.1

section

open List

/-- In a sorted list the elements up to a bound are those in front. -/
theorem takeWhile_dropWhile_eq_filter {α : Type*} {q : α → Bool} {l : List α}
    (h : l.Pairwise fun x y ↦ q y → q x) :
    l.takeWhile q = l.filter q ∧ l.dropWhile q = l.filter (!q ·) := by
  induction l with
  | nil => simp
  | cons x l ih =>
    obtain ⟨hx, hl⟩ := pairwise_cons.1 h
    cases hq : q x with
    | true => simp [hq, ih hl]
    | false =>
      have hnone : ∀ y ∈ l, q y = false := fun y hy ↦
        eq_false_of_ne_true fun hy' ↦ by simp [hx y hy hy'] at hq
      simpa [hq, eq_comm (a := l), filter_eq_self] using hnone

variable {o} {endFileId e : ℕ} {fpIds : List (ℕ × ℕ)} {p : CompactPlan}

theorem FileScan.isBefore_iff (o : ScanOptions) (s : FileScan) (x : ℕ × ℕ) :
    s.isBefore o x = decide (fileOf o.shift x.1 < s.fileId + 1) := by
  rw [isBefore, fileOf, Nat.shiftRight_eq_div_pow, Nat.shiftLeft_eq]
  exact decide_eq_decide.2 (Nat.div_lt_iff_lt_mul (Nat.two_pow_pos _)).symm

namespace CompactPlan.Scanned

/-- The pages of the next file are those in front. -/
theorem pages_beyond (h : p.Scanned o endFileId fpIds e)
    (hsorted : fpIds.Pairwise fun x y ↦ x.1 ≤ y.1) :
    p.scan.pages o = (fpIds.filter fun x ↦ fileOf o.shift x.1 = e) ∧
      p.scan.beyond o = fpIds.filter fun x ↦ e + 1 ≤ fileOf o.shift x.1 := by
  have hbefore : p.scan.isBefore o = fun x ↦ decide (fileOf o.shift x.1 < e + 1) :=
    funext fun x ↦ by rw [FileScan.isBefore_iff, h.fileId]
  have hpair : p.scan.rest.Pairwise fun x y ↦ p.scan.isBefore o y → p.scan.isBefore o x := by
    rw [h.rest]
    refine (hsorted.filter _).imp fun {x y} hxy hy ↦ ?_
    rw [hbefore, decide_eq_true_iff] at hy ⊢
    exact (FilePageAllocator.fileOf_mono _ hxy).trans_lt hy
  obtain ⟨htake, hdrop⟩ := takeWhile_dropWhile_eq_filter hpair
  rw [FileScan.pages, FileScan.beyond, htake, hdrop, h.rest, filter_filter, filter_filter, hbefore]
  exact ⟨filter_congr fun x _ ↦ by grind, filter_congr fun x _ ↦ by grind⟩

/-- **The scan passes a file** and decides about it. -/
theorem pass (h : p.Scanned o endFileId fpIds e) (hsorted : fpIds.Pairwise fun x y ↦ x.1 ≤ y.1)
    (he : e < endFileId) : (p.pass o endFileId).Scanned o endFileId fpIds (e + 1) := by
  obtain ⟨hpages, hbeyond⟩ := h.pages_beyond hsorted
  have hverdict : p.scan.verdict o = o.verdictOn fpIds e := by
    rw [FileScan.verdict, hpages, ScanOptions.verdictOn]
  obtain ⟨⟨hmoves, hfirst, hkept, hempty⟩, hfile, -⟩ := h
  have hrange : p.scan.minFileId ≤ e →
      range' p.scan.minFileId (e + 1 - p.scan.minFileId) =
        range' p.scan.minFileId (e - p.scan.minFileId) ++ [e] := by
    intro hle
    rw [Nat.succ_sub hle, range'_1_concat, Nat.add_sub_cancel' hle]
  unfold CompactPlan.pass
  rw [FileScan.leave, hverdict, hpages, hbeyond, hfile]
  cases hv : o.verdictOn fpIds e with
  | keep =>
    refine ⟨⟨?_, ?_, ?_, ?_⟩, rfl, rfl⟩
    · grind
    · grind
    · grind
    · dsimp only
      split
      · next hnone =>
        simp [hempty, hnone, hv, show e - endFileId = 0 by omega]
      · next hsome =>
        rw [hrange (by omega), countP_append, hempty]
        simp [hv]
  | empty | compact =>
    refine ⟨⟨?_, ?_, ?_, ?_⟩, rfl, rfl⟩
    · grind [ScanOptions.verdictOn, ScanOptions.verdict]
    · grind
    · grind
    · dsimp only
      split
      · next hnone =>
        simp [hempty, hnone, show e - endFileId = 0 by omega, show e + 1 - endFileId = 0 by omega]
      · next hsome =>
        rw [hrange (by omega), countP_append, hempty]
        simp [hv]

end CompactPlan.Scanned

theorem sortFpIds_pairwise (fpIds : List (ℕ × ℕ)) :
    (sortFpIds fpIds).Pairwise fun x y ↦ x.1 ≤ y.1 := by
  have htotal : Std.Total filePageLe := ⟨fun x y ↦ by unfold filePageLe; omega⟩
  have htrans : IsTrans (ℕ × ℕ) filePageLe := ⟨fun x y z ↦ by unfold filePageLe; omega⟩
  exact (pairwise_insertionSort _ fpIds).imp fun h ↦ by unfold filePageLe at h; omega

theorem FileScan.start_le (hsorted : fpIds.Pairwise fun x y ↦ x.1 ≤ y.1) {x : ℕ × ℕ}
    (hx : x ∈ fpIds) : (start o endFileId fpIds).fileId ≤ fileOf o.shift x.1 := by
  obtain ⟨y, fpIds, rfl⟩ := exists_cons_of_ne_nil (ne_nil_of_mem hx)
  refine FilePageAllocator.fileOf_mono _ ?_
  rcases mem_cons.1 hx with rfl | hx
  · exact le_rfl
  · exact rel_of_pairwise_cons hsorted hx

/-- Before the file of the first page there is nothing to decide. -/
theorem CompactPlan.decided_start (hsorted : fpIds.Pairwise fun x y ↦ x.1 ≤ y.1)
    (he : e ≤ endFileId) (hstart : e ≤ (FileScan.start o endFileId fpIds).fileId) :
    Decided o endFileId fpIds e { scan := .start o endFileId fpIds } := by
  have hbefore : ∀ x ∈ fpIds, ¬fileOf o.shift x.1 < e := fun x hx ↦
    Nat.not_lt_of_le (hstart.trans (FileScan.start_le hsorted hx))
  refine ⟨fun x ↦ ?_, .inl rfl, fun file hlt hkeep ↦ ?_, ?_⟩
  · simpa using fun hx hlt ↦ absurd hlt (hbefore x hx)
  · have hnil : (fpIds.filter fun x ↦ fileOf o.shift x.1 = file) = [] :=
      filter_eq_nil_iff.2 fun x hx ↦ by
        rw [decide_eq_true_iff]
        exact fun heq ↦ hbefore x hx (heq ▸ hlt)
    rw [ScanOptions.verdictOn, hnil] at hkeep
    cases hkeep
  · simp [FileScan.start, Nat.sub_eq_zero_of_le he]

/-- A file that is compacted has pages. -/
theorem PageMapper.compactPlan_moves_ne_nil (m : PageMapper) (o : ScanOptions) :
    ∀ here ∈ (m.compactPlan o).moves, here ≠ [] := by
  refine Function.Iterate.rec (fun p : CompactPlan ↦ ∀ here ∈ p.moves, here ≠ [])
    (fun _ hmem ↦ absurd hmem not_mem_nil) (fun p hp here hmem ↦ ?_) _
  unfold CompactPlan.pass at hmem
  split at hmem
  · next hv =>
    rcases mem_append.1 hmem with hmem | hmem
    · exact hp here hmem
    · rintro rfl
      simp [FileScan.verdict, ← mem_singleton.1 hmem, ScanOptions.verdict] at hv
  · exact hp here hmem

/-- **A scan of sorted pages** decides about every file before the end. -/
theorem CompactPlan.decided_ofPages (hsorted : fpIds.Pairwise fun x y ↦ x.1 ≤ y.1) :
    (ofPages o endFileId fpIds).Decided o endFileId fpIds endFileId := by
  unfold ofPages
  by_cases hle : (FileScan.start o endFileId fpIds).fileId ≤ endFileId
  · -- the scan has passed `n` files, from that of the first page on
    have hrun : ∀ n, (FileScan.start o endFileId fpIds).fileId + n ≤ endFileId →
        ((CompactPlan.pass o endFileId)^[n] { scan := .start o endFileId fpIds }).Scanned o
          endFileId fpIds ((FileScan.start o endFileId fpIds).fileId + n) := by
      intro n hn
      induction n with
      | zero =>
        refine ⟨CompactPlan.decided_start hsorted hle le_rfl, rfl, ?_⟩
        exact (filter_eq_self.2 fun x hx ↦
          decide_eq_true (@FileScan.start_le o endFileId fpIds hsorted x hx)).symm
      | succ n ih =>
        rw [Function.iterate_succ_apply']
        exact (ih (by omega)).pass hsorted (by omega)
    have hend := (hrun (endFileId - (FileScan.start o endFileId fpIds).fileId) (by omega)).toDecided
    rwa [Nat.add_sub_cancel' hle] at hend
  · dsimp only
    rw [Nat.sub_eq_zero_of_le (by omega)]
    exact CompactPlan.decided_start hsorted le_rfl (by omega)

/-- Without mapped pages there is nothing to move. -/
theorem PageMapper.compactPlan_moves_nil {m : PageMapper} (h : m.tbl.mapped = [])
    (o : ScanOptions) : (m.compactPlan o).moves = [] := by
  refine eq_nil_iff_forall_not_mem.2 fun here hmem ↦ ?_
  obtain ⟨x, rest, rfl⟩ := exists_cons_of_ne_nil (compactPlan_moves_ne_nil m o here hmem)
  have hpage := ((CompactPlan.decided_ofPages (sortFpIds_pairwise m.tbl.mapped)).moves x).1
    (mem_flatten.2 ⟨_, hmem, mem_cons_self⟩)
  rw [h] at hpage
  exact not_mem_nil hpage.1

/-- **A compaction decides about every file** before the one that is being written, for every
mapping and every limit. -/
theorem PageMapper.compactPlan_decided (m : PageMapper) (o : ScanOptions) :
    (m.compactPlan o).Decided o m.allocator.currentFileId (sortFpIds m.tbl.mapped)
      m.allocator.currentFileId :=
  CompactPlan.decided_ofPages (sortFpIds_pairwise m.tbl.mapped)

end

end EloqStore
