import EloqStore.Types
import Mathlib.Data.List.TakeWhile

/-!
# Reading pages and segments in batches

`ReadPages` and `ReadSegments` send a read for every page, and send it again as long as it ends with
fewer bytes than the page has. At the end of a file a read returns what there is, so a page that is
not wholly in its file is read again and again, and the call does not return. Nor does it if the
system says to try again each time.

If every page is in its file and each read is tried again at most `t` times, at most `t + 1` reads
are sent for each page, and the call returns all pages or an error (`ReadDisk.returns_iff`).
-/

namespace EloqStore

open List Option

/-! ### The loop -/

/-- A page or segment to read. -/
structure ReadReq where
  file : List UInt8
  offset : ℕ
  size : ℕ
  /-- The error that the next reads of it end with, if they do. -/
  errors : ℕ → Option KvError

namespace ReadReq

/-- What a read without an error returns: no more than there is. -/
def bytes (r : ReadReq) : List UInt8 := (r.file.drop r.offset).take r.size

/-- `res_` after some reads; it is zero before the first. -/
def res (r : ReadReq) : ℕ → Except KvError (List UInt8)
  | 0 => .ok []
  | k + 1 => match r.errors k with
    | some e => .error e
    | none => .ok r.bytes

def again (r : ReadReq) (k : ℕ) : Bool :=
  match r.res k with
  | .ok bytes => decide (bytes.length < r.size)
  | .error e => decide (e = .tryAgain)

def failure (r : ReadReq) (k : ℕ) : Option KvError :=
  match r.res k with
  | .ok _ => none
  | .error e => if e = .tryAgain then none else some e

end ReadReq

/-- The requests that a round sends. An error ends the round. -/
def sentIn (k : ℕ) (reqs : List ReadReq) : List ReadReq :=
  (reqs.takeWhile fun r ↦ (r.failure k).isNone).filter (·.again k)

/-- The loop, with the requests that are not done and have been sent `k` times: an error if there is
one, and the number of reads that are sent. -/
def readLoop : ℕ → ℕ → List ReadReq → Option (Option KvError × ℕ)
  | 0, _, _ => none
  | fuel + 1, k, reqs =>
    let sent := sentIn k reqs
    match reqs.findSome? (·.failure k) with
    | some e => some (some e, sent.length)
    | none =>
      if sent.isEmpty then some (none, 0)
      else (readLoop fuel (k + 1) sent).map fun (e, n) ↦ (e, sent.length + n)

/-! ### The functions -/

abbrev Place := List UInt8 × ℕ

/-- What the functions read from. -/
structure ReadDisk where
  dataPageSize : ℕ
  segmentSize : ℕ
  openPage : ℕ → Except KvError Place
  openSegment : ℕ → Except KvError Place
  /-- `ValidateChecksum`, if it is not skipped. -/
  validateChecksum : List UInt8 → Bool

def requests (sizes : ℕ → ℕ) (errors : ℕ → ℕ → Option KvError) (places : List Place) :
    List ReadReq :=
  places.mapIdx fun i p ↦ ⟨p.1, p.2, sizes i, errors i⟩

def pagesAt (sizes : ℕ → ℕ) (places : List Place) : List (List UInt8) :=
  places.mapIdx fun i p ↦ (p.1.drop p.2).take (sizes i)

/-- What both functions do: open the files, read, and check what was read. -/
def readBatch (locate : ℕ → Except KvError Place) (sizes : ℕ → ℕ) (valid : List UInt8 → Bool)
    (ids : List ℕ) (errors : ℕ → ℕ → Option KvError) (fuel : ℕ) :
    Option (Except KvError (List (List UInt8)) × ℕ) :=
  match ids.mapM locate with
  | .error e => some (.error e, 0)
  | .ok places =>
    (readLoop fuel 0 (requests sizes errors places)).map fun (e, n) ↦
      (match e with
        | some e => .error e
        | none => if (pagesAt sizes places).all valid then .ok (pagesAt sizes places)
          else .error .corrupted, n)

/-- The size of each read of `ReadSegments`: the tail is the last one. -/
def tailSizes (segmentSize tailSize count : ℕ) (i : ℕ) : ℕ :=
  if tailSize ≠ 0 ∧ i = count - 1 then tailSize else segmentSize

namespace ReadDisk

variable (d : ReadDisk)

def readPages : List ℕ → (ℕ → ℕ → Option KvError) → ℕ →
    Option (Except KvError (List (List UInt8)) × ℕ) :=
  readBatch d.openPage (fun _ ↦ d.dataPageSize) d.validateChecksum

/-- A tail that `ReadSegments` refuses. -/
def BadTail (tailSize : ℕ) : Prop :=
  tailSize ≠ 0 ∧ (tailSize > d.segmentSize ∨ tailSize % 4096 ≠ 0)

instance (tailSize : ℕ) : Decidable (d.BadTail tailSize) :=
  inferInstanceAs (Decidable (_ ∧ (_ ∨ _)))

def readSegments (tailSize : ℕ) (ids : List ℕ) (errors : ℕ → ℕ → Option KvError) (fuel : ℕ) :
    Option (Except KvError (List (List UInt8)) × ℕ) :=
  if d.BadTail tailSize then some (.error .invalidArgs, 0)
  else readBatch d.openSegment (tailSizes d.segmentSize tailSize ids.length) (fun _ ↦ true) ids
    errors fuel

end ReadDisk

/-! ### The loop returns -/

variable {r : ReadReq} {reqs : List ReadReq} {k t fuel n : ℕ}

def ReadReq.InFile (r : ReadReq) : Prop := r.size ≤ r.file.length - r.offset

theorem ReadReq.InFile.length_bytes (h : r.InFile) : r.bytes.length = r.size := by
  rw [bytes, length_take, length_drop]
  exact Nat.min_eq_left h

/-- A page in its file is sent again only if the system says so. -/
theorem ReadReq.lt_of_again (h : r.InFile) {j : ℕ} (hj : r.errors j ≠ some .tryAgain)
    (hle : k ≤ j + 1) (hagain : r.again k = true) : k ≤ j := by
  cases k with
  | zero => exact Nat.zero_le j
  | succ k =>
    refine Nat.lt_of_le_of_ne (Nat.succ_le_succ_iff.1 hle) ?_
    rintro rfl
    rw [again, res] at hagain
    cases herr : r.errors k with
    | none => simp [herr, h.length_bytes] at hagain
    | some e =>
      rw [herr] at hagain hj
      exact hj (congrArg some (of_decide_eq_true hagain))

/-- A request that is done has read as many bytes as its page has. -/
theorem ReadReq.inFile_of_done (hagain : ¬ r.again k = true) (hfail : r.failure k = none) :
    r.InFile := by
  rw [again] at hagain
  rw [failure] at hfail
  cases hres : r.res k with
  | error e => simp_all
  | ok bytes =>
    rw [hres] at hagain
    have hsize : r.size ≤ bytes.length := not_lt.1 fun hlt ↦ hagain (decide_eq_true hlt)
    cases k with
    | zero =>
      cases hres
      exact hsize.trans (Nat.zero_le _)
    | succ k =>
      rw [res] at hres
      cases herr : r.errors k with
      | some e => simp [herr] at hres
      | none =>
        rw [herr] at hres
        cases hres
        rw [ReadReq.bytes, length_take, length_drop] at hsize
        exact hsize.trans (Nat.min_le_right _ _)

theorem mem_of_mem_sentIn (h : r ∈ sentIn k reqs) : r ∈ reqs ∧ r.again k = true := by
  obtain ⟨hmem, hagain⟩ := mem_filter.1 h
  exact ⟨takeWhile_sublist _ |>.subset hmem, hagain⟩

theorem length_sentIn_le (k : ℕ) (reqs : List ReadReq) : (sentIn k reqs).length ≤ reqs.length :=
  (length_filter_le _ _).trans (takeWhile_sublist _).length_le

/-- Without an error, all requests that are not done are sent. -/
theorem mem_sentIn (hnone : reqs.findSome? (·.failure k) = none) (hr : r ∈ reqs)
    (hagain : r.again k = true) : r ∈ sentIn k reqs := by
  have hall : reqs.takeWhile (fun r ↦ (r.failure k).isNone) = reqs := by
    rw [takeWhile_eq_self_iff]
    intro r hr
    rw [findSome?_eq_none_iff.1 hnone r hr]
    rfl
  rw [sentIn, hall]
  exact mem_filter.2 ⟨hr, hagain⟩

/-- **The loop returns, and sends no more reads than it may try.** -/
theorem readLoop_returns (hk : k ≤ t + 1) (hfuel : t + 2 ≤ k + fuel)
    (h : ∀ r ∈ reqs, r.InFile ∧ ∃ j ≤ t, k ≤ j + 1 ∧ r.errors j ≠ some .tryAgain) :
    ∃ e n, readLoop fuel k reqs = some (e, n) ∧ n ≤ (t + 1 - k) * reqs.length := by
  induction fuel generalizing k reqs with
  | zero => omega
  | succ fuel ih =>
    have hlen := length_sentIn_le k reqs
    have hstill : ∀ r ∈ sentIn k reqs,
        r.InFile ∧ ∃ j ≤ t, k + 1 ≤ j + 1 ∧ r.errors j ≠ some .tryAgain := by
      intro r hr
      obtain ⟨hmem, hagain⟩ := mem_of_mem_sentIn hr
      obtain ⟨hin, j, hj, hle, herr⟩ := h r hmem
      exact ⟨hin, j, hj, Nat.succ_le_succ (ReadReq.lt_of_again hin herr hle hagain), herr⟩
    have hbound : (sentIn k reqs).length ≤ (t + 1 - k) * reqs.length := by
      cases hsent : sentIn k reqs with
      | nil => exact Nat.zero_le _
      | cons r rest =>
        obtain ⟨-, j, hj, hle, -⟩ := hstill r (hsent ▸ mem_cons_self)
        rw [← hsent]
        exact hlen.trans (Nat.le_mul_of_pos_left _ (by omega))
    rw [readLoop]
    cases herr : reqs.findSome? (·.failure k) with
    | some e => exact ⟨_, _, rfl, hbound⟩
    | none =>
      cases hsent : sentIn k reqs with
      | nil => exact ⟨_, _, rfl, Nat.zero_le _⟩
      | cons r rest =>
        rw [hsent] at hstill hlen
        obtain ⟨-, j, hj, hle, -⟩ := hstill r mem_cons_self
        obtain ⟨e, n, hrun, hn⟩ := ih (by omega) (by omega) hstill
        rw [hrun]
        refine ⟨_, _, rfl, ?_⟩
        calc (r :: rest).length + n
            ≤ (r :: rest).length + (t + 1 - (k + 1)) * (r :: rest).length := by omega
          _ = (t + 1 - k) * (r :: rest).length := by
            rw [Nat.add_comm, ← Nat.succ_mul]
            congr 1
            omega
          _ ≤ _ := Nat.mul_le_mul_left _ hlen

theorem findSome?_failure (hnone : ∀ r ∈ reqs, ∀ j, r.errors j = none) (k : ℕ) :
    reqs.findSome? (·.failure k) = none := by
  refine findSome?_eq_none_iff.2 fun r hr ↦ ?_
  cases k with
  | zero => rfl
  | succ k => rw [ReadReq.failure, ReadReq.res, hnone r hr k]

/-- **A page that is not in its file keeps the loop going.** -/
theorem readLoop_eq_none (hnone : ∀ r ∈ reqs, ∀ j, r.errors j = none) (hr : r ∈ reqs)
    (hout : ¬ r.InFile) (fuel k : ℕ) : readLoop fuel k reqs = none := by
  induction fuel generalizing k reqs with
  | zero => rfl
  | succ fuel ih =>
    have hfail := findSome?_failure hnone k
    have hagain : r.again k = true := by
      by_contra hdone
      exact hout (ReadReq.inFile_of_done hdone (findSome?_eq_none_iff.1 hfail r hr))
    have hmem := mem_sentIn hfail hr hagain
    rw [readLoop, hfail]
    rw [if_neg (by simpa using ne_nil_of_mem hmem),
      ih (fun r hr ↦ hnone r (mem_of_mem_sentIn hr).1) hmem (k + 1)]
    rfl

/-! ### The functions return -/

variable {locate : ℕ → Except KvError Place} {sizes : ℕ → ℕ} {ids : List ℕ} {places : List Place}
  {errors : ℕ → ℕ → Option KvError}

def Complete (sizes : ℕ → ℕ) (places : List Place) : Prop :=
  ∀ i p, places[i]? = some p → sizes i ≤ p.1.length - p.2

/-- **A call returns, with a bounded number of reads, all pages or an error**, if no read is tried
again more than `t` times. -/
def Returns (t : ℕ) (locate : ℕ → Except KvError Place) (sizes : ℕ → ℕ) (ids : List ℕ)
    (call : (ℕ → ℕ → Option KvError) → ℕ → Option (Except KvError (List (List UInt8)) × ℕ)) :
    Prop :=
  ∀ errors, (∀ i < ids.length, ∃ j ≤ t, errors i j ≠ some .tryAgain) →
    ∃ fuel res n, call errors fuel = some (res, n) ∧ n ≤ (t + 1) * ids.length ∧
      ∀ pages, res = .ok pages → ∃ places, ids.mapM locate = .ok places ∧
        Complete sizes places ∧ pages = pagesAt sizes places

theorem length_of_mapM (h : ids.mapM locate = .ok places) : places.length = ids.length := by
  induction ids generalizing places with
  | nil =>
    cases h
    rfl
  | cons id ids ih =>
    rw [mapM_cons] at h
    cases hid : locate id with
    | error e =>
      rw [hid] at h
      cases h
    | ok p =>
      cases hids : ids.mapM locate with
      | error e =>
        rw [hid, hids] at h
        cases h
      | ok ps =>
        rw [hid, hids] at h
        cases h
        exact congrArg (· + 1) (ih hids)

theorem mem_requests {r : ReadReq} : r ∈ requests sizes errors places ↔
    ∃ i p, places[i]? = some p ∧ r = ⟨p.1, p.2, sizes i, errors i⟩ := by
  rw [requests, mem_iff_getElem?]
  simp only [getElem?_mapIdx, map_eq_some_iff]
  exact exists_congr fun i ↦ exists_congr fun p ↦ and_congr_right fun _ ↦ eq_comm

theorem requests_errors : ∀ r ∈ requests sizes (fun _ _ ↦ none) places, ∀ j, r.errors j = none := by
  intro r hr
  obtain ⟨i, p, -, rfl⟩ := mem_requests.1 hr
  exact fun _ ↦ rfl

theorem inFile_requests (errors : ℕ → ℕ → Option KvError) :
    (∀ r ∈ requests sizes errors places, r.InFile) ↔ Complete sizes places := by
  refine ⟨fun h i p hp ↦ h _ (mem_requests.2 ⟨i, p, hp, rfl⟩), fun h r hr ↦ ?_⟩
  obtain ⟨i, p, hp, rfl⟩ := mem_requests.1 hr
  exact h i p hp

/-- What both functions do returns exactly if all pages whose files are opened are in them. -/
theorem readBatch_returns_iff {valid : List UInt8 → Bool} :
    Returns t locate sizes ids (readBatch locate sizes valid ids) ↔
      ∀ places, ids.mapM locate = .ok places → Complete sizes places := by
  constructor
  · intro h places hplaces
    by_contra hout
    obtain ⟨fuel, res, n, hrun, -⟩ := h (fun _ _ ↦ none) fun _ _ ↦ ⟨0, Nat.zero_le t, nofun⟩
    rw [← inFile_requests fun _ _ ↦ none] at hout
    simp only [not_forall] at hout
    obtain ⟨r, hr, hr'⟩ := hout
    rw [readBatch, hplaces] at hrun
    dsimp only at hrun
    rw [readLoop_eq_none requests_errors hr hr'] at hrun
    cases hrun
  · intro h errors herrors
    cases hplaces : ids.mapM locate with
    | error e => exact ⟨0, .error e, 0, by rw [readBatch, hplaces], Nat.zero_le _, nofun⟩
    | ok places =>
      have hlen := length_of_mapM hplaces
      have hin := (inFile_requests errors).2 (h places hplaces)
      have hreqs : ∀ r ∈ requests sizes errors places,
          r.InFile ∧ ∃ j ≤ t, 0 ≤ j + 1 ∧ r.errors j ≠ some .tryAgain := by
        intro r hr
        refine ⟨hin r hr, ?_⟩
        obtain ⟨i, p, hp, rfl⟩ := mem_requests.1 hr
        obtain ⟨hi, -⟩ := List.getElem?_eq_some_iff.1 hp
        obtain ⟨j, hj, herr⟩ := herrors i (hlen ▸ hi)
        exact ⟨j, hj, Nat.zero_le _, herr⟩
      obtain ⟨e, n, hrun, hn⟩ := readLoop_returns (Nat.zero_le _)
        (Nat.le_of_eq (Nat.zero_add (t + 2)).symm) hreqs
      rw [Nat.sub_zero, requests, length_mapIdx, hlen] at hn
      refine ⟨t + 2, _, n, by rw [readBatch, hplaces]; dsimp only; rw [hrun]; rfl, hn, ?_⟩
      intro pages hpages
      refine ⟨places, rfl, h places hplaces, ?_⟩
      cases e with
      | some e => cases hpages
      | none =>
        by_cases hvalid : (pagesAt sizes places).all valid = true
        · exact (Except.ok.inj ((if_pos hvalid).symm.trans hpages)).symm
        · exact nomatch (if_neg hvalid).symm.trans hpages

namespace ReadDisk

/-- **Both functions return, with all pages or an error and a bounded number of reads, exactly if
every page whose file is opened is in that file.** -/
theorem returns_iff (d : ReadDisk) (t : ℕ) (ids : List ℕ) (tailSize : ℕ) :
    (Returns t d.openPage (fun _ ↦ d.dataPageSize) ids (d.readPages ids) ↔
      ∀ places, ids.mapM d.openPage = .ok places → Complete (fun _ ↦ d.dataPageSize) places) ∧
    (Returns t d.openSegment (tailSizes d.segmentSize tailSize ids.length) ids
        (d.readSegments tailSize ids) ↔
      d.BadTail tailSize ∨ ∀ places, ids.mapM d.openSegment = .ok places →
        Complete (tailSizes d.segmentSize tailSize ids.length) places) := by
  refine ⟨readBatch_returns_iff, ?_⟩
  by_cases hbad : d.BadTail tailSize
  · refine iff_of_true (fun errors _ ↦ ⟨0, _, 0, if_pos hbad, Nat.zero_le _, nofun⟩) (.inl hbad)
  · have hcall : d.readSegments tailSize ids = readBatch d.openSegment
        (tailSizes d.segmentSize tailSize ids.length) (fun _ ↦ true) ids :=
      funext₂ fun errors fuel ↦ if_neg hbad
    rw [hcall, readBatch_returns_iff, or_iff_right hbad]

/-- **A page of an empty file is read for ever.** -/
theorem read_for_ever : ∃ d : ReadDisk, d.dataPageSize = 4096 ∧ d.openPage 0 = .ok ([], 0) ∧
    ∀ fuel, d.readPages [0] (fun _ _ ↦ none) fuel = none := by
  refine ⟨⟨4096, 4096, fun _ ↦ .ok ([], 0), fun _ ↦ .ok ([], 0), fun _ ↦ true⟩, rfl, rfl, ?_⟩
  have hrun : ∀ fuel, readLoop fuel 0 [⟨[], 0, 4096, fun _ ↦ none⟩] = none := fun fuel ↦
    readLoop_eq_none (by simp) mem_cons_self (by simp [ReadReq.InFile]) fuel 0
  exact fun fuel ↦ map_eq_none_iff.2 (hrun fuel)

end ReadDisk

end EloqStore
