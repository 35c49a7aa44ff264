import EloqStore.Foundation.Tally
import EloqStore.Foundation.Transition
import EloqStore.Page.LargeValueContent
import EloqStore.Types

/-!
# Reads of large values and the registered memory

A large value is read into segments of the registered memory. `GetLargeValue` takes them one after
the other, with `GetSegment`, and keeps those it has while it waits for the next one. Nothing in it
compares the number of segments a value takes with the size of the pool, so a read of a value that
does not fit takes the whole pool and waits for ever.

The pool belongs to one shard, whose tasks take turns: a read that has found a segment goes on to
ask for the next one, and another read gets its turn when `TryGetSegment` has failed or the read has
all its segments. Buffers are recycled by their owners, from any thread and so at any moment.

While it waits a read holds at most one segment less than it needs. So reads are safe if together
they hold less than the pool that way (`SegmentReads.safe_of_demand_lt`). How a read that waits is
scheduled again does not matter: it may try again at any moment.
-/

namespace EloqStore

open List Option

/-- The registered memory of a shard, as far as it can be counted. -/
structure SegmentPool where
  segmentSize : ℕ
  totalSegments : ℕ
  totalSegments_pos : 0 < totalSegments

/-- The segments a read of a value takes; a value whose header does not decode takes none. -/
def SegmentPool.need (pool : SegmentPool) (encoded : List UInt8) : ℕ :=
  (decodeLargeValueHeader encoded pool.segmentSize).elim 0 (·.numSegments)

/-- How far a call of `GetLargeValue` has come. -/
inductive ReadPhase
  /-- It is collecting segments; `waiting` if `TryGetSegment` has failed since the last one. -/
  | allocating (waiting : Bool)
  | reading
  /-- It has returned; the caller has the segments. -/
  | finished
  | failed (err : KvError)
deriving DecidableEq, Repr

/-- A call of `GetLargeValue`. -/
structure LargeRead where
  numSegments : ℕ
  fragments : ℕ := 0
  phase : ReadPhase := .allocating false
deriving DecidableEq, Repr

namespace LargeRead

/-- A call for a value as the page has it, up to the first `GetSegment`. -/
def start (pool : SegmentPool) (encoded : List UInt8) : LargeRead :=
  { numSegments := pool.need encoded
    phase := if pool.need encoded = 0 then .failed .corrupted else .allocating false }

variable (r : LargeRead)

def append : LargeRead :=
  { r with
    fragments := r.fragments + 1
    phase := if r.fragments + 1 = r.numSegments then .reading else .allocating false }

/-- It waits in `GetSegment`. -/
def isWaiting : Bool := decide (r.phase = .allocating true)

end LargeRead

/-- The reads of large values from one pool. -/
structure SegmentReads where
  free : ℕ
  /-- The calls of `GetLargeValue`. -/
  reads : List LargeRead
  /-- The read that is between two calls of `GetSegment` and has not yielded. -/
  running : Option ℕ := none
deriving DecidableEq, Repr

/-- What a read or its caller does next. -/
inductive ReadEvent
  /-- The read with this number calls `TryGetSegment`. -/
  | tryGetSegment (i : ℕ)
  | readDone (i : ℕ)
  | readFails (i : ℕ) (err : KvError)
  /-- A segment of its buffer is recycled, by itself after an error or else by the caller. -/
  | recycle (i : ℕ)
deriving DecidableEq, Repr

namespace SegmentReads

/-- All reads are about to ask for their first segment. -/
def init (pool : SegmentPool) (contents : List (List UInt8)) : SegmentReads :=
  { free := pool.totalSegments, reads := contents.map (LargeRead.start pool) }

variable (s : SegmentReads)

def set (free i : ℕ) (r : LargeRead) (running : Option ℕ) : SegmentReads :=
  ⟨free, s.reads.set i r, running⟩

/-- The segments in the buffers of the reads that wait for one more. -/
def heldByWaiting : ℕ := ((s.reads.filter LargeRead.isWaiting).map (·.fragments)).sum

end SegmentReads

def ReadEvent.step (s : SegmentReads) : ReadEvent → Option SegmentReads
  | .tryGetSegment i =>
    -- another read runs only after this one has yielded
    if s.running.any (· ≠ i) then none
    else s.reads[i]?.bind fun r ↦
      match r.phase with
      | .allocating _ =>
        if s.free = 0 then some (s.set s.free i { r with phase := .allocating true } none)
        else some (s.set (s.free - 1) i r.append
          (if r.append.phase = .reading then none else some i))
      | _ => none
  | .readDone i =>
    s.reads[i]?.bind fun r ↦
      if r.phase = .reading then some (s.set s.free i { r with phase := .finished } s.running)
      else none
  | .readFails i err =>
    s.reads[i]?.bind fun r ↦
      if r.phase = .reading then some (s.set s.free i { r with phase := .failed err } s.running)
      else none
  | .recycle i =>
    s.reads[i]?.bind fun r ↦
      match r.phase with
      | .finished | .failed _ =>
        if r.fragments = 0 then none
        else some (s.set (s.free + 1) i { r with fragments := r.fragments - 1 } s.running)
      | _ => none

/-- The interleavings of the reads of the given values. -/
abbrev ReadRuns (pool : SegmentPool) (contents : List (List UInt8)) : SegmentReads → Prop :=
  Transition.Reach (fun s (e : ReadEvent) s' ↦ e.step s = some s') (fun _ _ ↦ True)
    (.init pool contents)

namespace LargeRead

/-! ### What an event does -/

/-- A read that is collecting segments does not have them all. -/
def Short (r : LargeRead) : Prop := ∀ b, r.phase = .allocating b → r.fragments < r.numSegments

/-- A read gets on: its value takes what it took, and segments only move between it and the free
list. -/
structure Moves (free : ℕ) (r : LargeRead) (free' : ℕ) (r' : LargeRead) : Prop where
  need : r'.numSegments = r.numSegments
  count : free' + r'.fragments = free + r.fragments
  /-- A read with all its segments stops collecting. -/
  short : r.Short → r'.Short

theorem moves_append {free : ℕ} {r : LargeRead} {b : Bool} (hfree : free ≠ 0)
    (hr : r.phase = .allocating b) : r.Moves free (free - 1) r.append where
  need := rfl
  count := by
    show free - 1 + (r.fragments + 1) = free + r.fragments
    omega
  short hshort b' hb' := by
    have hlt := hshort b hr
    have hne : r.fragments + 1 ≠ r.numSegments := fun heq ↦ by simp [append, heq] at hb'
    show r.fragments + 1 < r.numSegments
    omega

theorem moves_of_phase {free free' : ℕ} {r r' : LargeRead} (hneed : r'.numSegments = r.numSegments)
    (hcount : free' + r'.fragments = free + r.fragments)
    (hphase : ∀ b, r'.phase ≠ .allocating b) : r.Moves free free' r' :=
  ⟨hneed, hcount, fun _ b hb ↦ absurd hb (hphase b)⟩

end LargeRead

/-- **Inversion of an event**: one read gets on. -/
theorem ReadEvent.step_ok {s s' : SegmentReads} {e : ReadEvent} (h : e.step s = some s') :
    ∃ i r r' free' running', s.reads[i]? = some r ∧ s' = s.set free' i r' running' ∧
      r.Moves s.free free' r' := by
  cases e with
  | tryGetSegment i =>
    obtain ⟨-, h⟩ := ite_none_left_eq_some.1 h
    obtain ⟨r, hr, h⟩ := bind_eq_some_iff.1 h
    split at h
    · next b hb =>
      split at h
      · cases h
        exact ⟨i, r, _, _, _, hr, rfl, rfl, rfl, fun hshort _ _ ↦ hshort b hb⟩
      · next hfree =>
        cases h
        exact ⟨i, r, _, _, _, hr, rfl, LargeRead.moves_append hfree hb⟩
    · cases h
  | readDone i | readFails i err =>
    obtain ⟨r, hr, h⟩ := bind_eq_some_iff.1 h
    obtain ⟨-, rfl⟩ := ite_some_none_eq_some.1 h
    exact ⟨i, r, _, _, _, hr, rfl, LargeRead.moves_of_phase rfl rfl (by simp)⟩
  | recycle i =>
    obtain ⟨r, hr, h⟩ := bind_eq_some_iff.1 h
    have hgive : ∀ {s'}, (∀ b, r.phase ≠ .allocating b) →
        (if r.fragments = 0 then none
          else some (s.set (s.free + 1) i { r with fragments := r.fragments - 1 } s.running)) =
            some s' →
        ∃ r' free' running', s' = s.set free' i r' running' ∧ r.Moves s.free free' r' := by
      intro s' hphase h
      obtain ⟨hpos, h⟩ := ite_none_left_eq_some.1 h
      cases h
      refine ⟨_, _, _, rfl, LargeRead.moves_of_phase rfl ?_ hphase⟩
      show s.free + 1 + (r.fragments - 1) = s.free + r.fragments
      omega
    split at h
    · next hph =>
      obtain ⟨r', free', running', hs', hmoves⟩ := hgive (by simp [hph]) h
      exact ⟨i, r, r', free', running', hr, hs', hmoves⟩
    · next err hph =>
      obtain ⟨r', free', running', hs', hmoves⟩ := hgive (by simp [hph]) h
      exact ⟨i, r, r', free', running', hr, hs', hmoves⟩
    · cases h

namespace SegmentReads

variable {pool : SegmentPool} {contents : List (List UInt8)} {s s' : SegmentReads}

/-! ### Counting the segments -/

/-- What the reads can hold between them while each waits for another segment. -/
def demand (pool : SegmentPool) (contents : List (List UInt8)) : ℕ :=
  (contents.map fun c ↦ pool.need c - 1).sum

/-- The segments are counted right, and the reads are those of the given values. -/
structure Counted (pool : SegmentPool) (contents : List (List UInt8)) (s : SegmentReads) :
    Prop where
  total : s.free + (s.reads.map (·.fragments)).sum = pool.totalSegments
  need : s.reads.map (·.numSegments) = contents.map pool.need
  /-- A read that is collecting segments does not have them all. -/
  short : ∀ r ∈ s.reads, r.Short

theorem counted_init (pool : SegmentPool) (contents : List (List UInt8)) :
    (init pool contents).Counted pool contents where
  total := by simp [init, LargeRead.start, Function.comp_def]
  need := by simp [init, LargeRead.start, Function.comp_def]
  short r hr b hb := by
    obtain ⟨c, -, rfl⟩ := mem_map.1 hr
    have hpos : pool.need c ≠ 0 := fun hzero ↦ by simp [LargeRead.start, hzero] at hb
    exact Nat.pos_of_ne_zero hpos

theorem Counted.set (h : s.Counted pool contents) {i free' : ℕ} {r r' : LargeRead}
    {running' : Option ℕ} (hr : s.reads[i]? = some r) (hmoves : r.Moves s.free free' r') :
    (s.set free' i r' running').Counted pool contents where
  total := by
    have hsum := Tally.sum_map_set (·.fragments) hr r'
    have hcount := hmoves.count
    have htotal := h.total
    simp only [SegmentReads.set] at hsum ⊢
    omega
  need := by
    have hsame : (s.reads.map (·.numSegments))[i]? = some r'.numSegments := by
      rw [getElem?_map, hr, hmoves.need]
      rfl
    rw [SegmentReads.set, map_set, ← h.need]
    exact ext_getElem? fun j ↦ by
      by_cases hij : i = j
      · subst hij
        rw [hsame, List.getElem?_set_self (List.getElem?_eq_some_iff.1 hsame).1]
      · rw [getElem?_set_ne hij]
  short q hq := by
    rcases mem_or_eq_of_mem_set hq with hq | rfl
    · exact h.short q hq
    · exact hmoves.short (h.short r (mem_of_getElem? hr))

theorem counted_of_runs (h : ReadRuns pool contents s) : s.Counted pool contents := by
  refine h.invariant _ (counted_init pool contents) fun {s e s'} hs _ hstep ↦ ?_
  obtain ⟨i, r, r', free', running', hr, rfl, hmoves⟩ := ReadEvent.step_ok hstep
  exact hs.set hr hmoves

theorem Counted.demand_eq (h : s.Counted pool contents) :
    (s.reads.map fun r ↦ r.numSegments - 1).sum = demand pool contents := by
  have hneed := congrArg (map (· - 1)) h.need
  simp only [List.map_map, Function.comp_def] at hneed
  rw [hneed, demand]

theorem Counted.heldByWaiting_le (h : s.Counted pool contents) :
    s.heldByWaiting ≤ demand pool contents := by
  rw [← h.demand_eq]
  calc s.heldByWaiting
      ≤ ((s.reads.filter LargeRead.isWaiting).map fun r ↦ r.numSegments - 1).sum := by
        refine sum_le_sum fun r hr ↦ ?_
        obtain ⟨hmem, hwait⟩ := mem_filter.1 hr
        have hlt := h.short r hmem true (of_decide_eq_true hwait)
        omega
    _ ≤ (s.reads.map fun r ↦ r.numSegments - 1).sum :=
        (filter_sublist.map _).sum_le_sum fun _ _ ↦ Nat.zero_le _

/-- One value takes at most one segment more than all values together can wait with. -/
theorem Counted.numSegments_le (h : s.Counted pool contents) {r : LargeRead} (hr : r ∈ s.reads) :
    r.numSegments ≤ demand pool contents + 1 := by
  have hle := single_le_sum (l := s.reads.map fun r ↦ r.numSegments - 1)
    (fun _ _ ↦ Nat.zero_le _) _ (mem_map_of_mem hr)
  rw [h.demand_eq] at hle
  omega

/-! ### When the reads are safe -/

/-- **The reads cannot end up waiting for each other**: the pool is not all in the hands of reads
that wait, and a value that takes more segments than there are is refused. -/
structure Safe (pool : SegmentPool) (s : SegmentReads) : Prop where
  free : s.heldByWaiting ≠ pool.totalSegments
  /-- A value that does not fit is refused. -/
  refused : ∀ r ∈ s.reads, pool.totalSegments < r.numSegments → ∃ err, r.phase = .failed err

/-- **Reads of large values are safe if the pool is larger than what they can hold while they
wait**: one segment less than it takes for each value. -/
theorem safe_of_demand_lt (pool : SegmentPool) (contents : List (List UInt8))
    (hlt : demand pool contents < pool.totalSegments) (hrun : ReadRuns pool contents s) :
    s.Safe pool := by
  have hcount := counted_of_runs hrun
  refine ⟨?_, fun r hr hbig ↦ ?_⟩
  · have hle := hcount.heldByWaiting_le
    omega
  · have hle := hcount.numSegments_le hr
    omega

/-- Two reads of two segments each, from a pool of three: while the first has its two segments the
second has one and waits, and gets the other when the first is recycled. -/
theorem safe_of_demand_lt_two :
    let pool : SegmentPool := ⟨4096, 3, by decide⟩
    let contents := [encodeLargeValueContent 8192 [0, 1] [], encodeLargeValueContent 8192 [2, 3] []]
    ∃ s, ReadRuns pool contents s ∧ s.heldByWaiting = 1 ∧ s.Safe pool := by
  intro pool contents
  exact Transition.exists_reach_and_of_exec
    (fun hrun ↦ safe_of_demand_lt pool contents (by decide +kernel) hrun)
    [.tryGetSegment 0, .tryGetSegment 0, .tryGetSegment 1, .tryGetSegment 1] (by decide +kernel)

/-- A value of 12288 bytes takes three segments of 4096. From a pool of two its read takes both and
waits for the third, which only the read itself could give back. -/
theorem read_waits_for_itself :
    ∃ pool contents s, ReadRuns pool contents s ∧ s.heldByWaiting = pool.totalSegments ∧
      ¬ s.Safe pool := by
  let pool : SegmentPool := ⟨4096, 2, by decide⟩
  obtain ⟨s, hrun, hs⟩ : ∃ s, ReadRuns pool [encodeLargeValueContent 12288 [0, 1, 2] []] s ∧
      s.heldByWaiting = pool.totalSegments :=
    Transition.exists_reach_of_exec
      [.tryGetSegment 0, .tryGetSegment 0, .tryGetSegment 0] (by decide +kernel)
  exact ⟨pool, _, s, hrun, hs, fun h ↦ h.free hs⟩

end SegmentReads

end EloqStore
