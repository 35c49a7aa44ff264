import EloqStore.Manifest.WireRoundTrip

/-!
# A manifest that is cut, and goes on

A crash may leave a manifest that ends inside a record. A replay keeps the records in front, and
reports a size; the next commit appends its record **at that size**, and does not shorten the file.
Two things can then go wrong.

* A record whose **padding** is cut is not applied, but its bytes are counted. The next record is
  written behind it, the missing padding reads as zeros, and the record is there again.
* Elsewhere the next record is written over the cut one. Where the cut one is longer, its last bytes
  stay behind the new record, and a replay looks for records in them.

In every other case the second replay finds the records kept and the one appended. The two
conditions are exact.
-/

namespace EloqStore.Wire

open List Log

open ByteCodec

/-! ### Cutting and appending -/

/-- The number of bytes of a log without its padding. -/
def Log.unpaddedSize (l : Log) : ℕ := headerBytes + l.payload.length

def Log.size (l : Log) : ℕ := l.unpaddedSize + paddingBytes l.unpaddedSize

/-- The number of bytes of a snapshot. -/
def Snapshot.size (s : Snapshot) : ℕ :=
  headerBytes + s.payload.length + paddingBytes (headerBytes + s.payload.length)

/-- The logs that lie in the first `n` bytes, padding included. -/
def keptLogs : ℕ → List (Log × Bytes) → List (Log × Bytes)
  | _, [] => []
  | n, l :: logs => if l.1.size ≤ n then l :: keptLogs (n - l.1.size) logs else []

/-- What the first `n` bytes hold of the log that is cut. -/
def tornBytes (xxh3 : Bytes → UInt64) : ℕ → List (Log × Bytes) → Bytes
  | _, [] => []
  | n, l :: logs =>
    if l.1.size ≤ n then tornBytes xxh3 (n - l.1.size) logs else (logBytes xxh3 l).take n

def cutInPadding : ℕ → List (Log × Bytes) → Option (Log × Bytes)
  | _, [] => none
  | n, l :: logs =>
    if l.1.size ≤ n then cutInPadding (n - l.1.size) logs
    else if l.1.unpaddedSize ≤ n then some l else none

/-- `AppendManifest`: write at an offset. A gap reads as zeros, and what lies behind stays. -/
def appendManifest (file : Bytes) (offset : ℕ) (log : Bytes) : Bytes :=
  file.take offset ++ (List.replicate (offset - file.length) 0 ++
    (log ++ file.drop (offset + log.length)))

/-- **No record is found** in the bytes, where a replay looks. -/
def silent (xxh3 : Bytes → UInt64) : ℕ → Bytes → Bool
  | 0, _ => true
  | k + 1, file =>
    match parseNextRecord xxh3 file with
    | .endOfFile _ => true
    | .corrupted _ rest => silent xxh3 k rest
    | .record _ _ _ => false

section

variable {xxh3 : Bytes → UInt64}

@[simp] theorem length_logBytes (l : Log × Bytes) : (logBytes xxh3 l).length = l.1.size :=
  length_finalize xxh3 _ _ _ _

/-- The first bytes are the logs kept, and the rest of the one cut. -/
theorem take_flatMap_logBytes (n : ℕ) (logs : List (Log × Bytes)) :
    (logs.flatMap (logBytes xxh3)).take n =
      (keptLogs n logs).flatMap (logBytes xxh3) ++ tornBytes xxh3 n logs := by
  induction logs generalizing n with
  | nil => rw [flatMap_nil, take_nil]; rfl
  | cons l logs ih =>
    rw [flatMap_cons, keptLogs, tornBytes, take_append, length_logBytes]
    split
    · next hle =>
      rw [take_of_length_le (by rw [length_logBytes]; exact hle), ih, flatMap_cons,
        append_assoc]
    · next hgt =>
      have hzero : n - l.1.size = 0 := by omega
      rw [hzero, take_zero, append_nil]
      rfl

variable {l : Log × Bytes}

theorem mem_of_mem_keptLogs {n : ℕ} {logs : List (Log × Bytes)} (h : l ∈ keptLogs n logs) :
    l ∈ logs := by
  induction logs generalizing n with
  | nil => exact h
  | cons l' logs ih =>
    rw [keptLogs] at h
    split at h
    · rcases mem_cons.1 h with rfl | h
      · exact mem_cons_self
      · exact mem_cons_of_mem _ (ih h)
    · cases h

/-- A record without its padding, and what is there of the padding. -/
theorem take_logBytes (xxh3 : Bytes → UInt64) {n : ℕ} (hle : l.1.unpaddedSize ≤ n) :
    ∃ pad, (logBytes xxh3 l).take n = unpadded xxh3 l.1.root l.1.ttlRoot l.1.payload ++ pad := by
  rw [logBytes, finalize, take_append, length_unpadded,
    take_of_length_le (by rw [length_unpadded]; exact hle)]
  exact ⟨_, rfl⟩

theorem parseNextRecord_take (h : Fits l.1.payload) {n : ℕ} (hn : n < l.1.unpaddedSize) :
    parseNextRecord xxh3 ((logBytes xxh3 l).take n) = .endOfFile 0 := by
  have hsize := length_unpadded xxh3 l.1.root l.1.ttlRoot l.1.payload
  have htake : (logBytes xxh3 l).take n =
      (unpadded xxh3 l.1.root l.1.ttlRoot l.1.payload).take n := by
    rw [logBytes, finalize, take_append, hsize]
    have hzero : n - (headerBytes + l.1.payload.length) = 0 := by
      rw [unpaddedSize] at hn
      omega
    rw [hzero, take_zero, append_nil]
  have hlen : ((logBytes xxh3 l).take n).length = n := by
    rw [htake, length_take, hsize]
    rw [unpaddedSize] at hn
    omega
  rw [parseNextRecord, hlen]
  split
  · rfl
  · next hheader =>
    -- the header is there, and gives the length of a payload that is not
    have hat16 : (((logBytes xxh3 l).take n).drop 16).take 4 = fixed 4 l.1.payload.length := by
      have hdrop : (unpadded xxh3 l.1.root l.1.ttlRoot l.1.payload).drop 16 =
          fixed 4 l.1.payload.length ++ l.1.payload := by
        rw [unpadded, content, ← append_assoc, ← append_assoc]
        exact drop_left' (by simp)
      rw [headerBytes] at hheader
      rw [htake, drop_take, take_take, hdrop, Nat.min_eq_left (by omega)]
      exact take_left' (length_fixed 4 _)
    have hpayload : l.1.payload.length < 256 ^ 4 := by
      rw [Fits] at h
      omega
    rw [hat16, ofFixed_fixed, Nat.mod_eq_of_lt hpayload,
      if_pos (show n < headerBytes + l.1.payload.length from hn)]

/-- **A cut record is not found.** It is counted if only padding is missing. -/
theorem parseNextRecord_tornBytes {n : ℕ} {logs : List (Log × Bytes)}
    (h : ∀ l ∈ logs, Fits l.1.payload) :
    parseNextRecord xxh3 (tornBytes xxh3 n logs) =
      .endOfFile (((cutInPadding n logs).map (·.1.size)).getD 0) := by
  induction logs generalizing n with
  | nil => rfl
  | cons l logs ih =>
    have hl := h l mem_cons_self
    rw [tornBytes, cutInPadding]
    split
    · exact ih fun l' hl' ↦ h l' (mem_cons_of_mem _ hl')
    · next hcut =>
      have hlen : ((logBytes xxh3 l).take n).length = n := by
        rw [length_take, length_logBytes]
        omega
      split
      · next hle =>
        obtain ⟨pad, hpad⟩ := take_logBytes xxh3 hle
        have hshort : pad.length < paddingBytes (headerBytes + l.1.payload.length) := by
          rw [hpad, length_append, length_unpadded] at hlen
          rw [size, unpaddedSize] at hcut
          omega
        rw [hpad, parseNextRecord_unpadded xxh3 _ _ hl, if_pos hshort]
        rfl
      · next hgt => exact parseNextRecord_take hl (not_le.1 hgt)

/-! ### Replaying what is left -/

theorem replayLogs_endOfFile {k : ℕ} {p : Progress} {file : Bytes} {size : ℕ}
    (hk : file.length ≤ k) (hparse : parseNextRecord xxh3 file = .endOfFile size) :
    replayLogs xxh3 k p file = .ok { p with fileSize := p.fileSize + size } := by
  rw [replayLogs_stable hk (Nat.le_succ_of_le (Nat.le_refl file.length)), replayLogs, hparse]

theorem isPrefix_applied {k : ℕ} {p q : Progress} {file : Bytes}
    (h : replayLogs xxh3 k p file = .ok q) : p.applied <+: q.applied := by
  induction k generalizing p file with
  | zero =>
    obtain rfl := Except.ok.inj h
    exact prefix_refl _
  | succ k ih =>
    rw [replayLogs] at h
    split at h
    · obtain rfl := Except.ok.inj h
      exact prefix_refl _
    · have hrest := ih h
      exact hrest
    · split at h
      · cases h
      · split at h
        · cases h
        · exact (prefix_append _ _).trans (ih h)

/-- **Bytes that hold no record change nothing**, and only those do. -/
theorem silent_iff (xxh3 : Bytes → UInt64) (k : ℕ) (p : Progress) (file : Bytes) :
    silent xxh3 k file = true ↔ ∃ q, replayLogs xxh3 k p file = .ok q ∧
      q.applied = p.applied ∧ q.state = p.state := by
  induction k generalizing p file with
  | zero => exact ⟨fun _ ↦ ⟨p, rfl, rfl, rfl⟩, fun _ ↦ rfl⟩
  | succ k ih =>
    rw [silent, replayLogs]
    cases parseNextRecord xxh3 file with
    | endOfFile size => exact ⟨fun _ ↦ ⟨_, rfl, rfl, rfl⟩, fun _ ↦ rfl⟩
    | corrupted size rest => exact ih _ rest
    | record r size rest =>
      refine ⟨by simp, ?_⟩
      rintro ⟨q, hq, happlied, -⟩
      dsimp only at hq
      split at hq
      · cases hq
      · split at hq
        · cases hq
        · -- the record would have been applied
          have hlen := (isPrefix_applied hq).length_le
          rw [happlied, length_append, length_singleton] at hlen
          omega

/-! ### The two replays -/

variable {s : Snapshot} {logs : List (Log × Bytes)} {n : ℕ}

/-- The bytes that the records kept take. -/
def keptSize (s : Snapshot) (n : ℕ) (logs : List (Log × Bytes)) : ℕ :=
  s.size + ((keptLogs (n - s.size) logs).map (·.1.size)).sum

/-- The snapshot and the logs kept. -/
def keptBytes (xxh3 : Bytes → UInt64) (s : Snapshot) (stale : Bytes) (n : ℕ)
    (logs : List (Log × Bytes)) : Bytes :=
  finalize xxh3 s.rootId s.ttlRoot s.payload stale ++
    (keptLogs (n - s.size) logs).flatMap (logBytes xxh3)

theorem length_flatMap_logBytes (logs : List (Log × Bytes)) :
    (logs.flatMap (logBytes xxh3)).length = (logs.map (·.1.size)).sum := by
  rw [length_flatMap]
  simp only [length_logBytes]

theorem length_keptBytes (stale : Bytes) :
    (keptBytes xxh3 s stale n logs).length = keptSize s n logs := by
  rw [keptBytes, length_append, length_finalize, length_flatMap_logBytes]
  rfl

/-- A cut file is the records kept, and what is left of the record cut. -/
theorem take_manifestBytes (hn : s.size ≤ n) (stale : Bytes) :
    (manifestBytes xxh3 s stale logs).take n =
      keptBytes xxh3 s stale n logs ++ tornBytes xxh3 (n - s.size) logs := by
  have hsize : (finalize xxh3 s.rootId s.ttlRoot s.payload stale).length = s.size :=
    length_finalize xxh3 _ _ _ _
  rw [manifestBytes, take_append, hsize,
    take_of_length_le (by rw [hsize]; exact hn), take_flatMap_logBytes, keptBytes,
    append_assoc]

/-- A replay applies the records kept, whatever follows them. -/
theorem replay_keptBytes (hs : Fits s.payload) (hlogs : ∀ l ∈ logs, Fits l.1.payload)
    (stale rest : Bytes) :
    replay xxh3 (keptBytes xxh3 s stale n logs ++ rest) = replayLogs xxh3 rest.length
      ⟨((keptLogs (n - s.size) logs).map (·.1)).foldl Replayer.apply s.state, keptSize s n logs,
        none, (keptLogs (n - s.size) logs).map (·.1.record)⟩ rest := by
  have hsize : (finalize xxh3 s.rootId s.ttlRoot s.payload stale).length = s.size :=
    length_finalize xxh3 _ _ _ _
  rw [keptBytes, append_assoc, replay_finalize xxh3 hs,
    replayLogs_append (fun l hl ↦ hlogs l (mem_of_mem_keptLogs hl)) rfl le_rfl, hsize,
    length_flatMap_logBytes, nil_append]
  rfl

/-- **The first replay** applies the records kept. It counts a record that is cut in its padding. -/
theorem replay_take (hs : Fits s.payload) (hlogs : ∀ l ∈ logs, Fits l.1.payload)
    (hn : s.size ≤ n) (stale : Bytes) :
    replay xxh3 ((manifestBytes xxh3 s stale logs).take n) =
      .ok ⟨((keptLogs (n - s.size) logs).map (·.1)).foldl Replayer.apply s.state,
        keptSize s n logs + ((cutInPadding (n - s.size) logs).map (·.1.size)).getD 0, none,
        (keptLogs (n - s.size) logs).map (·.1.record)⟩ := by
  rw [take_manifestBytes hn, replay_keptBytes hs hlogs]
  have hparse : parseNextRecord xxh3 (tornBytes xxh3 (n - s.size) logs) =
      .endOfFile (((cutInPadding (n - s.size) logs).map (·.1.size)).getD 0) :=
    parseNextRecord_tornBytes hlogs
  exact replayLogs_endOfFile le_rfl hparse

/-- Written at the end of the records kept, a record takes the place of the one cut. -/
theorem appendManifest_keptSize (hn : s.size ≤ n) (stale log : Bytes) :
    appendManifest ((manifestBytes xxh3 s stale logs).take n) (keptSize s n logs) log =
      keptBytes xxh3 s stale n logs ++
        (log ++ (tornBytes xxh3 (n - s.size) logs).drop log.length) := by
  have hlen : (keptBytes xxh3 s stale n logs).length = keptSize s n logs := length_keptBytes stale
  rw [appendManifest, take_manifestBytes hn, take_left' hlen, length_append, hlen,
    Nat.sub_eq_zero_of_le (Nat.le_add_right _ _), replicate_zero, nil_append, ← hlen,
    drop_append, drop_eq_nil_of_le (Nat.le_add_right _ _), nil_append,
    Nat.add_sub_cancel_left]

/-- The log that is cut in its padding is one of the logs, and its bytes are all there but some of
the padding. -/
theorem cutInPadding_eq_some (xxh3 : Bytes → UInt64) {m : ℕ} (h : cutInPadding m logs = some l) :
    l ∈ logs ∧ ∃ pad : Bytes, tornBytes xxh3 m logs =
      unpadded xxh3 l.1.root l.1.ttlRoot l.1.payload ++ pad ∧
        pad.length < paddingBytes l.1.unpaddedSize := by
  induction logs generalizing m with
  | nil => simp [cutInPadding] at h
  | cons l' logs ih =>
    rw [cutInPadding] at h
    rw [tornBytes]
    split at h
    · next hle =>
      obtain ⟨hmem, hpad⟩ := ih h
      rw [if_pos hle]
      exact ⟨mem_cons_of_mem _ hmem, hpad⟩
    · next hcut =>
      obtain ⟨hle, rfl⟩ := Option.ite_some_none_eq_some.1 h
      rw [if_neg hcut]
      obtain ⟨pad, hpad⟩ := take_logBytes xxh3 hle
      refine ⟨mem_cons_self, pad, hpad, ?_⟩
      have hlen := congrArg length hpad
      rw [length_take, length_logBytes, length_append, length_unpadded] at hlen
      rw [size] at hcut hlen
      rw [unpaddedSize] at hcut hlen ⊢
      omega

theorem logBytes_of_length {l : Log} {pad : Bytes} (h : pad.length = paddingBytes l.unpaddedSize) :
    logBytes xxh3 (l, pad) = unpadded xxh3 l.root l.ttlRoot l.payload ++ pad := by
  rw [logBytes, finalize]
  congr 1
  exact take_left' h

/-- **A record cut in its padding comes back.** The gap is filled with zeros, and the record is
found in front of the one appended. -/
theorem replay_appendManifest_padding (xxh3 : Bytes → UInt64) (hs : Fits s.payload)
    (hlogs : ∀ l ∈ logs, Fits l.1.payload) (hn : s.size ≤ n) (stale : Bytes)
    (hcut : cutInPadding (n - s.size) logs = some l) {r : Log × Bytes} (hr : Fits r.1.payload) :
    ∃ q, replay xxh3 (appendManifest ((manifestBytes xxh3 s stale logs).take n)
        (keptSize s n logs + l.1.size) (logBytes xxh3 r)) = .ok q ∧
      q.applied = (keptLogs (n - s.size) logs).map (·.1.record) ++ [l.1.record, r.1.record] := by
  obtain ⟨hmem, pad, htorn, hpad⟩ := cutInPadding_eq_some xxh3 hcut
  have hl := hlogs l hmem
  have hlen : (keptBytes xxh3 s stale n logs).length = keptSize s n logs := length_keptBytes stale
  -- the zeros complete the padding
  have hgap : (pad ++ replicate (paddingBytes l.1.unpaddedSize - pad.length) 0).length =
      paddingBytes l.1.unpaddedSize := by
    rw [length_append, length_replicate]
    omega
  have htotal : ((manifestBytes xxh3 s stale logs).take n).length =
      keptSize s n logs + (l.1.unpaddedSize + pad.length) := by
    rw [take_manifestBytes hn, htorn, length_append, hlen, length_append, length_unpadded]
    rfl
  have hoffset : ((manifestBytes xxh3 s stale logs).take n).length ≤
      keptSize s n logs + l.1.size := by
    rw [htotal, size]
    omega
  have hzeros : keptSize s n logs + l.1.size - ((manifestBytes xxh3 s stale logs).take n).length =
      paddingBytes l.1.unpaddedSize - pad.length := by
    rw [htotal, size]
    omega
  have hfile : appendManifest ((manifestBytes xxh3 s stale logs).take n)
      (keptSize s n logs + l.1.size) (logBytes xxh3 r) = keptBytes xxh3 s stale n logs ++
        ([(l.1, pad ++ replicate (paddingBytes l.1.unpaddedSize - pad.length) 0), r].flatMap
          (logBytes xxh3) ++ []) := by
    rw [appendManifest, take_of_length_le hoffset, hzeros,
      drop_eq_nil_of_le (Nat.le_add_right_of_le hoffset), take_manifestBytes hn, htorn,
      flatMap_cons, flatMap_singleton, logBytes_of_length hgap]
    simp only [append_assoc, append_nil]
  have hfits : ∀ l' ∈ [(l.1, pad ++ replicate (paddingBytes l.1.unpaddedSize - pad.length) 0),
      r], Fits l'.1.payload := by
    intro l' hl'
    rcases mem_cons.1 hl' with rfl | hl'
    · exact hl
    · rw [mem_singleton.1 hl']
      exact hr
  rw [hfile, replay_keptBytes hs hlogs, replayLogs_append hfits rfl (le_rfl)]
  exact ⟨_, rfl, rfl⟩

end

/-! ### The result -/

/-- **Appending after a cut.** The replay of a cut manifest succeeds with the state after the
records it keeps. A record appended at the size it reports is then the only one that is new, in
every replay, **exactly if** the cut is not in a record's padding, and no record is found in what
the new record does not cover of the one that is cut. -/
theorem append_after_cut_iff (xxh3 : Bytes → UInt64) (s : Snapshot) (stale : Bytes)
    (logs : List (Log × Bytes)) (n : ℕ) (hs : Fits s.payload)
    (hlogs : ∀ l ∈ logs, Fits l.1.payload) (hn : s.size ≤ n) :
    ∃ p, replay xxh3 ((manifestBytes xxh3 s stale logs).take n) = .ok p ∧
      p.state = ((keptLogs (n - s.size) logs).map (·.1)).foldl Replayer.apply s.state ∧
      p.applied = (keptLogs (n - s.size) logs).map (·.1.record) ∧
      ∀ r : Log × Bytes, Fits r.1.payload →
        ((∃ q, replay xxh3 (appendManifest ((manifestBytes xxh3 s stale logs).take n)
              p.reportedSize (logBytes xxh3 r)) = .ok q ∧
            q.applied = p.applied ++ [r.1.record] ∧ q.state = p.state.apply r.1) ↔
          cutInPadding (n - s.size) logs = none ∧
            silent xxh3 ((tornBytes xxh3 (n - s.size) logs).drop r.1.size).length
              ((tornBytes xxh3 (n - s.size) logs).drop r.1.size) = true) := by
  refine ⟨_, replay_take hs hlogs hn stale, rfl, rfl, fun r hr ↦ ?_⟩
  cases hcut : cutInPadding (n - s.size) logs with
  | some l =>
    refine ⟨?_, fun h ↦ absurd h.1 (by simp)⟩
    rintro ⟨q, hq, happlied, -⟩
    obtain ⟨q', hq', happlied'⟩ := replay_appendManifest_padding xxh3 hs hlogs hn stale hcut hr
    -- the replay applies one record too many
    obtain rfl : q = q' := Except.ok.inj (hq.symm.trans hq')
    have hlen := congrArg length (happlied.symm.trans happlied')
    simp only [length_append, length_cons, length_nil] at hlen
    omega
  | none =>
    have hfile : replay xxh3 (appendManifest ((manifestBytes xxh3 s stale logs).take n)
        (keptSize s n logs) (logBytes xxh3 r)) = replayLogs xxh3
          ((tornBytes xxh3 (n - s.size) logs).drop r.1.size).length
          ⟨(((keptLogs (n - s.size) logs).map (·.1)).foldl Replayer.apply s.state).apply r.1,
            keptSize s n logs + r.1.size, none,
            (keptLogs (n - s.size) logs).map (·.1.record) ++ [r.1.record]⟩
          ((tornBytes xxh3 (n - s.size) logs).drop r.1.size) := by
      have hfits : ∀ l' ∈ [r], Fits l'.1.payload := fun l' hl' ↦ by
        rw [mem_singleton.1 hl']
        exact hr
      rw [appendManifest_keptSize hn, length_logBytes, replay_keptBytes hs hlogs,
        ← flatMap_singleton (logBytes xxh3) r, replayLogs_append hfits rfl le_rfl,
        length_flatMap_logBytes]
      rfl
    refine ⟨fun h ↦ ⟨rfl, (silent_iff ..).2 (hfile ▸ h)⟩, fun h ↦ ?_⟩
    obtain ⟨q, hq, hlast⟩ := (silent_iff ..).1 h.2
    exact ⟨q, hfile.trans hq, hlast⟩

/-- A log cut in its payload, 30 bytes after the snapshot: the next record is written over it. -/
theorem append_after_cut_payload : ∃ n, n = sampleSnapshot.size + 30 ∧
    ∀ xxh3 : Bytes → UInt64, ∃ p q,
      replay xxh3 ((manifestBytes xxh3 sampleSnapshot [] [(sampleLog, [])]).take n) = .ok p ∧
      p.applied = [] ∧
      replay xxh3 (appendManifest ((manifestBytes xxh3 sampleSnapshot [] [(sampleLog, [])]).take n)
        p.reportedSize (logBytes xxh3 (sampleLog, []))) = .ok q ∧
      q.applied = [sampleLog.record] := by
  refine ⟨_, rfl, fun xxh3 ↦ ?_⟩
  obtain ⟨p, hp, -, happlied, happend⟩ := append_after_cut_iff xxh3 sampleSnapshot []
    [(sampleLog, [])] (sampleSnapshot.size + 30) (by decide) (by decide) (Nat.le_add_right _ _)
  rw [Nat.add_sub_cancel_left] at happlied happend
  have hkept : keptLogs 30 [(sampleLog, [])] = [] := by decide
  have hcovered : (tornBytes xxh3 30 [(sampleLog, [])]).drop sampleLog.size = [] := by
    have hcut : ¬sampleLog.size ≤ 30 := by decide
    refine drop_eq_nil_of_le (Nat.le_trans (length_take_le _ _) ?_)
    exact (Nat.not_le.1 hcut).le
  obtain ⟨q, hq, hq', -⟩ := (happend (sampleLog, []) (by decide)).2
    ⟨by decide, by rw [hcovered]; rfl⟩
  rw [happlied, hkept] at hq'
  exact ⟨p, q, hp, by rw [happlied, hkept]; rfl, hq, hq'⟩

/-- **A log cut in its padding comes back.** The file has lost its last byte. The replay drops the
log, and after an append it is there again, in front of the record appended. -/
theorem append_after_cut_padding : ∃ n, n = sampleSnapshot.size + 4095 ∧
    ∀ xxh3 : Bytes → UInt64, ∃ p q,
      replay xxh3 ((manifestBytes xxh3 sampleSnapshot [] [(sampleLog, [])]).take n) = .ok p ∧
      p.applied = [] ∧
      replay xxh3 (appendManifest ((manifestBytes xxh3 sampleSnapshot [] [(sampleLog, [])]).take n)
        p.reportedSize (logBytes xxh3 (sampleLog, []))) = .ok q ∧
      q.applied = [sampleLog.record, sampleLog.record] := by
  refine ⟨_, rfl, fun xxh3 ↦ ?_⟩
  have hcut : cutInPadding (sampleSnapshot.size + 4095 - sampleSnapshot.size) [(sampleLog, [])] =
      some (sampleLog, []) := by decide
  have hkept : keptLogs (sampleSnapshot.size + 4095 - sampleSnapshot.size) [(sampleLog, [])] =
      [] := by decide
  have hlogs : ∀ l ∈ [(sampleLog, ([] : Bytes))], Fits l.1.payload := by decide
  have hs : Fits sampleSnapshot.payload := by decide
  have hn : sampleSnapshot.size ≤ sampleSnapshot.size + 4095 := Nat.le_add_right _ _
  have hr : Fits ((sampleLog, []) : Log × Bytes).1.payload := by decide
  obtain ⟨q, hq, happlied⟩ := replay_appendManifest_padding xxh3 hs hlogs hn [] hcut hr
  refine ⟨_, q, replay_take hs hlogs hn [], by rw [hkept]; rfl, ?_, ?_⟩
  · rw [hcut]
    exact hq
  · rw [happlied, hkept]
    rfl

end EloqStore.Wire
