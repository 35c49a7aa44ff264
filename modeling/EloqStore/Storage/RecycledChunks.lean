import EloqStore.Storage.ChunkedTable

/-!
# Mapping tables in recycled chunks

A mapping table takes its chunks from an arena, where they lie **with the words they had when they
were released**, and returns them to it. Whoever else uses the arena, all a table sees of it is what
is in the chunks it gets, so every operation that may take chunks is given their words (`stale`).

`Represents t l` says that the table is the plain array `l`: its chunks have the words of `l`, and
free slots behind them to the end of the last chunk. A table that is made smaller keeps the words
behind its end, as far as they are in its last chunk, and shows them again when it grows. So a table
stays an array as long as it is cut at the end of a chunk (`runs_as_array`). `ResizeInternal` could
cut it anywhere, but those who call it only let a table grow.
-/

namespace EloqStore

open List Option

namespace ChunkedTbl

/-- `InvalidValue`, the word of a free slot. -/
abbrev invalidValue : TblWord := .value .invalid

/-- `EnsureChunkCount`: chunks are added from the arena. -/
def ensureChunkCount (stale : ℕ → Chunk) (count : ℕ) (base : List Chunk) : List Chunk :=
  base ++ (List.range (count - base.length)).map stale

/-- `ResizeInternal`, with chunks from the arena, which are filled with free slots. -/
def resize (stale : ℕ → Chunk) (newSize : ℕ) (t : ChunkedTbl) : ChunkedTbl :=
  if newSize = t.logicalSize then t
  else if newSize < t.logicalSize then
    { t with
      base := if requiredChunks newSize < t.base.length then t.base.take (requiredChunks newSize)
        else t.base
      logicalSize := newSize }
  else
    { t with
      base := (ensureChunkCount stale (requiredChunks newSize) t.base).mapIdx fun i chunk ↦
        if t.base.length ≤ i ∧ i < requiredChunks newSize then invalidChunk else chunk
      logicalSize := newSize }

/-- `Set` of a table that is not being copied. -/
def setFrom (stale : ℕ → Chunk) (t : ChunkedTbl) (page : ℕ) (w : TblWord) : ChunkedTbl :=
  let t' := if page < t.logicalSize then t else t.resize stale (page + 1)
  { t' with base := store t'.base page w }

/-- `PushBack`; a logical page has 32 bits. -/
def pushBack (stale : ℕ → Chunk) (t : ChunkedTbl) (w : TblWord) : ChunkedTbl :=
  t.setFrom stale (t.logicalSize % 2 ^ 32) w

def clear (_ : ChunkedTbl) : ChunkedTbl := empty

/-! ### The array -/

/-- **The table is the array.** -/
structure Represents (t : ChunkedTbl) (l : List TblWord) : Prop where
  atRest : t.underCopying = false
  size : t.logicalSize = l.length
  chunks : t.base.length = requiredChunks l.length
  load : ∀ i < t.base.length * slotsPerChunk, load t.base i = some (l[i]?.getD invalidValue)

variable {t : ChunkedTbl} {l : List TblWord}

theorem Represents.get (h : t.Represents l) (page : ℕ) : t.get page = l[page]? := by
  rw [get_atRest h.atRest, h.size]
  split
  · next hlt =>
    rw [h.load page (hlt.trans_le (h.chunks ▸ le_requiredChunks _)),
      getElem?_eq_getElem hlt]
    rfl
  · next hge => exact (getElem?_eq_none (not_lt.1 hge)).symm

/-- **What was in the chunks of the arena is of no account.** -/
theorem resize_eq (stale : ℕ → Chunk) (newSize : ℕ) (t : ChunkedTbl) :
    t.resize stale newSize = t.resizeInternal (fun _ ↦ invalidChunk) newSize := by
  rw [resize, resizeInternal]
  split
  · rfl
  split
  · congr 1
    split
    · rfl
    · next hall => rw [take_of_length_le (not_lt.1 hall)]
  · congr 1
    refine ext_getElem? fun i ↦ ?_
    rw [ensureChunkCount, getElem?_mapIdx]
    by_cases hi : i < t.base.length
    · rw [getElem?_append_left hi, getElem?_append_left hi, getElem?_eq_getElem hi, map_some,
        if_neg (by omega)]
    · have hi := not_lt.1 hi
      rw [getElem?_append_right hi, getElem?_append_right hi, getElem?_map, getElem?_map]
      by_cases hnew : i - t.base.length < requiredChunks newSize - t.base.length
      · rw [getElem?_range hnew, map_some, map_some, map_some,
          if_pos ⟨hi, by omega⟩]
      · rw [getElem?_eq_none (by rw [length_range]; omega)]
        rfl

theorem getD_append_invalid (l : List TblWord) (k i : ℕ) :
    (l ++ replicate k invalidValue)[i]?.getD invalidValue = l[i]?.getD invalidValue := by
  rw [getElem?_append, getElem?_replicate]
  split
  · rfl
  · next hge =>
    rw [getElem?_eq_none (not_lt.1 hge)]
    split <;> rfl

/-- **A table grows by free slots.** -/
theorem Represents.grow (h : t.Represents l) (stale : ℕ → Chunk) {n : ℕ} (hn : l.length ≤ n) :
    (t.resize stale n).Represents (l ++ replicate (n - l.length) invalidValue) := by
  have hsize := h.size
  have hlen : (l ++ replicate (n - l.length) invalidValue).length = n := by
    rw [length_append, length_replicate]
    omega
  by_cases heq : n = l.length
  · rw [resize, if_pos (by omega), heq, Nat.sub_self, replicate_zero, append_nil]
    exact h
  have hmono : requiredChunks l.length ≤ requiredChunks n :=
    Nat.div_le_div_right (by omega)
  rw [resize_eq, resizeInternal, if_neg (by omega), if_neg (by omega)]
  refine ⟨h.atRest, hlen.symm, ?_, fun i hi ↦ ?_⟩
  · rw [hlen, length_append, length_map, length_range, h.chunks]
    omega
  · rw [getD_append_invalid, ChunkedTbl.load]
    have hchunk : i / slotsPerChunk < _ := (Nat.div_lt_iff_lt_mul (by decide)).2 hi
    by_cases hold : i / slotsPerChunk < t.base.length
    · rw [getElem?_append_left hold]
      exact h.load i ((Nat.div_lt_iff_lt_mul (by decide)).1 hold)
    · -- a chunk that is new lies behind the words of the array
      have hle : l.length ≤ i := Nat.le_trans (h.chunks ▸ le_requiredChunks _)
        ((Nat.le_div_iff_mul_le (by decide)).1 (not_lt.1 hold))
      rw [getElem?_append_right (not_lt.1 hold), getElem?_map, getElem?_range,
        getElem?_eq_none hle]
      · rfl
      · rw [length_append, length_map, length_range] at hchunk
        omega

theorem Represents.shrink (h : t.Represents l) (stale : ℕ → Chunk) {n : ℕ} (hn : n < l.length)
    (hcut : n % slotsPerChunk = 0) : (t.resize stale n).Represents (l.take n) := by
  have hsize := h.size
  have hchunks := h.chunks
  have hrequired : requiredChunks n * slotsPerChunk = n ∧
      requiredChunks n ≤ requiredChunks l.length := by
    simp only [requiredChunks, slotsPerChunk] at hcut ⊢
    omega
  rw [resize_eq, resizeInternal, if_neg (by omega), if_pos (by omega)]
  have hlen : (t.base.take (requiredChunks n)).length = requiredChunks n := by
    rw [length_take]
    omega
  refine ⟨h.atRest, by rw [length_take]; dsimp only; omega, ?_, fun i hi ↦ ?_⟩
  · rw [hlen, length_take, Nat.min_eq_left hn.le]
  · rw [hlen] at hi
    have hchunk := (Nat.div_lt_iff_lt_mul (by decide)).2 hi
    rw [hrequired.1] at hi
    have hold := Nat.mul_le_mul_right slotsPerChunk hrequired.2
    rw [hrequired.1, ← hchunks] at hold
    rw [ChunkedTbl.load, getElem?_take_of_lt hchunk, getElem?_take_of_lt hi]
    exact h.load i (hi.trans_le hold)

theorem Represents.store (h : t.Represents l) {page : ℕ} (hp : page < l.length) (w : TblWord) :
    { t with base := store t.base page w }.Represents (l.set page w) := by
  have hlt : page / slotsPerChunk < t.base.length := by
    refine (Nat.div_lt_iff_lt_mul (by decide)).2 (Nat.lt_of_lt_of_le hp ?_)
    exact h.chunks ▸ le_requiredChunks _
  refine ⟨h.atRest, by rw [length_set]; exact h.size, by rw [length_set, store_length, h.chunks],
    fun i hi ↦ ?_⟩
  rw [store_length] at hi
  rw [load_store hlt, getElem?_set]
  by_cases heq : i = page
  · rw [if_pos heq, if_pos heq.symm, if_pos hp, getD_some]
  · rw [if_neg heq, if_neg (Ne.symm heq), h.load i hi]

/-- Setting a word, as the array has it: behind the end, there are free slots in between. -/
def setArray (l : List TblWord) (page : ℕ) (w : TblWord) : List TblWord :=
  (l ++ replicate (page + 1 - l.length) invalidValue).set page w

theorem Represents.setFrom (h : t.Represents l) (stale : ℕ → Chunk) (page : ℕ) (w : TblWord) :
    (t.setFrom stale page w).Represents (setArray l page w) := by
  rw [ChunkedTbl.setFrom, setArray]
  split
  · next hlt =>
    rw [h.size] at hlt
    rw [Nat.sub_eq_zero_of_le hlt, replicate_zero, append_nil]
    exact h.store hlt w
  · next hge =>
    rw [h.size] at hge
    refine (h.grow stale (by omega)).store ?_ w
    rw [length_append, length_replicate]
    omega

/-! ### Runs -/

/-- An operation, with the words of the chunks it may get. -/
inductive Op
  | set (stale : ℕ → Chunk) (page : UInt32) (w : TblWord)
  | pushBack (stale : ℕ → Chunk) (w : TblWord)
  | reserve (n : ℕ)
  | resize (stale : ℕ → Chunk) (n : ℕ)
  | clear

def Op.run (t : ChunkedTbl) : Op → ChunkedTbl
  | .set stale page w => t.setFrom stale page.toNat w
  | .pushBack stale w => t.pushBack stale w
  | .reserve _ => t
  | .resize stale n => t.resize stale n
  | .clear => t.clear

/-- The operation on a plain array. -/
def Op.onArray (l : List TblWord) : Op → List TblWord
  | .set _ page w => setArray l page.toNat w
  | .pushBack _ w => l ++ [w]
  | .reserve _ => l
  | .resize _ n => l.take n ++ replicate (n - l.length) invalidValue
  | .clear => []

/-- The array is cut at the end of a chunk, and a logical page is put at the end while there are
numbers for one. -/
def Op.Clean (l : List TblWord) : Op → Prop
  | .pushBack .. => l.length < 2 ^ 32
  | .resize _ n => n < l.length → n % slotsPerChunk = 0
  | _ => True

/-- All operations of a run are such. -/
def CleanFrom : List TblWord → List Op → Prop
  | _, [] => True
  | l, op :: ops => op.Clean l ∧ CleanFrom (op.onArray l) ops

theorem represents_empty : empty.Represents [] :=
  ⟨rfl, rfl, rfl, by simp [empty]⟩

theorem Represents.run (h : t.Represents l) {op : Op} (hop : op.Clean l) :
    (op.run t).Represents (op.onArray l) := by
  cases op with
  | set stale page w => exact h.setFrom stale page.toNat w
  | pushBack stale w =>
    have hset := h.setFrom stale l.length w
    rw [setArray, Nat.add_sub_cancel_left, set_append_right _ _ le_rfl, Nat.sub_self] at hset
    rw [Op.run, ChunkedTbl.pushBack, h.size, Nat.mod_eq_of_lt hop]
    exact hset
  | reserve n => exact h
  | resize stale n =>
    by_cases hn : n < l.length
    · rw [Op.onArray, Nat.sub_eq_zero_of_le hn.le, replicate_zero, append_nil]
      exact h.shrink stale hn (hop hn)
    · rw [Op.onArray, take_of_length_le (not_lt.1 hn)]
      exact h.grow stale (not_lt.1 hn)
  | clear => exact represents_empty

theorem Represents.foldl_run (h : t.Represents l) {ops : List Op} (hops : CleanFrom l ops) :
    (ops.foldl Op.run t).Represents (ops.foldl Op.onArray l) := by
  induction ops generalizing t l with
  | nil => exact h
  | cons op ops ih => exact ih (h.run hops.1) hops.2

/-- **A table is the plain array.** After any operations that cut the table at the ends of chunks
only, whatever the chunks of the arena held, it has the size of the array and reads what the array
has, and nothing else. -/
theorem runs_as_array {ops : List Op} (h : CleanFrom [] ops) :
    (ops.foldl Op.run empty).logicalSize = (ops.foldl Op.onArray []).length ∧
      ∀ page, (ops.foldl Op.run empty).get page = (ops.foldl Op.onArray [])[page]? :=
  have hrep := represents_empty.foldl_run h
  ⟨hrep.size, hrep.get⟩

/-- A chunk that was full of other words is used, and a slot in it is free. -/
theorem runs_as_array_stale :
    ([Op.pushBack (fun _ _ ↦ .swizzlingPointer 9) (.swizzlingPointer 7),
      .set (fun _ _ ↦ .swizzlingPointer 9) 3 (.swizzlingPointer 8)].foldl Op.run empty).get 2 =
      some invalidValue :=
  have hclean : CleanFrom [] [Op.pushBack (fun _ _ ↦ .swizzlingPointer 9) (.swizzlingPointer 7),
    .set (fun _ _ ↦ .swizzlingPointer 9) 3 (.swizzlingPointer 8)] :=
      ⟨Nat.two_pow_pos 32, trivial, trivial⟩
  (runs_as_array hclean).2 2

/-- **A word comes back** that was cut off: in the array its slot is free. -/
theorem cut_word_returns :
    ([Op.set (fun _ ↦ invalidChunk) 0 (.swizzlingPointer 1),
      .set (fun _ ↦ invalidChunk) 1 (.swizzlingPointer 2), .resize (fun _ ↦ invalidChunk) 1,
      .resize (fun _ ↦ invalidChunk) 2].foldl Op.run empty).get 1 = some (.swizzlingPointer 2) := by
  decide

end ChunkedTbl

end EloqStore
