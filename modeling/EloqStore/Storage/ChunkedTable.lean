import EloqStore.Foundation.AssocMap
import EloqStore.Storage.PageMapper

/-!
# Mapping tables in chunks, with pointers to cached pages

A mapping table as the source keeps it. Its words are those of `MappingValue` and pointers to cached
pages, which stand for the file page the cached page carries (`TblWord.resolve`); they lie in chunks
of 512. A table that is being copied logs the words that are set (`changes`) and leaves its chunks
alone; the log is replayed on the copy (`applyPendingTo`) and then on the table (`finishCopying`).

The lemmas describe every operation by what a read of the table finds (`load_store`,
`get_set_copying`, `load_foldl_store`), so that nothing after this file looks into a chunk.
-/

namespace EloqStore

open Function List Option

/-! ### Words and cached pages -/

/-- A word of a mapping table. -/
inductive TblWord
  | swizzlingPointer (page : ℕ)
  | value (v : MappingValue)
deriving DecidableEq, Repr

/-- What a mapping table needs to know of a cached page. -/
structure PageFrame where
  pageId : Option ℕ
  filePageId : Option ℕ
  /-- The page is on no list: it is still being read. -/
  detached : Bool
deriving DecidableEq, Repr

/-- The word of a file page. The tag takes three of the 64 bits; no file page is the largest
number. -/
def encodeFilePageId (fp : Option ℕ) : MappingValue :=
  .filePageId (fp.getD (2 ^ 64 - 1) % 2 ^ 61)

/-- **What a word stands for**: a pointer stands for the file page of its cached page. -/
def TblWord.resolve (pages : ℕ → PageFrame) : TblWord → MappingValue
  | .swizzlingPointer a => ((pages a).filePageId.map .filePageId).getD .invalid
  | .value v => v

/-- A word as it may stand at a logical page: a pointer is to a cached page of that logical page,
and a file page fits beside the tag. -/
def TblWord.Ok (pages : ℕ → PageFrame) (page : ℕ) : TblWord → Prop
  | .swizzlingPointer a =>
    (pages a).pageId = some page ∧ ∃ fp < 2 ^ 61, (pages a).filePageId = some fp
  | .value (.filePageId fp) => fp < 2 ^ 61
  | .value _ => True

/-- A pointer to a page that is still being read is not shared: its file page is taken instead. -/
def TblWord.share (pages : ℕ → PageFrame) : TblWord → TblWord
  | .swizzlingPointer a =>
    if (pages a).detached then .value (encodeFilePageId (pages a).filePageId)
    else .swizzlingPointer a
  | .value v => .value v

theorem encodeFilePageId_of_lt {fp : ℕ} (h : fp < 2 ^ 61) :
    encodeFilePageId (some fp) = .filePageId fp := by
  rw [encodeFilePageId, getD_some, Nat.mod_eq_of_lt h]

variable {page : ℕ} {pages : ℕ → PageFrame}

/-- A pointer as it may stand resolves to what unswizzling it would store. -/
theorem TblWord.Ok.resolve_pointer {a : ℕ} (h : (TblWord.swizzlingPointer a).Ok pages page) :
    encodeFilePageId (pages a).filePageId = (TblWord.swizzlingPointer a).resolve pages := by
  obtain ⟨-, fp, hlt, hfp⟩ := h
  rw [TblWord.resolve, hfp, encodeFilePageId_of_lt hlt]
  rfl

/-- Sharing a word as it may stand keeps it or resolves it. -/
theorem TblWord.Ok.share_eq {w : TblWord} (h : w.Ok pages page) :
    w.share pages = w ∨ w.share pages = .value (w.resolve pages) := by
  cases w with
  | swizzlingPointer a =>
    rw [TblWord.share]
    split
    · exact .inr (congrArg _ h.resolve_pointer)
    · exact .inl rfl
  | value v => exact .inl rfl

/-- A cached page is of no account to the words that do not point to it. -/
theorem TblWord.ok_update {a : ℕ} {w : TblWord} (hw : w ≠ .swizzlingPointer a) (f : PageFrame)
    (h : w.Ok pages page) : w.Ok (Function.update pages a f) page := by
  cases w with
  | swizzlingPointer b =>
    rwa [TblWord.Ok, update_of_ne fun hab ↦ hw (congrArg _ hab)]
  | value v => cases v <;> exact h

theorem TblWord.resolve_update {a : ℕ} {w : TblWord} (hw : w ≠ .swizzlingPointer a)
    (f : PageFrame) : w.resolve (Function.update pages a f) = w.resolve pages := by
  cases w with
  | swizzlingPointer b =>
    rw [TblWord.resolve, update_of_ne fun hab ↦ hw (congrArg _ hab)]
    rfl
  | value v => rfl

/-! ### Chunked tables -/

def slotsPerChunk : ℕ := 512

instance : NeZero slotsPerChunk := ⟨by decide⟩

abbrev Chunk := Fin slotsPerChunk → TblWord

/-- A mapping table as it is kept. -/
structure ChunkedTbl where
  /-- The table is the source of a copy under way. -/
  underCopying : Bool
  /-- The words that have been set since the copying began. -/
  changes : AssocMap ℕ TblWord
  base : List Chunk
  logicalSize : ℕ

namespace ChunkedTbl

/-- The place of a logical page in its chunk. -/
def chunkOffset (page : ℕ) : Fin slotsPerChunk := Fin.ofNat slotsPerChunk page

/-- The word the chunks have for a logical page. -/
def load (base : List Chunk) (page : ℕ) : Option TblWord :=
  (base[page / slotsPerChunk]?).map fun chunk ↦ chunk (chunkOffset page)

def store (base : List Chunk) (page : ℕ) (w : TblWord) : List Chunk :=
  base.modify (page / slotsPerChunk) fun chunk ↦ Function.update chunk (chunkOffset page) w

/-- The chunks a number of logical pages needs. -/
def requiredChunks (n : ℕ) : ℕ := (n + slotsPerChunk - 1) / slotsPerChunk

def invalidChunk : Chunk := fun _ ↦ .value .invalid

def empty : ChunkedTbl := ⟨false, .empty, [], 0⟩

/-- Change the number of logical pages. `newChunk` is what the chunks that are added hold: free
slots, or whatever they held when they were last used. -/
def resizeInternal (newChunk : ℕ → Chunk) (newSize : ℕ) (t : ChunkedTbl) : ChunkedTbl :=
  if newSize = t.logicalSize then t
  else if newSize < t.logicalSize then
    { t with base := t.base.take (requiredChunks newSize), logicalSize := newSize }
  else
    { t with
      base := t.base ++
        (List.range (requiredChunks newSize - t.base.length)).map (newChunk <| t.base.length + ·)
      logicalSize := newSize }

variable (t : ChunkedTbl)

def set (page : ℕ) (w : TblWord) : ChunkedTbl :=
  if t.underCopying then
    { t with changes := t.changes.set page w, logicalSize := max t.logicalSize (page + 1) }
  else
    let t' := if page < t.logicalSize then t
      else t.resizeInternal (fun _ ↦ invalidChunk) (page + 1)
    { t' with base := store t'.base page w }

/-- The word of a logical page; there is none outside the table. -/
def get (page : ℕ) : Option TblWord :=
  match if t.underCopying then t.changes.get? page else none with
  | some w => some w
  | none => if page < t.logicalSize then load t.base page else none

def startCopying : ChunkedTbl := { t with underCopying := true }

/-- Replay the log on the table itself. -/
def applyChanges : ChunkedTbl :=
  t.changes.pairs.foldl
    (fun t x ↦
      let t' := if t.logicalSize < x.1 + 1 then
          t.resizeInternal (fun _ ↦ invalidChunk) (x.1 + 1)
        else t
      { t' with base := store t'.base x.1 x.2 }) t

/-- Replay the log and keep none from now on. -/
def finishCopying : ChunkedTbl :=
  { t.applyChanges with changes := .empty, underCopying := false }

/-- Replay the log on another table, which must not be the larger one. -/
def applyPendingTo (t dst : ChunkedTbl) : Option ChunkedTbl :=
  if dst.logicalSize ≤ t.logicalSize then
    let dst' := if dst.logicalSize < t.logicalSize then
        dst.resizeInternal (fun _ ↦ invalidChunk) t.logicalSize
      else dst
    some (t.changes.pairs.foldl (fun dst x ↦ dst.set x.1 x.2) dst')
  else none

/-- Copy one chunk of `src`, as far as it is in use; there has to be one. -/
def copyChunk (dst : ChunkedTbl) (pages : ℕ → PageFrame) (src : ChunkedTbl) (i : ℕ) :
    Option ChunkedTbl :=
  (src.base[i]?).map fun chunk ↦
    { dst with
      base := dst.base.modify i fun old j ↦
        if i * slotsPerChunk + j.val < src.logicalSize then (chunk j).share pages else old j }

/-- The word `AddSwizzling` sets, with its logical page. -/
def addSwizzling (page a : ℕ) : Option (ℕ × TblWord) :=
  match t.get page with
  | some (.swizzlingPointer _) => none
  | _ => some (page, .swizzlingPointer a)

/-- The word `Unswizzling` sets, with its logical page. -/
def unswizzling (pages : ℕ → PageFrame) (t : ChunkedTbl) (a : ℕ) : Option (ℕ × TblWord) :=
  (pages a).pageId.bind fun page ↦
    if page < t.logicalSize ∧ t.get page = some (.swizzlingPointer a) then
      some (page, .value (encodeFilePageId (pages a).filePageId))
    else none

/-- The table with its pointers resolved. -/
def resolve (pages : ℕ → PageFrame) (t : ChunkedTbl) : MappingTbl :=
  (List.range t.logicalSize).map fun page ↦ ((t.get page).map (·.resolve pages)).getD .invalid

/-- No word points to the cached page. -/
def NotPointed (a : ℕ) : Prop :=
  ∀ page < t.logicalSize, t.get page ≠ some (.swizzlingPointer a)

instance (a : ℕ) : Decidable (t.NotPointed a) :=
  inferInstanceAs (Decidable (∀ page < t.logicalSize, _))

/-! ### Loads and stores -/

theorem eq_of_chunk_eq {p q : ℕ} (hdiv : p / slotsPerChunk = q / slotsPerChunk)
    (hoff : chunkOffset p = chunkOffset q) : p = q := by
  have hmod : p % slotsPerChunk = q % slotsPerChunk := congrArg Fin.val hoff
  rw [← Nat.div_add_mod p slotsPerChunk, hdiv, hmod, Nat.div_add_mod]

theorem load_modify (base : List Chunk) (i : ℕ) (f : Chunk → Chunk) (q : ℕ) :
    load (base.modify i f) q =
      if i = q / slotsPerChunk then (base[i]?).map fun chunk ↦ f chunk (chunkOffset q)
      else load base q := by
  rw [load, getElem?_modify]
  split
  · next hi => cases hb : base[q / slotsPerChunk]? <;> simp [hi, hb]
  · next hi => cases hb : base[q / slotsPerChunk]? <;> simp [hb, load]

theorem load_store {base : List Chunk} (h : page / slotsPerChunk < base.length) (w : TblWord)
    (q : ℕ) : load (store base page w) q = if q = page then some w else load base q := by
  rw [store, load_modify]
  by_cases hdiv : page / slotsPerChunk = q / slotsPerChunk
  · rw [if_pos hdiv, load, ← hdiv, getElem?_eq_getElem h]
    split
    · next heq => rw [heq, map_some, update_self]
    · next hne =>
      rw [map_some, map_some,
        update_of_ne fun hoff ↦ hne (eq_of_chunk_eq hdiv hoff.symm).symm]
  · rw [if_neg hdiv, if_neg fun heq ↦ hdiv (by rw [heq])]

@[simp] theorem store_length (base : List Chunk) (page : ℕ) (w : TblWord) :
    (store base page w).length = base.length := length_modify ..

/-- **Storing the pairs of a list**, whose logical pages differ. -/
theorem load_foldl_store {l : List (ℕ × TblWord)} (hnodup : (l.map (·.1)).Nodup) {base : List Chunk}
    (hl : ∀ x ∈ l, x.1 / slotsPerChunk < base.length) (q : ℕ) :
    load (l.foldl (fun base x ↦ store base x.1 x.2) base) q = (l.lookup q).or (load base q) := by
  induction l generalizing base with
  | nil => rfl
  | cons x l ih =>
    obtain ⟨hx, hnodup⟩ := nodup_cons.1 hnodup
    rw [foldl_cons, ih hnodup fun y hy ↦ by simpa using hl y (mem_cons_of_mem _ hy),
      load_store (hl x mem_cons_self), lookup_cons]
    by_cases hq : q = x.1
    · -- `x` is stored first, so no later pair may be for the same page
      have hnone : l.lookup q = none := by
        rw [hq]
        refine lookup_eq_none_iff.2 fun y hy ↦ ?_
        exact bne_iff_ne.2 fun heq ↦ hx (mem_map.2 ⟨y, hy, heq.symm⟩)
      rw [if_pos hq, hnone, hq, beq_self_eq_true]
      rfl
    · rw [if_neg hq, beq_false_of_ne hq]

/-- A table whose chunks are enough for its logical pages. -/
def Covers : Prop := t.logicalSize ≤ t.base.length * slotsPerChunk

instance : Decidable t.Covers := inferInstanceAs (Decidable (_ ≤ _))

variable {t}

theorem Covers.lt (h : t.Covers) (hp : page < t.logicalSize) :
    page / slotsPerChunk < t.base.length :=
  (Nat.div_lt_iff_lt_mul (by decide)).2 (hp.trans_le h)

theorem le_requiredChunks (n : ℕ) : n ≤ requiredChunks n * slotsPerChunk := by
  simp only [requiredChunks, slotsPerChunk]
  omega

theorem set_of_lt (hrest : t.underCopying = false) (hp : page < t.logicalSize) (w : TblWord) :
    t.set page w = { t with base := store t.base page w } := by
  rw [set, if_neg (by simp [hrest]), if_pos hp]

/-- Setting words that are in the table stores them. -/
theorem foldl_set_eq {l : List (ℕ × TblWord)} (hrest : t.underCopying = false)
    (hl : ∀ x ∈ l, x.1 < t.logicalSize) :
    l.foldl (fun t x ↦ t.set x.1 x.2) t =
      { t with base := l.foldl (fun base x ↦ store base x.1 x.2) t.base } := by
  induction l generalizing t with
  | nil => rfl
  | cons x l ih =>
    rw [foldl_cons, set_of_lt hrest (hl x mem_cons_self), ih]
    · rfl
    · exact hrest
    · exact fun y hy ↦ hl y (mem_cons_of_mem _ hy)

/-- Replaying changes that are in the table stores them. -/
theorem applyChanges_eq (hl : ∀ x ∈ t.changes.pairs, x.1 < t.logicalSize) :
    t.applyChanges =
      { t with base := t.changes.pairs.foldl (fun base x ↦ store base x.1 x.2) t.base } := by
  rw [applyChanges]
  generalize t.changes.pairs = l at hl
  induction l generalizing t with
  | nil => rfl
  | cons x l ih =>
    rw [foldl_cons, if_neg (not_lt.2 (hl x mem_cons_self)), ih]
    · rfl
    · exact fun y hy ↦ hl y (mem_cons_of_mem _ hy)

/-! ### Reads -/

theorem get_atRest (hrest : t.underCopying = false) (page : ℕ) :
    t.get page = if page < t.logicalSize then load t.base page else none := by
  rw [get, hrest]
  rfl

theorem get_copying (hcopy : t.underCopying = true) (page : ℕ) :
    t.get page =
      (t.changes.get? page).or (if page < t.logicalSize then load t.base page else none) := by
  rw [get, hcopy, if_pos rfl]
  cases t.changes.get? page <;> rfl

theorem get_startCopying (hrest : t.underCopying = false) (hnone : t.changes = .empty) :
    t.startCopying.get = t.get := by
  funext page
  rw [get_atRest hrest, get_copying rfl, startCopying, hnone, AssocMap.get?_empty]
  rfl

theorem resizeInternal_empty (newChunk : ℕ → Chunk) (n : ℕ) :
    empty.resizeInternal newChunk n =
      ⟨false, .empty, (List.range (requiredChunks n)).map newChunk, n⟩ := by
  rw [resizeInternal]
  split
  · next h =>
    subst h
    rfl
  · rw [if_neg (show ¬n < empty.logicalSize from Nat.not_lt_zero n)]
    simp [empty]

theorem set_copying (hcopy : t.underCopying = true) (hp : page < t.logicalSize) (w : TblWord) :
    t.set page w = { t with changes := t.changes.set page w } := by
  rw [set, if_pos hcopy, Nat.max_eq_left hp]

/-- **A table under copying reads the word set last.** -/
theorem get_set_copying (hcopy : t.underCopying = true) (hp : page < t.logicalSize) (w : TblWord)
    (q : ℕ) : (t.set page w).get q = if q = page then some w else t.get q := by
  have hcopy' : (t.set page w).underCopying = true := by rw [set_copying hcopy hp, hcopy]
  rw [get_copying hcopy', set_copying hcopy hp, AssocMap.get?_set, get_copying hcopy]
  split <;> rfl

/-- The pages with a logged change lie in the table. -/
def Logged (t : ChunkedTbl) : Prop :=
  ∀ page w, t.changes.get? page = some w → page < t.logicalSize

theorem Logged.pairs (h : t.Logged) : ∀ x ∈ t.changes.pairs, x.1 < t.logicalSize :=
  fun x hx ↦ h x.1 x.2 (lookup_of_mem t.changes.nodup hx)

/-- **The end of the copying is not seen by reads of the source.** -/
theorem get_finishCopying (hcopy : t.underCopying = true) (hlog : t.Logged) (hcov : t.Covers) :
    t.finishCopying.get = t.get := by
  funext page
  rw [get_atRest rfl, get_copying hcopy, finishCopying, applyChanges_eq hlog.pairs]
  split
  · next hp =>
    rw [load_foldl_store t.changes.nodup fun x hx ↦ hcov.lt (hlog.pairs x hx)]
    rfl
  · next hp =>
    have hnone : t.changes.get? page = none :=
      eq_none_iff_forall_ne_some.2 fun w hw ↦ hp (hlog page w hw)
    rw [hnone, none_or]

@[simp] theorem finishCopying_logicalSize (hlog : t.Logged) :
    t.finishCopying.logicalSize = t.logicalSize := by
  rw [finishCopying, applyChanges_eq hlog.pairs]

/-- **The log is replayed on a table of the same size.** -/
theorem applyPendingTo_spec {dst : ChunkedTbl} (hlog : t.Logged) (hrest : dst.underCopying = false)
    (hsize : dst.logicalSize = t.logicalSize) (hcov : dst.Covers) :
    ∃ d, t.applyPendingTo dst = some d ∧ d.logicalSize = dst.logicalSize ∧
      ∀ page < dst.logicalSize, d.get page = (t.changes.get? page).or (load dst.base page) := by
  have hlt : ∀ x ∈ t.changes.pairs, x.1 < dst.logicalSize :=
    fun x hx ↦ hsize ▸ hlog.pairs x hx
  rw [applyPendingTo, if_pos hsize.le, if_neg (not_lt.2 hsize.symm.le)]
  refine ⟨_, congrArg some (foldl_set_eq hrest hlt), rfl, fun page hp ↦ ?_⟩
  rw [get_atRest, if_pos hp]
  · exact load_foldl_store t.changes.nodup (fun x hx ↦ hcov.lt (hlt x hx)) page
  · exact hrest

theorem length_resolve (pages : ℕ → PageFrame) (t : ChunkedTbl) :
    (t.resolve pages).length = t.logicalSize := by
  rw [resolve, length_map, length_range]

/-- Tables of one size with the same resolved words are the same when resolved. -/
theorem resolve_congr {pages' : ℕ → PageFrame} {t' : ChunkedTbl}
    (hsize : t.logicalSize = t'.logicalSize)
    (h : ∀ page < t.logicalSize, (t.get page).map (·.resolve pages) =
      (t'.get page).map (·.resolve pages')) : t.resolve pages = t'.resolve pages' := by
  rw [resolve, resolve, ← hsize]
  exact map_congr_left fun page hp ↦ by rw [h page (mem_range.1 hp)]

end ChunkedTbl

end EloqStore
