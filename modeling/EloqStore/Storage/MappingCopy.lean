import EloqStore.Foundation.Transition
import EloqStore.Storage.ChunkedTable

/-!
# Copying a page mapper while others use it

A write task copies the published page mapper before it changes anything. The table is copied chunk
by chunk, and the task yields after every chunk; meanwhile other tasks read pages through the source
and replace its words: a load puts a pointer to a cached page in place of a file page
(`AddSwizzling`), and a failed load or an eviction puts the file page back (`Unswizzling`).

Resolving the pointers takes a mapper back to the `PageMapper` it stands for
(`SwizzledMapper.toPageMapper`), and there the copy is the identity: whatever the others do at the
yields, both mappers end up as the page mapper the source was at the start
(`MapperCopy.copy_eq_source`). Chunks are copied with words that are out of date, and with pointers
to cached pages that have been recycled since; each of these is under a logged change.
-/

namespace EloqStore

open List Option ChunkedTbl

open ChunkedTbl (load)

/-- A page mapper over a table with pointers. -/
structure SwizzledMapper where
  tbl : ChunkedTbl
  freePageHead : Option ℕ
  freePageCnt : ℕ
  allocator : FilePageAllocator

/-- **The page mapper a mapper stands for.** -/
def SwizzledMapper.toPageMapper (pages : ℕ → PageFrame) (m : SwizzledMapper) : PageMapper :=
  ⟨m.tbl.resolve pages, m.freePageHead, m.freePageCnt, m.allocator⟩

/-- What a copy starts from: a mapper that is not being copied, and whose words are as they may
stand. -/
structure CopySource where
  pages : ℕ → PageFrame
  mapper : SwizzledMapper
  atRest : mapper.tbl.underCopying = false
  noChanges : mapper.tbl.changes = .empty
  covers : mapper.tbl.Covers
  words : ∀ page w, mapper.tbl.get page = some w → w.Ok pages page

/-- The copying of a page mapper. -/
structure MapperCopy where
  pages : ℕ → PageFrame
  src : SwizzledMapper
  dst : SwizzledMapper
  /-- The chunk that comes next, until the copy is finished. -/
  next? : Option ℕ
  /-- The word that was set last at each page of the source. -/
  latest : ℕ → Option TblWord

/-- What can happen while a mapper is copied. -/
inductive CopyEvent
  /-- The copying task goes on, to its next yield or to the end. -/
  | resume
  | load (page a : ℕ)
  /-- The load into a cached page succeeds. -/
  | loaded (a : ℕ)
  /-- The load into a cached page fails, or the page is evicted and loses its ids. -/
  | unswizzle (a : ℕ) (evicted : Bool)
  /-- A cached page that the source does not point to is used for something else. -/
  | reuse (a : ℕ) (frame : PageFrame)

namespace MapperCopy

/-- The copy constructor up to its first yield. A table without pages is left empty; that is done
without a yield, and there is nothing in it that others could change. `newChunk` is what the chunks
of the copy held before. -/
def start (c : CopySource) (newChunk : ℕ → Chunk) : MapperCopy where
  pages := c.pages
  src := { c.mapper with tbl := c.mapper.tbl.startCopying }
  dst := { c.mapper with
    tbl := ChunkedTbl.empty.resizeInternal newChunk c.mapper.tbl.logicalSize }
  next? := some 0
  latest := c.mapper.tbl.get

def perform (s : MapperCopy) : Option (ℕ × TblWord) → MapperCopy
  | none => s
  | some (page, w) =>
    { s with
      src := { s.src with tbl := s.src.tbl.set page w }
      latest := Function.update s.latest page (some w) }

/-- The end of the copy constructor: the log is replayed on both tables. -/
def finish (s : MapperCopy) : Option MapperCopy :=
  (s.src.tbl.applyPendingTo s.dst.tbl).map fun t ↦
    { s with
      src := { s.src with tbl := s.src.tbl.finishCopying }
      dst := { s.dst with tbl := t }
      next? := none }

end MapperCopy

/-- The steps while chunk `i` comes next. -/
def CopyEvent.stepAt (s : MapperCopy) (i : ℕ) : CopyEvent → Option MapperCopy
  | .resume =>
    if i < s.dst.tbl.base.length ∧ i * slotsPerChunk < s.src.tbl.logicalSize then
      (s.dst.tbl.copyChunk s.pages s.src.tbl i).map fun t ↦
        { s with dst := { s.dst with tbl := t }, next? := some (i + 1) }
    else s.finish
  | .load page a =>
    match s.src.tbl.get page with
    | some (.value (.filePageId fp)) =>
      if s.src.tbl.NotPointed a then
        some <| MapperCopy.perform
          { s with pages := Function.update s.pages a ⟨some page, some fp, true⟩ }
          (s.src.tbl.addSwizzling page a)
      else none
    | _ => none
  | .loaded a =>
    (s.pages a).pageId.bind fun page ↦
      if s.src.tbl.get page = some (.swizzlingPointer a) then
        some <| MapperCopy.perform
          { s with pages := Function.update s.pages a { s.pages a with detached := false } }
          (s.src.tbl.addSwizzling page a)
      else none
  | .unswizzle a evicted =>
    some
      { s.perform (s.src.tbl.unswizzling s.pages a) with
        pages := if evicted then Function.update s.pages a ⟨none, none, false⟩ else s.pages }
  | .reuse a frame =>
    if s.src.tbl.NotPointed a then
      some { s with pages := Function.update s.pages a frame }
    else none

/-- The steps. Nothing is followed after the copy is finished. -/
def CopyEvent.step (s : MapperCopy) (e : CopyEvent) : Option MapperCopy :=
  s.next?.bind fun i ↦ e.stepAt s i

/-- The states a copy of `c` goes through. -/
def CopyRuns (c : CopySource) (newChunk : ℕ → Chunk) : MapperCopy → Prop :=
  Transition.Reach (fun s e t ↦ CopyEvent.step s e = some t) (fun _ _ ↦ True)
    (.start c newChunk)

namespace MapperCopy

variable {c : CopySource} {newChunk : ℕ → Chunk} {s s' : MapperCopy} {i : ℕ}

/-- **The invariant of the copying**, with `i` the chunk that comes next. The chunks of the source
stay as they were, and every word of it stands for what stood there at the start. A page of the
copied chunks that has no logged change has in the copy the word that was copied, or what it
stands for. -/
structure Copying (c : CopySource) (s : MapperCopy) (i : ℕ) : Prop where
  copying : s.src.tbl.underCopying = true
  base : s.src.tbl.base = c.mapper.tbl.base
  size : s.src.tbl.logicalSize = c.mapper.tbl.logicalSize
  logged : ∀ page w, s.src.tbl.changes.get? page = some w → page < c.mapper.tbl.logicalSize
  words : ∀ page w, s.src.tbl.get page = some w → w.Ok s.pages page
  denotes : ∀ page, (s.src.tbl.get page).map (·.resolve s.pages) =
    (c.mapper.tbl.get page).map (·.resolve c.pages)
  latest : s.latest = s.src.tbl.get
  src : { s.src with tbl := c.mapper.tbl } = c.mapper
  dst : s.dst =
    { c.mapper with tbl := ⟨false, .empty, s.dst.tbl.base, c.mapper.tbl.logicalSize⟩ }
  chunks : s.dst.tbl.base.length = ChunkedTbl.requiredChunks c.mapper.tbl.logicalSize
  copied : ∀ page < c.mapper.tbl.logicalSize, page / slotsPerChunk < i →
    s.src.tbl.changes.get? page = none →
    load s.dst.tbl.base page = load c.mapper.tbl.base page ∨
      load s.dst.tbl.base page = (c.mapper.tbl.get page).map fun w ↦ .value (w.resolve c.pages)

namespace Copying

theorem of_start : Copying c (start c newChunk) 0 := by
  have hget : (start c newChunk).src.tbl.get = c.mapper.tbl.get :=
    get_startCopying c.atRest c.noChanges
  have hdst : (start c newChunk).dst.tbl = ⟨false, .empty, _, c.mapper.tbl.logicalSize⟩ :=
    resizeInternal_empty newChunk _
  refine ⟨rfl, rfl, rfl, fun page w h ↦ ?_, ?_, ?_, hget.symm, rfl, ?_, ?_, ?_⟩
  · simp [start, startCopying, c.noChanges] at h
  · rw [hget]
    exact c.words
  · rw [hget]
    exact fun _ ↦ rfl
  · rw [hdst]
    exact congrArg (fun t ↦ { c.mapper with tbl := t }) hdst
  · rw [hdst, length_map, length_range]
  · exact fun _ _ h ↦ absurd h (Nat.not_lt_zero _)

variable (h : Copying c s i)

include h

theorem lt_size {page : ℕ} {w : TblWord} (hw : s.src.tbl.get page = some w) :
    page < c.mapper.tbl.logicalSize := by
  rw [get_copying h.copying, or_eq_some_iff] at hw
  obtain hlog | ⟨-, hw⟩ := hw
  · exact h.logged page w hlog
  · rw [← h.size]
    exact (ite_none_right_eq_some.1 hw).1

/-- **The cached pages change** without harm to the words of the source. -/
theorem repage {pages : ℕ → PageFrame}
    (hwords : ∀ page w, s.src.tbl.get page = some w → w.Ok pages page ∧
      w.resolve pages = w.resolve s.pages) :
    Copying c { s with pages := pages } i := by
  refine ⟨h.copying, h.base, h.size, h.logged, fun page w hw ↦ (hwords page w hw).1,
    fun page ↦ ?_, h.latest, h.src, h.dst, h.chunks, h.copied⟩
  rw [← h.denotes page]
  cases hw : s.src.tbl.get page with
  | none => rfl
  | some w => exact congrArg some (hwords page w hw).2

/-- **A word of the source is set** to one that stands for the same. -/
theorem set {page : ℕ} {w w' : TblWord} (hw : s.src.tbl.get page = some w)
    (hok : w'.Ok s.pages page) (hres : w'.resolve s.pages = w.resolve s.pages) :
    Copying c (s.perform (some (page, w'))) i := by
  have hlt : page < s.src.tbl.logicalSize := h.size ▸ h.lt_size hw
  have hset := set_copying h.copying hlt w'
  have hget := get_set_copying h.copying hlt w'
  have hlog : ∀ q, (s.src.tbl.set page w').changes.get? q =
      if q = page then some w' else s.src.tbl.changes.get? q := by
    rw [hset]
    exact AssocMap.get?_set _ page w'
  rw [perform]
  refine ⟨?_, ?_, ?_, fun q v hv ↦ ?_, fun q v hv ↦ ?_, fun q ↦ ?_, funext fun q ↦ ?_, h.src,
    h.dst, h.chunks, fun q hq hi hnone ↦ ?_⟩
  · rw [hset]
    exact h.copying
  · rw [hset]
    exact h.base
  · rw [hset]
    exact h.size
  · rw [hlog] at hv
    split at hv
    · next hq => exact hq ▸ h.lt_size hw
    · exact h.logged q v hv
  · rw [hget] at hv
    split at hv
    · next hq =>
      cases hv
      exact hq ▸ hok
    · exact h.words q v hv
  · rw [hget, ← h.denotes q]
    split
    · next hq => rw [hq, hw, map_some, hres, map_some]
    · rfl
  · rw [hget, h.latest]
    exact Function.update_apply ..
  · rw [hlog] at hnone
    split at hnone
    · cases hnone
    · exact h.copied q hq hi hnone

/-- A word that is not the pointer to `a` does not notice what `a` is used for. -/
theorem reuse {a : ℕ} (ha : ∀ page, s.src.tbl.get page ≠ some (.swizzlingPointer a))
    (frame : PageFrame) :
    Copying c { s with pages := Function.update s.pages a frame } i :=
  h.repage fun page w hw ↦
    have hne : w ≠ .swizzlingPointer a := fun heq ↦ ha page (heq ▸ hw)
    ⟨w.ok_update hne frame (h.words page w hw), w.resolve_update hne frame⟩

theorem notPointed {a : ℕ} (ha : s.src.tbl.NotPointed a) (page : ℕ) :
    s.src.tbl.get page ≠ some (.swizzlingPointer a) :=
  fun hw ↦ ha page (h.size ▸ h.lt_size hw) hw

theorem load {page a fp : ℕ} (hw : s.src.tbl.get page = some (.value (.filePageId fp)))
    (ha : s.src.tbl.NotPointed a) :
    Copying c (perform { s with pages := Function.update s.pages a ⟨some page, some fp, true⟩ }
      (s.src.tbl.addSwizzling page a)) i := by
  have hlt : fp < 2 ^ 61 := h.words page _ hw
  rw [addSwizzling, hw]
  refine (h.reuse (h.notPointed ha) ⟨some page, some fp, true⟩).set hw ⟨?_, fp, hlt, ?_⟩ ?_
  · simp
  · simp
  · simp [TblWord.resolve]

theorem loaded {page a : ℕ} (hw : s.src.tbl.get page = some (.swizzlingPointer a)) :
    Copying c (perform
      { s with pages := Function.update s.pages a { s.pages a with detached := false } }
      (s.src.tbl.addSwizzling page a)) i := by
  rw [addSwizzling, hw]
  refine h.repage fun q w hq ↦ ?_
  have hok := h.words q w hq
  by_cases hwa : w = .swizzlingPointer a
  · -- neither the ids nor what is read from them has changed
    subst hwa
    simpa only [TblWord.Ok, TblWord.resolve, Function.update_self, and_true] using hok
  · exact ⟨w.ok_update hwa _ hok, w.resolve_update hwa _⟩

/-- **After unswizzling, no word points to the cached page.** -/
theorem unswizzle (a : ℕ) :
    Copying c (s.perform (s.src.tbl.unswizzling s.pages a)) i ∧
      ∀ page, (s.perform (s.src.tbl.unswizzling s.pages a)).src.tbl.get page ≠
        some (.swizzlingPointer a) := by
  by_cases hptr : ∃ page, s.src.tbl.get page = some (.swizzlingPointer a)
  · obtain ⟨page, hw⟩ := hptr
    have hok := h.words page _ hw
    have hlt : page < s.src.tbl.logicalSize := h.size ▸ h.lt_size hw
    have hun : s.src.tbl.unswizzling s.pages a =
        some (page, .value (encodeFilePageId (s.pages a).filePageId)) := by
      rw [unswizzling, hok.1, bind_some, if_pos ⟨hlt, hw⟩]
    rw [hun]
    refine ⟨h.set hw ?_ hok.resolve_pointer, fun q hq ↦ ?_⟩
    · obtain ⟨-, fp, hfp, heq⟩ := hok
      rw [heq, encodeFilePageId_of_lt hfp]
      exact hfp
    · change (s.src.tbl.set page _).get q = _ at hq
      rw [get_set_copying h.copying hlt] at hq
      split at hq
      · cases hq
      · next hne =>
        -- the cached page is of one logical page only
        have hq' := (h.words q _ hq).1
        rw [hok.1, some.injEq] at hq'
        exact hne hq'.symm
  · have hnone : ∀ page, s.src.tbl.get page ≠ some (.swizzlingPointer a) :=
      fun page hw ↦ hptr ⟨page, hw⟩
    have hun : s.src.tbl.unswizzling s.pages a = none := by
      rw [unswizzling, bind_eq_none_iff]
      exact fun page _ ↦ if_neg fun hw ↦ hnone page hw.2
    rw [hun]
    exact ⟨h, hnone⟩

theorem copyChunk (hlen : i < s.dst.tbl.base.length)
    (hi : i * slotsPerChunk < s.src.tbl.logicalSize) :
    ∃ t, s.dst.tbl.copyChunk s.pages s.src.tbl i = some t ∧
      Copying c { s with dst := { s.dst with tbl := t }, next? := some (i + 1) } (i + 1) := by
  have hchunk : i < s.src.tbl.base.length := by
    have hcov : s.src.tbl.Covers := by
      rw [Covers, h.size, h.base]
      exact c.covers
    have := hcov.lt hi
    rwa [Nat.mul_div_cancel _ (by decide)] at this
  rw [ChunkedTbl.copyChunk, getElem?_eq_getElem hchunk]
  refine ⟨_, rfl, h.copying, h.base, h.size, h.logged, h.words, h.denotes, h.latest, h.src, ?_, ?_,
    fun page hp hpi hnone ↦ ?_⟩
  · conv_lhs => rw [h.dst]
  · rw [length_modify]
    exact h.chunks
  · rw [load_modify]
    split
    · next hdiv =>
      -- the page is in the chunk just copied, and its word there is the one the source reads
      have hw : s.src.tbl.get page = some (s.src.tbl.base[i] (chunkOffset page)) := by
        rw [get_copying h.copying, hnone, none_or, if_pos (h.size ▸ hp),
          ChunkedTbl.load, ← hdiv, getElem?_eq_getElem hchunk, map_some]
      have hplace : i * slotsPerChunk + (chunkOffset page).val = page := by
        rw [hdiv, Nat.mul_comm]
        exact Nat.div_add_mod ..
      rw [getElem?_eq_getElem hlen, map_some, if_pos (by rw [hplace, h.size]; exact hp)]
      have hshare := (h.words page _ hw).share_eq
      have hden := h.denotes page
      rw [hw, map_some] at hden
      have hbase : EloqStore.ChunkedTbl.load c.mapper.tbl.base page =
          some (s.src.tbl.base[i] (chunkOffset page)) := by
        rw [← h.base, ChunkedTbl.load, ← hdiv, getElem?_eq_getElem hchunk, map_some]
      obtain hkeep | hres := hshare
      · exact .inl (by rw [hkeep, hbase])
      · refine .inr ?_
        rw [hres]
        obtain ⟨w, hcw, hcr⟩ := map_eq_some_iff.1 hden.symm
        rw [hcw, map_some, hcr]
    · next hdiv => exact h.copied page hp (by omega) hnone

/-- When no chunk is left, every page lies in a copied chunk. -/
theorem div_lt_of_done
    (hdone : ¬(i < s.dst.tbl.base.length ∧ i * slotsPerChunk < s.src.tbl.logicalSize)) {page : ℕ}
    (hp : page < c.mapper.tbl.logicalSize) :
    page / slotsPerChunk < i := by
  rw [Nat.div_lt_iff_lt_mul (by decide)]
  have hreq := le_requiredChunks c.mapper.tbl.logicalSize
  rw [← h.chunks] at hreq
  by_cases hlen : i < s.dst.tbl.base.length
  · have hsize : ¬i * slotsPerChunk < s.src.tbl.logicalSize := fun hi ↦ hdone ⟨hlen, hi⟩
    rw [h.size] at hsize
    omega
  · have := Nat.mul_le_mul_right slotsPerChunk (not_lt.1 hlen)
    omega

end Copying

/-- A mapper is, as a page mapper, what the source was at the start. -/
def Agrees (c : CopySource) (pages : ℕ → PageFrame) (m : SwizzledMapper) : Prop :=
  m.toPageMapper pages = c.mapper.toPageMapper c.pages

theorem agrees_of_get {pages : ℕ → PageFrame} {m : SwizzledMapper}
    (hm : { m with tbl := c.mapper.tbl } = c.mapper)
    (hsize : m.tbl.logicalSize = c.mapper.tbl.logicalSize)
    (hget : ∀ page < c.mapper.tbl.logicalSize, (m.tbl.get page).map (·.resolve pages) =
      (c.mapper.tbl.get page).map (·.resolve c.pages)) : Agrees c pages m := by
  rw [Agrees, SwizzledMapper.toPageMapper,
    resolve_congr hsize fun page hp ↦ hget page (hsize ▸ hp)]
  exact congrArg (SwizzledMapper.toPageMapper c.pages) hm

theorem Copying.finish (h : Copying c s i)
    (hdone : ¬(i < s.dst.tbl.base.length ∧ i * slotsPerChunk < s.src.tbl.logicalSize)) :
    ∃ t, s.finish = some t ∧ t.next? = none ∧ t.latest = t.src.tbl.get ∧
      Agrees c t.pages t.src ∧ Agrees c t.pages t.dst := by
  have hlog : s.src.tbl.Logged := fun page w hw ↦ h.size ▸ h.logged page w hw
  have hcov : s.src.tbl.Covers := by
    rw [Covers, h.size, h.base]
    exact c.covers
  have hdst : s.dst.tbl = ⟨false, .empty, s.dst.tbl.base, c.mapper.tbl.logicalSize⟩ :=
    congrArg SwizzledMapper.tbl h.dst
  have hrest : s.dst.tbl.underCopying = false := by rw [hdst]
  have hsize : s.dst.tbl.logicalSize = c.mapper.tbl.logicalSize := by rw [hdst]
  have hcov' : s.dst.tbl.Covers := by
    rw [Covers, hsize, h.chunks]
    exact le_requiredChunks _
  obtain ⟨d, hd, hdsize, hdget⟩ :=
    applyPendingTo_spec hlog hrest (hsize.trans h.size.symm) hcov'
  have hget := get_finishCopying h.copying hlog hcov
  rw [MapperCopy.finish, hd]
  refine ⟨_, rfl, rfl, h.latest.trans hget.symm, ?_, ?_⟩
  · refine agrees_of_get h.src ((finishCopying_logicalSize hlog).trans h.size)
      fun page _ ↦ ?_
    rw [hget]
    exact h.denotes page
  · refine agrees_of_get ?_ (hdsize.trans hsize) fun page hp ↦ ?_
    · rw [h.dst]
    · rw [hdget page (hsize ▸ hp)]
      have hden := h.denotes page
      rw [get_copying h.copying, h.base, if_pos (h.size ▸ hp)] at hden
      cases hch : s.src.tbl.changes.get? page with
      | some w => rwa [hch] at hden
      | none =>
        -- without a change, the copy has the word of the source or what it stands for
        rw [hch, none_or] at hden
        rw [none_or]
        obtain hword | hres := h.copied page hp (h.div_lt_of_done hdone hp) hch
        · rw [hword]
          exact hden
        · rw [hres, Option.map_map]
          rfl

/-! ### Runs -/

/-- What holds of a copy under way, and of a finished one. -/
def Inv (c : CopySource) (s : MapperCopy) : Prop :=
  match s.next? with
  | some i => Copying c s i
  | none => s.latest = s.src.tbl.get ∧ Agrees c s.pages s.src ∧ Agrees c s.pages s.dst

theorem Inv.of_copying (h : Copying c s i) (hi : s.next? = some i) : Inv c s := by
  rw [Inv, hi]
  exact h

/-- **The copying task is never stuck**: it copies one more chunk, or it is done. -/
theorem Copying.resume (h : Copying c s i) (hi : s.next? = some i) :
    ∃ t, CopyEvent.step s .resume = some t ∧ Inv c t ∧
      (t.next? = none ∨ i < s.dst.tbl.base.length ∧ t.next? = some (i + 1)) := by
  rw [CopyEvent.step, hi, bind_some, CopyEvent.stepAt]
  split
  · next hmore =>
    obtain ⟨t, ht, hcopy⟩ := h.copyChunk hmore.1 hmore.2
    rw [ht]
    exact ⟨_, rfl, .of_copying hcopy rfl, .inr ⟨hmore.1, rfl⟩⟩
  · next hdone =>
    obtain ⟨t, ht, hnone, hfin⟩ := h.finish hdone
    refine ⟨t, ht, ?_, .inl hnone⟩
    rw [Inv, hnone]
    exact hfin

@[simp] theorem perform_next? (s : MapperCopy) (x : Option (ℕ × TblWord)) :
    (s.perform x).next? = s.next? := by
  cases x <;> rfl

theorem perform_pages (s : MapperCopy) (x : Option (ℕ × TblWord)) :
    (s.perform x).pages = s.pages := by
  cases x <;> rfl

theorem perform_with_pages (s : MapperCopy) (x : Option (ℕ × TblWord)) :
    { s.perform x with pages := s.pages } = s.perform x := by
  cases x <;> rfl

/-- The events of the others keep the invariant of the copying. -/
theorem Copying.event (h : Copying c s i) (hi : s.next? = some i) {e : CopyEvent}
    (hstep : CopyEvent.step s e = some s') : Inv c s' := by
  have hat : e.stepAt s i = some s' := by rwa [CopyEvent.step, hi, bind_some] at hstep
  cases e with
  | resume =>
    obtain ⟨t, ht, hinv, -⟩ := h.resume hi
    cases ht.symm.trans hstep
    exact hinv
  | load page a =>
    rw [CopyEvent.stepAt] at hat
    split at hat
    · next fp hw =>
      obtain ⟨ha, hs'⟩ := ite_none_right_eq_some.1 hat
      cases hs'
      exact .of_copying (h.load hw ha) (by rw [perform_next?, hi])
    · cases hat
  | loaded a =>
    rw [CopyEvent.stepAt] at hat
    obtain ⟨page, -, hat⟩ := bind_eq_some_iff.1 hat
    obtain ⟨hw, hs'⟩ := ite_none_right_eq_some.1 hat
    cases hs'
    exact .of_copying (h.loaded hw) (by rw [perform_next?, hi])
  | unswizzle a evicted =>
    rw [CopyEvent.stepAt] at hat
    cases hat
    obtain ⟨hun, hnot⟩ := h.unswizzle a
    refine .of_copying (i := i) ?_ (by simp [hi])
    cases evicted with
    | false => exact perform_with_pages s _ ▸ hun
    | true =>
      have hevicted := hun.reuse hnot ⟨none, none, false⟩
      rwa [perform_pages] at hevicted
  | reuse a frame =>
    rw [CopyEvent.stepAt] at hat
    obtain ⟨ha, hs'⟩ := ite_none_right_eq_some.1 hat
    cases hs'
    exact .of_copying (h.reuse (h.notPointed ha) frame) hi

theorem inv_of_runs (hrun : CopyRuns c newChunk s) : Inv c s := by
  refine hrun.invariant (Inv c) (.of_copying .of_start rfl) fun {s e t} hinv _ hstep ↦ ?_
  cases hi : s.next? with
  | some i =>
    rw [Inv, hi] at hinv
    exact hinv.event hi hstep
  | none => simp [CopyEvent.step, hi] at hstep

/-- **A page mapper is copied whatever others do to it meanwhile.** At every moment a read of the
source gives the word that was set last. The copying task is never stuck, and one chunk further on
after each yield. When it is finished, the source and the copy have one size and are both, their
pointers resolved, the page mapper that the source was before the copying: they denote the same file
pages, their free lists are the same, and so are their counters and their allocators. -/
theorem copy_eq_source (c : CopySource) (newChunk : ℕ → Chunk) (s : MapperCopy)
    (hrun : CopyRuns c newChunk s) :
    s.src.tbl.get = s.latest ∧
      (∀ i, s.next? = some i → ∃ t, CopyEvent.step s .resume = some t ∧
        (t.next? = none ∨ i < s.dst.tbl.base.length ∧ t.next? = some (i + 1))) ∧
      (s.next? = none →
        s.dst.tbl.logicalSize = s.src.tbl.logicalSize ∧
        s.src.toPageMapper s.pages = c.mapper.toPageMapper c.pages ∧
        s.dst.toPageMapper s.pages = c.mapper.toPageMapper c.pages) := by
  have hinv := inv_of_runs hrun
  cases hi : s.next? with
  | some i =>
    rw [Inv, hi] at hinv
    refine ⟨hinv.latest.symm, fun j hj ↦ ?_, by simp⟩
    cases hj
    obtain ⟨t, ht, -, hnext⟩ := hinv.resume hi
    exact ⟨t, ht, hnext⟩
  | none =>
    rw [Inv, hi] at hinv
    obtain ⟨hlatest, hsrc, hdst⟩ := hinv
    refine ⟨hlatest.symm, by simp, fun _ ↦ ⟨?_, hsrc, hdst⟩⟩
    have hlen := congrArg (fun m ↦ m.tbl.length) (hdst.trans hsrc.symm)
    simpa only [SwizzledMapper.toPageMapper, length_resolve] using hlen

/-- A mapper of three pages: the first in the cache, the second on disk, the third free. -/
def threePages : CopySource where
  pages := fun _ ↦ ⟨some 0, some 7, false⟩
  mapper :=
    { tbl := ⟨false, .empty,
        [fun j ↦ if j.val = 0 then .swizzlingPointer 0
          else if j.val = 1 then .value (.filePageId 9) else .value .invalid], 3⟩
      freePageHead := some 2
      freePageCnt := 1
      allocator := ⟨0, 10, .pooled [8]⟩ }
  atRest := rfl
  noChanges := rfl
  covers := by decide
  words page w h := by
    obtain ⟨hp, hw⟩ := Option.ite_none_right_eq_some.1 h
    have hp : page < 3 := hp
    match page, hp with
    | 0, _ =>
      cases hw
      exact ⟨rfl, 7, by decide, rfl⟩
    | 1, _ =>
      cases hw
      exact (by decide : 9 < 2 ^ 61)
    | 2, _ =>
      cases hw
      trivial

/-- The second page is loaded and the first one evicted, before their chunk is copied. -/
theorem copy_eq_source_threePages : ∃ s, CopyRuns threePages (fun _ ↦ ChunkedTbl.invalidChunk) s ∧
    s.next? = none ∧ s.dst.tbl.get 0 = some (.value (.filePageId 7)) ∧
    s.dst.tbl.get 1 = some (.swizzlingPointer 1) ∧
    s.dst.toPageMapper s.pages = threePages.mapper.toPageMapper threePages.pages := by
  obtain ⟨s, hrun, hnone, h0, h1⟩ : ∃ s, CopyRuns threePages (fun _ ↦ invalidChunk) s ∧
      s.next? = none ∧ s.dst.tbl.get 0 = some (.value (.filePageId 7)) ∧
      s.dst.tbl.get 1 = some (.swizzlingPointer 1) :=
    Transition.exists_reach_of_exec
      [.load 1 1, .unswizzle 0 true, .resume, .loaded 1, .resume] (by decide +kernel)
  exact ⟨s, hrun, hnone, h0, h1, ((copy_eq_source _ _ s hrun).2.2 hnone).2.2⟩

end MapperCopy

end EloqStore
