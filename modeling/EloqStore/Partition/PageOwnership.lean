import EloqStore.Foundation.Transition
import EloqStore.Types

/-!
# Who frees a cached page whose write fails

A cached page that a task writes is pinned twice: by the code that built it and by the request that
writes it. When the request completes it puts the page on the active list, or, if it failed, on the
free list, and for that it has to hold the last pin. This file follows every cached page a task
allocates or moves through that hand-over, for completions that arrive at any later step.

Four pieces of code write cached pages. They differ in who holds a handle while the request is under
way, and in what they do when the write is refused at once.

* An **index page** of a batch write (`FinishIndexPage`, `FlushIndexPage`): the builder keeps its
  handle until the write call has returned, and as the new root for longer. A refused page is
  dropped.
* An index page of a **truncate** (`TruncateIndexPage`): as above, but when the write call returns
  an error the page is freed, whatever the error came from.
* A data page **promoted** to the cache: its only handle goes with the request. A refused page is
  dropped.
* A page **moved** by compaction: it is on the active list and stays there.

So a failed completion finds the page unpinned only if the builder has let go of it
(`OwnerEvent.Clean`), and only then is every page put back exactly once (`settled_of_clean`).
-/

namespace EloqStore

open Function List Option Transition

/-- The code that writes a cached page. -/
inductive PageWriter
  /-- The index pages of a batch write. -/
  | index
  | truncate
  /-- Data pages that are cached as they are written. -/
  | promoted
  /-- Cached pages that compaction moves. -/
  | moved
deriving DecidableEq, Repr

/-- How far the write of a page has come. -/
inductive WriteStage
  /-- The page has been built and not been handed over. -/
  | built
  | submitted
  | completed (ok : Bool)
deriving DecidableEq, Repr

/-- A cached page in the hands of the task. -/
structure OwnedPage where
  writer : PageWriter
  held : Bool := true
  stage : WriteStage := .built
deriving DecidableEq, Repr

namespace OwnedPage

variable (o : OwnedPage)

/-- The pins of the task and its request. -/
def pins : ℕ := (if o.held then 1 else 0) + if o.stage = .submitted then 1 else 0

def isDetached : Bool := decide (o.writer ≠ .moved ∧ o.stage ≠ .completed true)

def isWritten : Bool := decide (o.stage = .completed true)

end OwnedPage

/-- What had come of a page when the task let go of it. -/
structure SettledPage where
  page : ℕ
  writer : PageWriter
  written : Bool
  /-- How often it was on the active list. -/
  active : ℕ
  free : ℕ
deriving DecidableEq, Repr

/-- **The cached pages of a shard**, as one write task and everyone else see them. Pages are
numbered in the order they were created. -/
structure PageLists where
  pages : ℕ := 0
  free : List ℕ := []
  active : List ℕ := []
  refCnt : ℕ → ℕ := fun _ ↦ 0
  owned : ℕ → Option OwnedPage := fun _ ↦ none
  /-- The pages other tasks have taken off the lists. -/
  others : List ℕ := []
  /-- The pins of other tasks on active pages. -/
  readers : List ℕ := []
  writeErr : Bool := false
  /-- A `CHECK` has failed. -/
  crashed : Bool := false
  /-- What has come of the pages the task has let go of. -/
  settled : List SettledPage := []

namespace PageLists

variable (s : PageLists)

/-- Take a page from the free list, or create one while there is room. -/
def allocPage (limit : ℕ) : Option (ℕ × PageLists) :=
  match s.free with
  | a :: rest => some (a, { s with free := rest })
  | [] => if s.pages < limit then some (s.pages, { s with pages := s.pages + 1 }) else none

def isDetached (a : ℕ) : Bool := decide (a ∉ s.free ∧ a ∉ s.active)

def freePage (a : ℕ) : PageLists := { s with free := a :: s.free }

/-- Put a page in front of the active list. -/
def enqueuePage (a : ℕ) : PageLists := { s with active := a :: s.active.erase a }

def unpin (a : ℕ) : PageLists := { s with refCnt := Function.update s.refCnt a (s.refCnt a - 1) }

def pin (a : ℕ) : PageLists := { s with refCnt := Function.update s.refCnt a (s.refCnt a + 1) }

/-- What the task has to do with a page changes. Without a pin of its own it has let go of it. -/
def setOwned (a : ℕ) (o : OwnedPage) : PageLists :=
  if o.pins = 0 then
    { s with
      owned := Function.update s.owned a none
      settled := ⟨a, o.writer, o.isWritten, s.active.count a, s.free.count a⟩ :: s.settled }
  else { s with owned := Function.update s.owned a (some o) }

def check (c : Bool) (next : PageLists) : PageLists :=
  if c then next else { s with crashed := true }

/-- **`WritePageCallback`** for a cached page. -/
def writePageCallback (a : ℕ) (o : OwnedPage) (failed : Bool) : PageLists :=
  if failed then
    let s' := { s with writeErr := true }
    if s'.isDetached a then
      let s'' := s'.unpin a
      s''.check (s''.refCnt a = 0)
        ((s''.freePage a).setOwned a { o with stage := .completed false })
    else (s'.unpin a).setOwned a { o with stage := .completed false }
  else ((s.enqueuePage a).unpin a).setOwned a { o with stage := .completed true }

/-- The error path of `TruncateIndexPage`. -/
def truncateFails (a : ℕ) (o : OwnedPage) : PageLists :=
  let s' := s.unpin a
  s'.check (s'.isDetached a && s'.refCnt a = 0)
    ((s'.freePage a).setOwned a { o with held := false })

/-- The write call returns an error, and no request has been made. -/
def writeRefused (a : ℕ) (o : OwnedPage) : PageLists :=
  match o.writer with
  | .truncate => s.truncateFails a o
  | .index | .promoted | .moved => (s.unpin a).setOwned a { o with held := false }

/-- A request is made. The only handle of a promoted page goes with it. -/
def submitWrite (a : ℕ) (o : OwnedPage) : PageLists :=
  match o.writer with
  | .promoted => s.setOwned a { o with held := false, stage := .submitted }
  | .index | .truncate | .moved => (s.pin a).setOwned a { o with stage := .submitted }

end PageLists

/-- What can happen to the cached pages of a shard while a write task runs. -/
inductive OwnerEvent
  | alloc (w : PageWriter)
  /-- Compaction finds a page in the cache. -/
  | find (a : ℕ)
  /-- The write of a page is handed over. -/
  | submit (a : ℕ)
  | reject (a : ℕ)
  | complete (a : ℕ) (failed : Bool)
  | wait
  /-- The task waits for its writes inside the write call of a truncate, and one had failed. -/
  | waitFails (a : ℕ)
  | drop (a : ℕ)
  /-- Another task pins an active page. -/
  | pin (a : ℕ)
  | unpin (a : ℕ)
  | evict (a : ℕ)
  | take
  /-- Another task puts its page on a list. -/
  | give (a : ℕ) (loaded : Bool)
deriving DecidableEq, Repr

/-- No request of the task is under way. -/
def PageLists.isIdle (s : PageLists) : Bool :=
  (List.range s.pages).all fun a ↦ (s.owned a).all (·.stage ≠ .submitted)

/-- One event of a process that runs. -/
def OwnerEvent.act (limit : ℕ) (s : PageLists) : OwnerEvent → Option PageLists
  | .alloc w =>
    if w = .moved then none
    else (s.allocPage limit).map fun x ↦ (x.2.pin x.1).setOwned x.1 ⟨w, true, .built⟩
  | .find a =>
    if a ∈ s.active ∧ s.owned a = none then some ((s.pin a).setOwned a ⟨.moved, true, .built⟩)
    else none
  | .submit a => (s.owned a).bind fun o ↦
      if o.stage = .built then some (s.submitWrite a o) else none
  | .reject a => (s.owned a).bind fun o ↦
      if o.stage = .built then some (s.writeRefused a o) else none
  | .complete a failed =>
    (s.owned a).bind fun o ↦
      if o.stage = .submitted then some (s.writePageCallback a o failed) else none
  | .wait => if s.isIdle then some { s with writeErr := false } else none
  | .waitFails a =>
    (s.owned a).bind fun o ↦
      if o.writer = .truncate ∧ o.held = true ∧ o.stage ≠ .built ∧ s.isIdle ∧ s.writeErr then
        some ({ s with writeErr := false }.truncateFails a o)
      else none
  | .drop a =>
    -- a page that has been built is handed over first
    (s.owned a).bind fun o ↦
      if o.held = true ∧ o.stage ≠ .built then
        some ((s.unpin a).setOwned a { o with held := false })
      else none
  | .pin a => if a ∈ s.active then some { s.pin a with readers := a :: s.readers } else none
  | .unpin a =>
    if a ∈ s.readers then some { s.unpin a with readers := s.readers.erase a } else none
  | .evict a =>
    if a ∈ s.active ∧ s.refCnt a = 0 then
      some ({ s with active := s.active.erase a }.freePage a)
    else none
  | .take => (s.allocPage limit).map fun x ↦ { x.2 with others := x.1 :: s.others }
  | .give a loaded =>
    if a ∈ s.others then
      let s' := { s with others := s.others.erase a }
      some (if loaded then s'.enqueuePage a else s'.freePage a)
    else none

/-- One event. Nothing happens after a failed `CHECK`. -/
def OwnerEvent.run (limit : ℕ) (s : PageLists) (e : OwnerEvent) : Option PageLists :=
  if s.crashed then none else e.act limit s

/-- The runs of a shard's cached pages. -/
abbrev OwnerRuns (limit : ℕ) (G : PageLists → OwnerEvent → Prop) : PageLists → PageLists → Prop :=
  Transition.Reach (fun s e s' ↦ OwnerEvent.run limit s e = some s') G

/-- **The condition.** A write is refused at once only for a page of a truncate or of compaction; a
write fails only when the code that built its page has let go of it; and no write call of a truncate
returns the error of another page. -/
def OwnerEvent.Clean (s : PageLists) : OwnerEvent → Prop
  | .reject a => ∀ o ∈ s.owned a, o.writer = .truncate ∨ o.writer = .moved
  | .complete a true => ∀ o ∈ s.owned a, o.held = false ∨ o.writer = .moved
  | .waitFails _ => False
  | _ => True

instance (s : PageLists) (e : OwnerEvent) : Decidable (e.Clean s) := by
  unfold OwnerEvent.Clean
  split <;> infer_instance

/-! ### One page at a time -/

/-- What there is to one page. -/
structure PageView where
  created : Bool
  free : ℕ
  active : ℕ
  others : ℕ
  readers : ℕ
  refCnt : ℕ
  owned : Option OwnedPage

def PageLists.view (s : PageLists) (a : ℕ) : PageView :=
  ⟨a.blt s.pages, s.free.count a, s.active.count a, s.others.count a, s.readers.count a,
    s.refCnt a, s.owned a⟩

namespace PageView

/-- The task has the page, and it is on no list. -/
def loose (v : PageView) : ℕ := if v.owned.any (·.isDetached) then 1 else 0

def ownPins (v : PageView) : ℕ := (v.owned.map (·.pins)).getD 0

/-- **A page is in order**: it is in exactly one place and its pins are accounted for. -/
structure Ok (v : PageView) : Prop where
  /-- A page is on a list once, or in somebody's hands. -/
  once : v.free + v.active + v.others + v.loose = if v.created then 1 else 0
  /-- Every pin is the task's or another task's. -/
  pins : v.refCnt = v.ownPins + v.readers
  shared : 0 < v.readers → v.active = 1
  /-- The task has pins on the pages in its hands, and those that are on a list are active. -/
  own : ∀ o ∈ v.owned, 0 < o.pins ∧ (o.isDetached = false → v.active = 1)
  stage : ∀ o ∈ v.owned, (o.stage = .built → o.held = true) ∧
    (o.stage = .completed false → o.writer = .moved)

end PageView

/-- What came of a page the task allocated: it is active if its write succeeded, and free if not. -/
def SettledPage.Ok (x : SettledPage) : Prop :=
  x.writer ≠ .moved → x.active = (if x.written then 1 else 0) ∧ x.free = if x.written then 0 else 1

/-- **Every page is in order**, and so was every page the task has let go of. -/
structure PageLists.Ok (s : PageLists) : Prop where
  page : ∀ a, (s.view a).Ok
  /-- So was every page the task has let go of. -/
  settled : ∀ x ∈ s.settled, x.Ok
  /-- No `CHECK` has failed. -/
  running : s.crashed = false

open PageView

theorem PageLists.ok_empty : ({} : PageLists).Ok where
  page a :=
    { once := by simp [view, loose]
      pins := by simp [view, ownPins]
      shared := by simp [view]
      own := by simp [view]
      stage := by simp [view] }
  settled _ h := absurd h (by simp)
  running := rfl

namespace PageLists

variable (s : PageLists) (a b : ℕ) (o : OwnedPage)

@[simp] theorem view_freePage : (s.freePage a).view b =
    if b = a then { s.view b with free := (s.view b).free + 1 } else s.view b := by
  by_cases h : b = a
  · simp [view, freePage, h]
  · simp [view, freePage, h, count_cons_of_ne (Ne.symm h)]

@[simp] theorem view_enqueuePage : (s.enqueuePage a).view b =
    if b = a then { s.view b with active := (s.view b).active - 1 + 1 } else s.view b := by
  by_cases h : b = a
  · simp [view, enqueuePage, h]
  · simp [view, enqueuePage, h, count_cons_of_ne (Ne.symm h), count_erase_of_ne h]

@[simp] theorem view_unpin : (s.unpin a).view b =
    if b = a then { s.view b with refCnt := (s.view b).refCnt - 1 } else s.view b := by
  by_cases h : b = a <;> simp [view, unpin, h]

@[simp] theorem view_pin : (s.pin a).view b =
    if b = a then { s.view b with refCnt := (s.view b).refCnt + 1 } else s.view b := by
  by_cases h : b = a <;> simp [view, pin, h]

@[simp] theorem view_setOwned : (s.setOwned a o).view b =
    if b = a then { s.view b with owned := if o.pins = 0 then none else some o } else s.view b := by
  by_cases h : b = a <;> by_cases hp : o.pins = 0 <;> simp [view, setOwned, h, hp]

theorem view_active (l : List ℕ) : ({ s with active := l } : PageLists).view b =
    { s.view b with active := l.count b } := rfl

theorem view_others (l : List ℕ) : ({ s with others := l } : PageLists).view b =
    { s.view b with others := l.count b } := rfl

theorem settled_setOwned : (s.setOwned a o).settled = if o.pins = 0 then
    ⟨a, o.writer, o.isWritten, (s.view a).active, (s.view a).free⟩ :: s.settled else s.settled := by
  by_cases hp : o.pins = 0 <;> simp [setOwned, hp, view]

@[simp] theorem crashed_setOwned : (s.setOwned a o).crashed = s.crashed := by
  by_cases hp : o.pins = 0 <;> simp [setOwned, hp]

end PageLists

/-! ### What keeps the pages in order -/

namespace PageView.Ok

variable {v : PageView}

theorem once_eq (h : v.Ok) (hpos : 0 < v.free + v.active + v.others + v.loose) :
    v.created = true ∧ v.free + v.active + v.others + v.loose = 1 := by
  have honce := h.once
  split at honce
  · next hcreated => exact ⟨hcreated, honce⟩
  · omega

/-- A page that is not active is not pinned, unless the task has it. -/
theorem unpinned (h : v.Ok) (hactive : v.active = 0) (hloose : v.loose = 0) :
    v.owned = none ∧ v.readers = 0 ∧ v.refCnt = 0 := by
  have howned : v.owned = none := by
    by_contra hne
    obtain ⟨o, ho⟩ := ne_none_iff_exists'.1 hne
    have hdet : o.isDetached = false := by simpa [loose, ho] using hloose
    have := (h.own o ho).2 hdet
    omega
  have hreaders : v.readers = 0 := by
    by_contra hne
    have := h.shared (Nat.pos_of_ne_zero hne)
    omega
  refine ⟨howned, hreaders, ?_⟩
  rw [h.pins, hreaders]
  simp [ownPins, howned]

/-- A page that is neither active nor in anybody's hands. -/
theorem unused (h : v.Ok) (hactive : v.active = 0) (hothers : v.others = 0) (hloose : v.loose = 0) :
    v = ⟨v.created, v.free, 0, 0, 0, 0, none⟩ := by
  obtain ⟨howned, hreaders, hpins⟩ := h.unpinned hactive hloose
  obtain ⟨created, free, active, others, readers, refCnt, owned⟩ := v
  simp_all

end PageView.Ok

namespace PageLists

variable {s s' : PageLists} {a : ℕ} {o : OwnedPage} {limit : ℕ}

/-- **An event concerns one page.** -/
theorem Ok.of_view (h : s.Ok) (a : ℕ) (hother : ∀ b, b ≠ a → s'.view b = s.view b)
    (hself : (s'.view a).Ok) (hsettled : ∀ x ∈ s'.settled, x ∈ s.settled ∨ x.Ok)
    (hrun : s'.crashed = false) : s'.Ok where
  page b := by
    by_cases hb : b = a
    · rw [hb]
      exact hself
    · rw [hother b hb]
      exact h.page b
  settled x hx := (hsettled x hx).elim (h.settled x) id
  running := hrun

/-- **An allocated page** was on the free list only, or did not exist. -/
theorem Ok.allocPage (h : s.Ok) (hx : s.allocPage limit = some (a, s')) :
    (∀ b, b ≠ a → s'.view b = s.view b) ∧ s'.view a = ⟨true, 0, 0, 0, 0, 0, none⟩ ∧
      s'.settled = s.settled ∧ s'.crashed = s.crashed ∧ s'.others = s.others := by
  have hv := h.page a
  have honce := hv.once
  unfold PageLists.allocPage at hx
  split at hx
  · next b rest hfree =>
    obtain ⟨rfl, rfl⟩ := Prod.mk.inj (some.inj hx)
    have hcount : (s.view b).free = rest.count b + 1 := by simp [view, hfree]
    obtain ⟨hcreated, honce⟩ := hv.once_eq (by omega)
    have hunused := hv.unused (by omega) (by omega) (by omega)
    have hrest : rest.count b = 0 := by omega
    refine ⟨fun c hc ↦ ?_, ?_, rfl, rfl, rfl⟩
    · simp [view, hfree, count_cons_of_ne (Ne.symm hc)]
    · show { s.view b with free := rest.count b } = _
      rw [hunused, hrest, hcreated]
  · obtain ⟨-, hx⟩ := ite_none_right_eq_some.1 hx
    obtain ⟨rfl, rfl⟩ := Prod.mk.inj (some.inj hx)
    have hcreated : (s.view s.pages).created = false := by
      show s.pages.blt s.pages = false
      rw [Bool.eq_false_iff, ne_eq, Nat.blt_eq]
      exact lt_irrefl _
    rw [hcreated, if_neg (by simp)] at honce
    have hunused := hv.unused (by omega) (by omega) (by omega)
    refine ⟨fun c hc ↦ ?_, ?_, rfl, rfl, rfl⟩
    · have hblt : c.blt (s.pages + 1) = c.blt s.pages := by
        rw [Bool.eq_iff_iff, Nat.blt_eq, Nat.blt_eq]
        omega
      show { s.view c with created := c.blt (s.pages + 1) } = s.view c
      rw [hblt]
      rfl
    · have hblt : s.pages.blt (s.pages + 1) = true := by
        rw [Nat.blt_eq]
        exact Nat.lt_succ_self _
      have hfree : (s.view s.pages).free = 0 := by omega
      show { s.view s.pages with created := s.pages.blt (s.pages + 1) } = _
      rw [hblt, hunused, hfree]

/-- What is known of a page in the hands of the task. -/
theorem Ok.of_owned (h : s.Ok) (ho : s.owned a = some o) :
    (s.view a).created = true ∧
      (s.view a).free + (s.view a).active + (s.view a).others +
        (if o.isDetached then 1 else 0) = 1 ∧
      (s.view a).refCnt = o.pins + (s.view a).readers ∧ 0 < o.pins ∧
      (o.isDetached = false → (s.view a).active = 1) ∧
      (o.isDetached = true → (s.view a).readers = 0) := by
  have hv := h.page a
  have howned : (s.view a).owned = some o := ho
  obtain ⟨hpins, hactive⟩ := hv.own o howned
  have hloose : (s.view a).loose = if o.isDetached then 1 else 0 := by
    simp [loose, howned]
  have hpos : 0 < (s.view a).free + (s.view a).active + (s.view a).others + (s.view a).loose := by
    cases hdet : o.isDetached with
    | true => simp [hloose, hdet]
    | false =>
      have := hactive hdet
      omega
  obtain ⟨hcreated, honce⟩ := hv.once_eq hpos
  rw [hloose] at honce
  refine ⟨hcreated, honce, ?_, hpins, hactive, fun hdet ↦ ?_⟩
  · rw [hv.pins]
    simp [ownPins, howned]
  · by_contra hne
    have := hv.shared (Nat.pos_of_ne_zero hne)
    rw [if_pos hdet] at honce
    omega

/-- **What the task has to do with a page changes.** The page stays in one place, the pins go with
the handles, and what the task lets go of is where it belongs. -/
theorem Ok.setOwned {s₁ : PageLists} {o' : OwnedPage} (h : s.Ok) (free active refCnt : ℕ)
    (ho : s.owned a = some o) (hother : ∀ b, b ≠ a → s₁.view b = s.view b)
    (hself : s₁.view a = { s.view a with free := free, active := active, refCnt := refCnt })
    (hsettled : s₁.settled = s.settled) (hrun : s₁.crashed = s.crashed)
    (hplace : free + active + (if o'.pins ≠ 0 ∧ o'.isDetached then 1 else 0) =
      (s.view a).free + (s.view a).active + if o.isDetached then 1 else 0)
    (hpins : refCnt + o.pins = (s.view a).refCnt + o'.pins)
    (hactive : (s.view a).active ≤ active)
    (hlisted : o'.pins ≠ 0 → o'.isDetached = false → active = 1)
    (hstage : o'.pins ≠ 0 → (o'.stage = .built → o'.held = true) ∧
      (o'.stage = .completed false → o'.writer = .moved))
    (hdone : o'.pins = 0 → SettledPage.Ok ⟨a, o'.writer, o'.isWritten, active, free⟩) :
    (s₁.setOwned a o').Ok := by
  obtain ⟨hcreated, honce, hcnt, -⟩ := h.of_owned ho
  have hv := h.page a
  have hle : active ≤ 1 := by omega
  refine h.of_view a (fun b hb ↦ ?_) ?_ (fun x hx ↦ ?_) ?_
  · rw [view_setOwned, if_neg hb]
    exact hother b hb
  · rw [view_setOwned, if_pos rfl, hself]
    have hreaders : 0 < (s.view a).readers → active = 1 := fun hpos ↦ by
      have := hv.shared hpos
      omega
    by_cases hzero : o'.pins = 0
    · exact
        { once := by
            simp only [loose, hzero, if_true, hcreated, any_none] at hplace ⊢
            simp at hplace ⊢
            omega
          pins := by
            simp only [ownPins, hzero, if_true]
            simp
            omega
          shared := hreaders
          own := by simp [hzero]
          stage := by simp [hzero] }
    · have hsome : ∀ o₁ ∈ (if o'.pins = 0 then none else some o'), o₁ = o' := fun o₁ ho₁ ↦ by
        rw [if_neg hzero] at ho₁
        exact (some.inj ho₁).symm
      exact
        { once := by
            simp only [loose, if_neg hzero, hcreated, any_some, if_true]
            simp only [ne_eq, hzero, not_false_eq_true, true_and] at hplace
            omega
          pins := by
            simp only [ownPins, if_neg hzero, map_some, getD_some]
            omega
          shared := hreaders
          own := fun o₁ ho₁ ↦ by
            rw [hsome o₁ ho₁]
            exact ⟨Nat.pos_of_ne_zero hzero, hlisted hzero⟩
          stage := fun o₁ ho₁ ↦ by
            rw [hsome o₁ ho₁]
            exact hstage hzero }
  · rw [settled_setOwned, hsettled, hself] at hx
    split at hx
    · next hp =>
      rcases mem_cons.1 hx with rfl | hx
      · exact .inr (hdone hp)
      · exact .inl hx
    · exact .inl hx
  · rw [crashed_setOwned, hrun]
    exact h.running

theorem Ok.submitWrite (h : s.Ok) (ho : s.owned a = some o) (hstage : o.stage = .built) :
    (s.submitWrite a o).Ok := by
  obtain ⟨-, -, -, -, hactive, -⟩ := h.of_owned ho
  have hheld : o.held = true := ((h.page a).stage o ho).1 hstage
  have hone : o.pins = 1 := by simp [OwnedPage.pins, hheld, hstage]
  have hdet : ∀ held, OwnedPage.isDetached ⟨o.writer, held, .submitted⟩ = o.isDetached := by
    intro held
    simp [OwnedPage.isDetached, hstage]
  unfold PageLists.submitWrite
  split
  · have hpins : OwnedPage.pins ⟨o.writer, false, .submitted⟩ = 1 := rfl
    refine h.setOwned (s.view a).free (s.view a).active (s.view a).refCnt ho (fun _ _ ↦ rfl) rfl rfl
      rfl ?_ (by rw [hone, hpins]) le_rfl (fun _ hd ↦ hactive (hdet false ▸ hd))
      (fun _ ↦ by simp) fun hz ↦ absurd (hpins.symm.trans hz) (by simp)
    simp [hpins, hdet]
  all_goals
    have hpins : OwnedPage.pins ⟨o.writer, o.held, .submitted⟩ = 2 := by
      simp [OwnedPage.pins, hheld]
    refine h.setOwned (s.view a).free (s.view a).active ((s.view a).refCnt + 1) ho
      (fun b hb ↦ by simp [hb]) (by simp) rfl rfl ?_ (by rw [hone, hpins]) le_rfl
      (fun _ hd ↦ hactive (hdet o.held ▸ hd)) (fun _ ↦ by simp)
      fun hz ↦ absurd (hpins.symm.trans hz) (by simp)
    simp [hpins, hdet]

theorem Ok.isDetached_of_owned (h : s.Ok) (ho : s.owned a = some o) (hdet : o.isDetached = true) :
    s.isDetached a = true ∧ (s.view a).free = 0 ∧ (s.view a).active = 0 ∧
      (s.view a).refCnt = o.pins := by
  obtain ⟨-, honce, hpins, -, -, hreaders⟩ := h.of_owned ho
  rw [if_pos hdet] at honce
  have hfree : (s.view a).free = 0 := by omega
  have hactive : (s.view a).active = 0 := by omega
  refine ⟨decide_eq_true ⟨?_, ?_⟩, hfree, hactive, ?_⟩
  · exact count_eq_zero.1 hfree
  · exact count_eq_zero.1 hactive
  · rw [hpins, hreaders hdet, Nat.add_zero]

theorem check_true {next : PageLists} {c : Bool} (hc : c = true) : s.check c next = next := by
  rw [check, if_pos hc]

open OwnedPage

section

variable (h : s.Ok) (ho : s.owned a = some o)

include h ho

/-- **A page of a truncate that was refused** is freed. -/
theorem Ok.truncateFails (hstage : o.stage = .built) (hw : o.writer = .truncate) :
    (s.truncateFails a o).Ok := by
  have hheld : o.held = true := ((h.page a).stage o ho).1 hstage
  have hone : o.pins = 1 := by simp [pins, hheld, hstage]
  have hdet : o.isDetached = true := by simp [OwnedPage.isDetached, hw, hstage]
  obtain ⟨hlist, hfree, hactive, hpins⟩ := h.isDetached_of_owned ho hdet
  have hcnt : (s.unpin a).refCnt a = 0 := by
    show update s.refCnt a _ a = 0
    rw [update_self, show s.refCnt a = o.pins from hpins, hone]
  have hzero : pins ⟨o.writer, false, o.stage⟩ = 0 := by simp [pins, hstage]
  rw [PageLists.truncateFails, check_true]
  · refine h.setOwned ((s.view a).free + 1) (s.view a).active ((s.view a).refCnt - 1) ho
      (fun b hb ↦ by simp [hb]) (by simp) rfl rfl ?_ ?_ le_rfl
      (absurd hzero) (absurd hzero) fun _ _ ↦ ?_
    · rw [if_neg (by simp [hzero]), if_pos hdet]
      omega
    · rw [hpins, hone, hzero]
    · simp [isWritten, hstage, hactive, hfree]
  · rw [Bool.and_eq_true]
    exact ⟨hlist, decide_eq_true hcnt⟩

theorem Ok.active_of_moved (hw : o.writer = .moved) :
    (s.view a).active = 1 ∧ s.isDetached a = false ∧ o.isDetached = false := by
  have hdet : o.isDetached = false := by simp [OwnedPage.isDetached, hw]
  obtain ⟨-, -, -, -, hactive, -⟩ := h.of_owned ho
  have hone := hactive hdet
  refine ⟨hone, decide_eq_false fun hlist ↦ ?_, hdet⟩
  have hzero : (s.view a).active = 0 := count_eq_zero.2 hlist.2
  omega

/-- **A refused write** of a truncate or of compaction. -/
theorem Ok.writeRefused (hstage : o.stage = .built)
    (hw : o.writer = .truncate ∨ o.writer = .moved) : (s.writeRefused a o).Ok := by
  rcases hw with hw | hw
  · simp only [PageLists.writeRefused, hw]
    exact h.truncateFails ho hstage hw
  · simp only [PageLists.writeRefused, hw]
    obtain ⟨-, -, hcnt, -⟩ := h.of_owned ho
    obtain ⟨hactive, -, hdet⟩ := h.active_of_moved ho hw
    have hheld : o.held = true := ((h.page a).stage o ho).1 hstage
    have hone : o.pins = 1 := by simp [pins, hheld, hstage]
    have hzero : pins ⟨.moved, false, o.stage⟩ = 0 := by simp [pins, hstage]
    refine h.setOwned (s.view a).free (s.view a).active ((s.view a).refCnt - 1) ho
      (fun b hb ↦ by simp [hb]) (by simp) rfl rfl ?_ ?_ le_rfl
      (absurd hzero) (absurd hzero) fun _ hne ↦ absurd rfl hne
    · simp [hzero, hdet]
    · rw [hone, hzero]
      omega

theorem Ok.completes (hstage : o.stage = .submitted) :
    (s.writePageCallback a o false).Ok := by
  obtain ⟨-, honce, hcnt, hpos, hactive, -⟩ := h.of_owned ho
  have hpins : OwnedPage.pins ⟨o.writer, o.held, .completed true⟩ + 1 = o.pins := by
    simp [OwnedPage.pins, hstage]
  have hlisted : OwnedPage.isDetached ⟨o.writer, o.held, .completed true⟩ = false := by
    simp [OwnedPage.isDetached]
  have hsum : (s.view a).active - 1 + 1 = (s.view a).active + if o.isDetached then 1 else 0 := by
    cases hdet : o.isDetached with
    | true =>
      obtain ⟨-, -, hzero, -⟩ := h.isDetached_of_owned ho hdet
      simp [hzero]
    | false => simp [hactive hdet]
  have hone : (s.view a).active - 1 + 1 = 1 := by omega
  refine h.setOwned (s.view a).free ((s.view a).active - 1 + 1) ((s.view a).refCnt - 1) ho
    (fun b hb ↦ by simp [hb]) (by simp) rfl rfl ?_ ?_ ?_ (fun _ _ ↦ hone) (fun _ ↦ by simp)
    fun _ _ ↦ ?_
  · rw [if_neg (by simp [hlisted])]
    omega
  · rw [← hpins]
    omega
  · omega
  · have hfree : (s.view a).free = 0 := by omega
    simp [OwnedPage.isWritten, hone, hfree]

/-- **A write fails** when the code that built the page has let go of it. -/
theorem Ok.fails (hstage : o.stage = .submitted) (hfree : o.held = false ∨ o.writer = .moved) :
    (s.writePageCallback a o true).Ok := by
  have hpins : OwnedPage.pins ⟨o.writer, o.held, .completed false⟩ + 1 = o.pins := by
    simp [OwnedPage.pins, hstage]
  obtain ⟨-, -, hcnt, -⟩ := h.of_owned ho
  have hview : ∀ b, ({ s with writeErr := true } : PageLists).view b = s.view b := fun _ ↦ rfl
  simp only [writePageCallback, if_true]
  by_cases hw : o.writer = .moved
  · -- the page stays where it is
    obtain ⟨hactive, hlist, hdet⟩ := h.active_of_moved ho hw
    rw [if_neg (by rw [show ({ s with writeErr := true } : PageLists).isDetached a = s.isDetached a
      from rfl, hlist]; simp)]
    have hdet' : OwnedPage.isDetached ⟨o.writer, o.held, .completed false⟩ = false := by
      simp [OwnedPage.isDetached, hw]
    refine h.setOwned (s.view a).free (s.view a).active ((s.view a).refCnt - 1) ho
      (fun b hb ↦ by simp [hview, hb]) (by simp [hview]) rfl rfl ?_ ?_
      le_rfl (fun _ _ ↦ hactive) (fun _ ↦ ⟨by simp, fun _ ↦ hw⟩) fun _ hne ↦ absurd hw hne
    · simp [hdet', hdet]
    · rw [← hpins]
      omega
  · have hheld : o.held = false := hfree.resolve_right hw
    have hdet : o.isDetached = true := by simp [OwnedPage.isDetached, hw, hstage]
    obtain ⟨hlist, hzero, hactive, hcnt'⟩ := h.isDetached_of_owned ho hdet
    have hone : o.pins = 1 := by simp [OwnedPage.pins, hheld, hstage]
    have hnone : OwnedPage.pins ⟨o.writer, o.held, .completed false⟩ = 0 := by omega
    rw [if_pos (show ({ s with writeErr := true } : PageLists).isDetached a = true from hlist),
      check_true]
    · refine h.setOwned ((s.view a).free + 1) (s.view a).active ((s.view a).refCnt - 1) ho
        (fun b hb ↦ by simp [hview, hb]) (by simp [hview]) rfl rfl ?_ ?_
        le_rfl (absurd hnone) (absurd hnone) fun _ _ ↦ ?_
      · rw [if_neg (by simp [hnone]), if_pos hdet]
        omega
      · rw [hcnt', hone, hnone]
      · simp [OwnedPage.isWritten, hactive, hzero]
    · refine decide_eq_true ?_
      show update s.refCnt a (s.refCnt a - 1) a = 0
      rw [update_self, show s.refCnt a = o.pins from hcnt', hone]

/-- **The builder lets go** of a page it has handed over. -/
theorem Ok.drop (hheld : o.held = true) (hstage : o.stage ≠ .built) :
    ((s.unpin a).setOwned a { o with held := false }).Ok := by
  obtain ⟨-, honce, hcnt, -, hactive, -⟩ := h.of_owned ho
  have hpins : OwnedPage.pins ⟨o.writer, false, o.stage⟩ + 1 = o.pins := by
    simp [OwnedPage.pins, hheld]
    omega
  have hdet : OwnedPage.isDetached ⟨o.writer, false, o.stage⟩ = o.isDetached := rfl
  have hfailed := ((h.page a).stage o ho).2
  -- without a request the write has completed
  have hdone : OwnedPage.pins ⟨o.writer, false, o.stage⟩ = 0 → o.isDetached = false := by
    intro hz
    have hns : o.stage ≠ .submitted := fun heq ↦ by simp [OwnedPage.pins, heq] at hz
    cases hst : o.stage with
    | built => exact absurd hst hstage
    | submitted => exact absurd hst hns
    | completed ok =>
      cases ok with
      | true => simp [OwnedPage.isDetached, hst]
      | false => simp [OwnedPage.isDetached, hfailed hst]
  refine h.setOwned (s.view a).free (s.view a).active ((s.view a).refCnt - 1) ho
    (fun b hb ↦ by simp [hb]) (by simp) rfl rfl ?_ ?_ le_rfl (fun _ hd ↦ hactive hd)
    (fun _ ↦ ⟨fun hb ↦ absurd hb hstage, hfailed⟩) fun hz hne ↦ ?_
  · by_cases hz : OwnedPage.pins ⟨o.writer, false, o.stage⟩ = 0
    · rw [if_neg (fun hc ↦ hc.1 hz), if_neg (by simp [hdone hz])]
    · simp [hz, hdet]
  · rw [← hpins]
    omega
  · have hlisted := hdone hz
    have hwritten : OwnedPage.isWritten ⟨o.writer, false, o.stage⟩ = true := by
      have : o.writer ≠ .moved := hne
      simpa [OwnedPage.isDetached, OwnedPage.isWritten, this] using hlisted
    rw [if_neg (by simp [hlisted]), hactive hlisted] at honce
    have hfree : (s.view a).free = 0 := by omega
    simp [hwritten, hactive hlisted, hfree]

end

/-- A page in nobody's hands is pinned by other tasks only. -/
theorem Ok.of_not_owned (h : s.Ok) (ho : s.owned a = none) :
    (s.view a).free + (s.view a).active + (s.view a).others =
      (if (s.view a).created then 1 else 0) ∧ (s.view a).refCnt = (s.view a).readers := by
  have howned : (s.view a).owned = none := ho
  have hv := h.page a
  have honce := hv.once
  have hpins := hv.pins
  simp only [loose, ownPins, howned, any_none, map_none,
    getD_none, Bool.false_eq_true, if_false] at honce hpins
  omega

/-- A page that the task has nothing to do with is in order. -/
theorem ok_none {v : PageView} (ho : v.owned = none)
    (honce : v.free + v.active + v.others = if v.created then 1 else 0)
    (hpins : v.refCnt = v.readers) (hshared : 0 < v.readers → v.active = 1) : v.Ok where
  once := by simp only [loose, ho, any_none, Bool.false_eq_true, if_false]; omega
  pins := by simp only [ownPins, ho, map_none, getD_none]; omega
  shared := hshared
  own _ ho' := absurd (ho.symm.trans ho') (by simp)
  stage _ ho' := absurd (ho.symm.trans ho') (by simp)

theorem Ok.alloc (h : s.Ok) {w : PageWriter} (hw : w ≠ .moved)
    (hx : s.allocPage limit = some (a, s')) : ((s'.pin a).setOwned a ⟨w, true, .built⟩).Ok := by
  obtain ⟨hother, hself, hsettled, hrun, -⟩ := h.allocPage hx
  have hdet : OwnedPage.isDetached ⟨w, true, .built⟩ = true := by simp [OwnedPage.isDetached, hw]
  have hpins : OwnedPage.pins ⟨w, true, .built⟩ = 1 := rfl
  refine h.of_view a (fun b hb ↦ ?_) ?_ (fun x hx ↦ .inl ?_) ?_
  · simp [hb, hother b hb]
  · rw [view_setOwned, if_pos rfl, view_pin, if_pos rfl, hself, if_neg (by simp [hpins])]
    exact
      { once := by simp [loose, hdet]
        pins := by simp [ownPins, hpins]
        shared := by simp
        own := fun o ho ↦ by
          cases ho
          exact ⟨by simp [hpins], fun hd ↦ absurd (hdet.symm.trans hd) (by simp)⟩
        stage := fun o ho ↦ by
          cases ho
          exact ⟨fun _ ↦ rfl, by simp⟩ }
  · rw [settled_setOwned, if_neg (by simp [hpins])] at hx
    exact hsettled ▸ hx
  · rw [crashed_setOwned]
    exact hrun.trans h.running

theorem Ok.active_of_mem (h : s.Ok) (ha : a ∈ s.active) : (s.view a).active = 1 := by
  have hpos : 0 < (s.view a).active := count_pos_iff.2 ha
  obtain ⟨-, honce⟩ := (h.page a).once_eq (by omega)
  omega

/-- **Compaction finds a cached page.** -/
theorem Ok.find (h : s.Ok) (ha : a ∈ s.active) (ho : s.owned a = none) :
    ((s.pin a).setOwned a ⟨.moved, true, .built⟩).Ok := by
  obtain ⟨honce, hpins⟩ := h.of_not_owned ho
  have hactive := h.active_of_mem ha
  have hone : pins ⟨.moved, true, .built⟩ = 1 := rfl
  refine h.of_view a (fun b hb ↦ ?_) ?_ (fun x hx ↦ .inl ?_) ?_
  · simp [hb]
  · rw [view_setOwned, if_pos rfl, view_pin, if_pos rfl, if_neg (by simp [hone])]
    exact
      { once := by
          simp only [loose]
          rw [if_neg (by simp [OwnedPage.isDetached])]
          omega
        pins := by
          simp only [ownPins, map_some, getD_some, hone]
          omega
        shared := fun _ ↦ hactive
        own := fun o ho ↦ by
          cases ho
          exact ⟨by simp [hone], fun _ ↦ hactive⟩
        stage := fun o ho ↦ by
          cases ho
          exact ⟨fun _ ↦ rfl, by simp⟩ }
  · rw [settled_setOwned, if_neg (by simp [hone])] at hx
    exact hx
  · rw [crashed_setOwned]
    exact h.running

/-- **Other tasks** pin and unpin an active page. -/
theorem Ok.readers (h : s.Ok) {readers : List ℕ} {refCnt : ℕ}
    (hother : ∀ b, b ≠ a → readers.count b = s.readers.count b)
    (hcnt : refCnt + s.readers.count a = s.refCnt a + readers.count a)
    (hactive : 0 < readers.count a → (s.view a).active = 1) :
    ({ s with refCnt := Function.update s.refCnt a refCnt, readers := readers } :
      PageLists).Ok := by
  have hv := h.page a
  refine h.of_view a (fun b hb ↦ ?_) ?_ (fun x hx ↦ .inl hx) h.running
  · simp [view, update_of_ne hb, hother b hb]
  · have hpins : s.refCnt a = (s.view a).ownPins + s.readers.count a := hv.pins
    exact
      { __ := hv
        pins := by
          show update s.refCnt a refCnt a = (s.view a).ownPins + readers.count a
          rw [update_self]
          omega
        shared := hactive
        stage := hv.stage }

/-- **An unpinned page is recycled.** -/
theorem Ok.evict (h : s.Ok) (ha : a ∈ s.active) (hcnt : s.refCnt a = 0) :
    ({ s with active := s.active.erase a }.freePage a).Ok := by
  have hv := h.page a
  have hpins : 0 = (s.view a).ownPins + (s.view a).readers := hcnt.symm.trans hv.pins
  have howned : s.owned a = none := by
    by_contra hne
    obtain ⟨o, ho⟩ := ne_none_iff_exists'.1 hne
    obtain ⟨-, -, hcnt', hpos, -⟩ := h.of_owned ho
    have : (s.view a).refCnt = 0 := hcnt
    omega
  obtain ⟨honce, -⟩ := h.of_not_owned howned
  have hpos : 0 < (s.view a).active := count_pos_iff.2 ha
  refine h.of_view a (fun b hb ↦ ?_) ?_ (fun x hx ↦ .inl hx) h.running
  · rw [view_freePage, if_neg hb, view_active, count_erase_of_ne hb]
    rfl
  · rw [view_freePage, if_pos rfl, view_active, count_erase_self]
    refine ok_none howned ?_ ?_ fun hr ↦ ?_
    · show (s.view a).free + 1 + ((s.view a).active - 1) + (s.view a).others = _
      rw [← honce]
      omega
    · show s.refCnt a = (s.view a).readers
      omega
    · have : 0 < (s.view a).readers := hr
      omega

/-- **Another task takes a page.** -/
theorem Ok.take (h : s.Ok) (hx : s.allocPage limit = some (a, s')) :
    ({ s' with others := a :: s.others } : PageLists).Ok := by
  obtain ⟨hother, hself, hsettled, hrun, hsame⟩ := h.allocPage hx
  refine h.of_view a (fun b hb ↦ ?_) ?_ (fun x hx ↦ .inl (hsettled ▸ hx)) (hrun.trans h.running)
  · rw [view_others, hother b hb, count_cons_of_ne (Ne.symm hb)]
    rfl
  · have hnone : s.others.count a = 0 := hsame ▸ congrArg PageView.others hself
    rw [view_others, hself, count_cons_self, hnone]
    exact ok_none rfl rfl rfl fun hr ↦ absurd hr (by simp)

/-- **Another task puts its page on a list.** -/
theorem Ok.give (h : s.Ok) (ha : a ∈ s.others) (loaded : Bool) :
    (if loaded then ({ s with others := s.others.erase a } : PageLists).enqueuePage a
      else ({ s with others := s.others.erase a } : PageLists).freePage a).Ok := by
  have hpos : 0 < (s.view a).others := count_pos_iff.2 ha
  obtain ⟨hcreated, honce⟩ := (h.page a).once_eq (by omega)
  obtain ⟨howned, hreaders, hpins⟩ := (h.page a).unpinned (by omega) (by omega)
  have herase : (s.others.erase a).count a = (s.view a).others - 1 := count_erase_self
  cases loaded with
  | true | false =>
    refine h.of_view a (fun b hb ↦ ?_) ?_ (fun x hx ↦ .inl hx) h.running
    · simp [hb, view_others, count_erase_of_ne hb]
      rfl
    · simp only [Bool.false_eq_true, if_false, if_true, view_enqueuePage, view_freePage,
        view_others, herase]
      refine ok_none howned ?_ (hpins.trans hreaders.symm) fun hr ↦ ?_
      · simp only [hcreated, if_true]
        omega
      · have : 0 < (s.view a).readers := hr
        omega

/-! ### Runs -/

/-- **An event that meets the condition keeps every page in order.** -/
theorem Ok.event (h : s.Ok) {e : OwnerEvent} (hclean : e.Clean s) (hrun : e.run limit s = some s') :
    s'.Ok := by
  rw [OwnerEvent.run, h.running, if_neg (by simp)] at hrun
  cases e with
  | alloc w =>
    obtain ⟨hw, hrun⟩ := ite_none_left_eq_some.1 hrun
    obtain ⟨⟨a, s₁⟩, hx, rfl⟩ := map_eq_some_iff.1 hrun
    exact h.alloc hw hx
  | find a =>
    obtain ⟨hcond, rfl⟩ := ite_some_none_eq_some.1 hrun
    exact h.find hcond.1 hcond.2
  | submit a =>
    obtain ⟨o, ho, hrun⟩ := bind_eq_some_iff.1 hrun
    obtain ⟨hstage, rfl⟩ := ite_some_none_eq_some.1 hrun
    exact h.submitWrite ho hstage
  | reject a =>
    obtain ⟨o, ho, hrun⟩ := bind_eq_some_iff.1 hrun
    obtain ⟨hstage, rfl⟩ := ite_some_none_eq_some.1 hrun
    exact h.writeRefused ho hstage (hclean o ho)
  | complete a failed =>
    obtain ⟨o, ho, hrun⟩ := bind_eq_some_iff.1 hrun
    obtain ⟨hstage, rfl⟩ := ite_some_none_eq_some.1 hrun
    cases failed with
    | false => exact h.completes ho hstage
    | true => exact h.fails ho hstage (hclean o ho)
  | wait =>
    obtain ⟨-, rfl⟩ := ite_some_none_eq_some.1 hrun
    exact ⟨h.page, h.settled, h.running⟩
  | waitFails a => exact hclean.elim
  | drop a =>
    obtain ⟨o, ho, hrun⟩ := bind_eq_some_iff.1 hrun
    obtain ⟨hcond, rfl⟩ := ite_some_none_eq_some.1 hrun
    exact h.drop ho hcond.1 hcond.2
  | pin a =>
    obtain ⟨ha, rfl⟩ := ite_some_none_eq_some.1 hrun
    refine h.readers (fun b hb ↦ count_cons_of_ne (Ne.symm hb)) ?_ fun _ ↦ h.active_of_mem ha
    rw [count_cons_self]
    omega
  | unpin a =>
    obtain ⟨ha, rfl⟩ := ite_some_none_eq_some.1 hrun
    have hpos : 0 < (s.view a).readers := count_pos_iff.2 ha
    have hpins : s.refCnt a = (s.view a).ownPins + s.readers.count a := (h.page a).pins
    have hcount : 0 < s.readers.count a := hpos
    refine h.readers (fun b hb ↦ count_erase_of_ne hb) ?_ fun _ ↦ (h.page a).shared hpos
    rw [count_erase_self]
    omega
  | evict a =>
    obtain ⟨hcond, rfl⟩ := ite_some_none_eq_some.1 hrun
    exact h.evict hcond.1 hcond.2
  | take =>
    obtain ⟨⟨a, s₁⟩, hx, rfl⟩ := map_eq_some_iff.1 hrun
    exact h.take hx
  | give a loaded =>
    obtain ⟨ha, rfl⟩ := ite_some_none_eq_some.1 hrun
    exact h.give ha loaded

/-- **Every cached page a task allocates ends on one list.** In every run whose events meet the
condition no `CHECK` fails; every page the task has let go of was at that moment on the active list
once if its write had succeeded, and on the free list once if not; and a page the task does not have
is on exactly one list, or in another task's hands. -/
theorem settled_of_clean (hrun : OwnerRuns limit (fun s e ↦ e.Clean s) {} s) :
    s.crashed = false ∧
      (∀ x ∈ s.settled, x.writer ≠ .moved →
        x.active = (if x.written then 1 else 0) ∧ x.free = if x.written then 0 else 1) ∧
      ∀ a < s.pages, s.owned a = none →
        s.free.count a + s.active.count a + s.others.count a = 1 := by
  have hok : s.Ok := hrun.invariant PageLists.Ok ok_empty fun h hclean hstep ↦ h.event hclean hstep
  refine ⟨hok.running, hok.settled, fun a ha ho ↦ ?_⟩
  obtain ⟨honce, -⟩ := hok.of_not_owned ho
  have hcreated : (s.view a).created = true := by
    show a.blt s.pages = true
    rw [Nat.blt_eq]
    exact ha
  rw [hcreated, if_pos rfl] at honce
  exact honce

/-- An index page whose write fails after the builder has let go of it, and a page of a truncate
that is refused. -/
theorem settled_of_clean_witness : ∃ s, OwnerRuns 4 (fun s e ↦ e.Clean s) {} s ∧
    (s.settled = [⟨0, .truncate, false, 0, 1⟩, ⟨0, .index, false, 0, 1⟩] ∧ s.owned 0 = none) ∧
      s.crashed = false ∧
      (∀ x ∈ s.settled, x.writer ≠ .moved →
        x.active = (if x.written then 1 else 0) ∧ x.free = if x.written then 0 else 1) ∧
      ∀ a < s.pages, s.owned a = none →
        s.free.count a + s.active.count a + s.others.count a = 1 :=
  exists_reach_and_of_exec (fun hrun ↦ settled_of_clean hrun)
    [.alloc .index, .submit 0, .drop 0, .complete 0 true, .alloc .truncate, .reject 0]
    (by decide +kernel)

/-- **A failed write can bring the process down, and a refused one can lose a page.** The write of
an index page fails while the builder has its handle; an index page is refused, and is then on no
list; and a truncate whose page has been written finds it on the active list when another page's
error reaches it. -/
theorem failed_write_crashes :
    (∃ s, OwnerRuns 4 (fun _ _ ↦ True) {} s ∧ s.crashed = true ∧ s.settled = []) ∧
      (∃ s, OwnerRuns 4 (fun _ _ ↦ True) {} s ∧ s.pages = 1 ∧ s.owned 0 = none ∧
        s.free = [] ∧ s.active = [] ∧ s.others = []) ∧
      ∃ s, OwnerRuns 4 (fun _ _ ↦ True) {} s ∧ s.crashed = true ∧
        s.settled = [⟨0, .promoted, false, 0, 1⟩] := by
  refine ⟨?_, ?_, ?_⟩
  · exact exists_reach_of_exec [.alloc .index, .submit 0, .complete 0 true]
      (by decide +kernel)
  · exact exists_reach_of_exec [.alloc .index, .reject 0] (by decide +kernel)
  · exact exists_reach_of_exec [.alloc .promoted, .submit 0, .alloc .truncate, .submit 1,
      .complete 0 true, .complete 1 false, .waitFails 1] (by decide +kernel)

end PageLists

end EloqStore
