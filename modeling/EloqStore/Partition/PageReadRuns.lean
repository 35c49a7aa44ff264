import EloqStore.Partition.PageReads

/-!
# Lookups in every interleaving

The steps of the calls of `FindPage`, one by one, and what holds in every run of them.
-/

namespace EloqStore

open Function List Option Swizzling.Cache FindCall PageRead Tally

open Swizzling (Slot Status)

namespace PageReads

variable {env : SnapshotEnv} {s s' : PageReads} {c : FindCall} {m p a k i : ℕ}

/-! ### Calls -/

theorem SameAt.of_eq (hcache : s'.cache = s.cache) (herror : s'.error a = s.error a)
    (hcurrent : s'.current a = s.current a) (hreads : s'.reads = s.reads) : SameAt env s s' a :=
  ⟨by rw [hcache], herror, hcurrent, fun m hm ↦ by rw [hcache]; exact hm,
    fun m p _ hs ↦ by rw [hcache]; exact hs, fun k r hr _ ↦ by rw [hreads]; exact hr⟩

variable {c' : FindCall} {l : List FindCall} {err : KvError}

theorem Inv.call (h : s.Inv env) (hc : s.calls[i]? = some c) : s.CallOk env c :=
  h.calls c (mem_of_getElem? hc)

/-- A call at another index than the one that changes. -/
theorem mem_set_cases {x : FindCall} (h : x ∈ l.set i c') :
    x = c' ∨ ∃ j, j ≠ i ∧ l[j]? = some x := by
  obtain ⟨j, hj⟩ := mem_iff_getElem?.1 h
  by_cases hji : j = i
  · subst hji
    refine .inl ?_
    obtain ⟨hlt, hget⟩ := List.getElem?_eq_some_iff.1 hj
    rw [← hget, getElem_set_self]
  · rw [getElem?_set_ne (Ne.symm hji)] at hj
    exact .inr ⟨j, hji, hj⟩

theorem count_handles_set (hc : s.calls[i]? = some c) (c' : FindCall) (a : ℕ) :
    c.handle?.toList.count a + ((s.calls.set i c').filterMap handle?).count a =
      c'.handle?.toList.count a + s.handles.count a := by
  have hperm := (filterMap_set handle? hc c').count_eq a
  rwa [count_append, count_append] at hperm

/-- **A call goes on**, and takes a handle or gives one back. -/
theorem Inv.move (h : s.Inv env) (hc : s.calls[i]? = some c) {pins : ℕ → ℕ}
    (hpins : ∀ a, c.handle?.toList.count a + pins a = c'.handle?.toList.count a + s.pins a)
    (hload : c.loads? = none) (hload' : c'.loads? = none) (hok : s.CallOk env c')
    (herr : ∀ a, s.error a ≠ .noError → 0 < pins a) :
    ({ s with pins := pins, calls := s.calls.set i c' } : PageReads).Inv env := by
  have hsame : ∀ c, s.CallOk env c →
      ({ s with pins := pins, calls := s.calls.set i c' } : PageReads).CallOk env c := fun c hc ↦
    hc.frame rfl (fun _ _ hr _ ↦ hr) fun a _ ↦ .of_eq rfl rfl rfl rfl
  refine ⟨h.coherent, h.through, fun a ↦ ?_, ?_, fun x hx ↦ hsame x ?_, fun a ha ↦ ?_, h.freed⟩
  · have hcount := count_handles_set hc c' a
    have hp := hpins a
    have hold := h.pins a
    change pins a = ((s.calls.set i c').filterMap handle?).count a
    omega
  · have hperm := filterMap_set loads? hc c'
    rw [hload, hload'] at hperm
    exact hperm.trans h.loads
  · obtain rfl | ⟨j, -, hj⟩ := mem_set_cases hx
    · exact hok
    · exact h.call hj
  · obtain ⟨hdet, hno, -⟩ := h.error a ha
    exact ⟨hdet, hno, herr a ha⟩

theorem count_toList (a b : ℕ) : (some b : Option ℕ).toList.count a = if a = b then 1 else 0 := by
  rw [toList_some, count_singleton]
  by_cases hab : b = a
  · simp [hab]
  · simp [hab, Ne.symm hab]

theorem pin_pins (a b : ℕ) : (s.pin a).pins b = s.pins b + if b = a then 1 else 0 := by
  by_cases hba : b = a
  · simp [pin, hba]
  · simp [pin, hba]

theorem unpin_pins (ha : 0 < s.pins a) (b : ℕ) :
    (s.unpin a).pins b + (if b = a then 1 else 0) = s.pins b := by
  by_cases hba : b = a
  · simp only [unpin, hba, update_self, if_true]
    omega
  · simp [unpin, hba]

section

variable (h : s.Inv env) (hc : s.calls[i]? = some c)

include h hc

theorem Inv.take (hhandle : c.handle? = none) (hload : c.loads? = none)
    (hhandle' : c'.handle? = some a) (hload' : c'.loads? = none) (hok : s.CallOk env c') :
    ((s.pin a).goto i c').Inv env := by
  refine h.move hc (fun b ↦ ?_) hload hload' hok fun b hb ↦ ?_
  · rw [hhandle, hhandle', count_toList, pin_pins]
    change 0 + _ = _
    omega
  · rw [pin_pins]
    exact Nat.lt_of_lt_of_le (h.error b hb).2.2 (Nat.le_add_right _ _)

theorem Inv.pins_pos (hhandle : c.handle? = some a) :
    0 < s.pins a := by
  rw [h.pins]
  exact count_pos_iff.2 (mem_filterMap.2 ⟨c, mem_of_getElem? hc, hhandle⟩)

/-- **A call gives its handle back**, to a page whose read has not failed, or that others have a
handle to. -/
theorem Inv.drop (hhandle : c.handle? = some a) (hhandle' : c'.handle? = none)
    (hload' : c'.loads? = none) (hok : s.CallOk env c')
    (herr : s.error a = .noError ∨ 1 < s.pins a) : ((s.unpin a).goto i c').Inv env := by
  have hunpin := unpin_pins (h.pins_pos hc hhandle)
  have hload : c.loads? = none := by
    cases c with
    | loading => simp [handle?] at hhandle
    | idle | waiting | woken | holding | failed => rfl
  refine h.move hc (fun b ↦ ?_) hload hload' hok fun b hb ↦ ?_
  · have hb := hunpin b
    rw [hhandle, hhandle', count_toList]
    change _ = 0 + _
    omega
  · have hpos := (h.error b hb).2.2
    have hp := hunpin b
    by_cases hba : b = a
    · have hlt := herr.resolve_left (hba ▸ hb)
      rw [if_pos hba] at hp
      rw [hba] at hp ⊢
      omega
    · rw [if_neg hba] at hp
      omega

theorem Inv.goto (hhandle : c.handle? = none) (hload : c.loads? = none)
    (hhandle' : c'.handle? = none) (hload' : c'.loads? = none) (hok : s.CallOk env c') :
    (s.goto i c').Inv env :=
  h.move hc (fun b ↦ by rw [hhandle, hhandle']) hload hload' hok fun b hb ↦ (h.error b hb).2.2

end

/-! ### Evicting a page -/

theorem notMem_loads_of_active (h : s.Inv env) (ha : (s.cache.pages a).status ≠ .detached) :
    a ∉ s.cache.loads.map (·.1) := by
  intro hmem
  obtain ⟨x, hx, rfl⟩ := mem_map.1 hmem
  exact ha (h.coherent.load x hx)

/-- **A page that is active and not pinned is evicted.** -/
theorem Inv.evict (h : s.Inv env) (hev : s.canEvict a) :
    ({ s with cache := s.cache.recycle env.registered a } : PageReads).Inv env := by
  obtain ⟨hact, hpins⟩ := hev
  have hload := notMem_loads_of_active h (a := a) (by simp [hact])
  have hpage : ∀ b, b ≠ a → (s.cache.recycle env.registered a).pages b = s.cache.pages b :=
    fun b hb ↦ update_of_ne hb _ _
  refine ⟨h.coherent.recycle (fun _ hm ↦ hm) hact, h.through.recycle _ _, h.pins, h.loads,
    fun c hc ↦ ?_, fun b hb ↦ ?_, h.freed⟩
  · refine (h.calls c hc).frame rfl (fun _ _ hr _ ↦ hr) fun b hb ↦ ?_
    have hba : b ≠ a := fun heq ↦ h.addr_ne hpins hload hc (heq ▸ hb)
    refine ⟨hpage b hba, rfl, rfl, fun _ hm ↦ hm, fun m p hm hs ↦ ?_, fun _ _ hr _ ↦ hr⟩
    change (if env.registered m then s.cache.unswizzled a m else s.cache.slots m) p = _
    rw [if_pos hm]
    exact unswizzled_of_ne hs hba
  · obtain ⟨hdet, hno, hpos⟩ := h.error b hb
    have hba : b ≠ a := fun heq ↦ by simp [heq, hact] at hdet
    exact ⟨by rw [hpage b hba]; exact hdet, hno, hpos⟩

/-! ### Reads -/

theorem startLoad_slots {f q b : ℕ} {m' : ℕ} (hno : ∀ b, s.cache.slots m p ≠ some (.pointer b))
    (hs : s.cache.slots m' q = some (.pointer b)) :
    (s.cache.startLoad m p a f).slots m' q = some (.pointer b) := by
  refine (slots_update_of_ne ?_).trans hs
  rintro ⟨rfl, rfl⟩
  exact hno b hs

/-- **A read starts**, into a free page. -/
theorem Inv.load (h : s.Inv env) (hc : s.calls[i]? = some c) (hhandle : c.handle? = none)
    (hloads : c.loads? = none) (hm : env.registered m = true)
    (hno : ∀ b, s.cache.slots m p ≠ some (.pointer b)) {f : ℕ} (hf : env.filePage m p = some f)
    (ha : (s.cache.pages a).status = .free) :
    ({ s.goto i (.loading m p a s.reads.length) with
        cache := s.cache.startLoad m p a f
        current := update s.current a s.reads.length
        reads := s.reads ++ [{ snapshot := m, page := p, addr := a }] } : PageReads).Inv env := by
  have herror : s.error a = .noError := by
    by_contra herr
    exact absurd (h.error a herr).1 (by simp [ha])
  have hold : ∀ (k : ℕ) (r : PageRead), s.reads[k]? = some r →
      (s.reads ++ [{ snapshot := m, page := p, addr := a }])[k]? = some r := fun k r hr ↦ by
    rw [List.getElem?_append_left (List.getElem?_eq_some_iff.1 hr).1]
    exact hr
  refine ⟨h.coherent.startLoad ha hf, h.through.startLoad h.coherent ha m p f, fun b ↦ ?_, ?_,
    fun x hx ↦ ?_, fun b hb ↦ ?_, fun b ↦ ?_⟩
  · have hcount := count_handles_set hc (.loading m p a s.reads.length) b
    rw [hhandle] at hcount
    change 0 + _ = 0 + _ at hcount
    change s.pins b = count b _
    rw [h.pins]
    change s.handles.count b = ((s.calls.set i _).filterMap handle?).count b
    omega
  · have hperm := filterMap_set loads? hc (.loading m p a s.reads.length)
    rw [hloads] at hperm
    exact hperm.trans (h.loads.cons a)
  · obtain rfl | ⟨j, -, hj⟩ := mem_set_cases hx
    · refine ⟨hm, mem_cons_self, ?_, ?_, ?_, herror⟩
      · simp [startLoad]
      · simp
      · simp
    · have hmem := mem_of_getElem? hj
      refine (h.calls x hmem).frame rfl (fun k r hr _ ↦ hold k r hr) fun b hb ↦ ?_
      have hba : b ≠ a := fun heq ↦ h.status_of_addr hmem (heq ▸ hb) ha
      exact ⟨update_of_ne hba _ _, rfl, update_of_ne hba _ _,
        fun m' hm' ↦ mem_cons_of_mem _ hm', fun m' q _ hs ↦ startLoad_slots hno hs,
        fun k r hr _ ↦ hold k r hr⟩
  · obtain ⟨hdet, hno', hpos⟩ := h.error b hb
    have hba : b ≠ a := fun heq ↦ by simp [heq, ha] at hdet
    refine ⟨?_, ?_, hpos⟩
    · rw [show (s.cache.startLoad m p a f).pages b = s.cache.pages b from
        update_of_ne hba _ _]
      exact hdet
    · exact not_mem_cons_of_ne_of_not_mem hba hno'
  · have hnew : [({ snapshot := m, page := p, addr := a } : PageRead)].countP
        (failedInto b) = 0 := by simp [failedInto]
    rw [countP_append, hnew]
    exact h.freed b

/-- The other calls, while a read is in flight: those about its page wait for it. -/
theorem Inv.others (h : s.Inv env) (hc : s.calls[i]? = some (.loading m p a k)) {j : ℕ}
    (hj : s.calls[j]? = some c) (hji : j ≠ i) : c.addr? ≠ some a ∨ c = .waiting m p a k := by
  have hload := h.call hc
  have hok := h.call hj
  have hdet := h.coherent.load _ hload.load
  by_cases ha : c.addr? = some a
  · refine .inr ?_
    cases c with
    | idle | failed => simp [addr?] at ha
    | loading m' p' b k' =>
      cases ha
      -- no page is read into by two calls
      have hnodup : (s.calls.filterMap loads?).Nodup :=
        h.loads.nodup_iff.2 h.coherent.nodup
      have hpair := pairwise_filterMap.1 hnodup
      obtain ⟨hi, hgi⟩ := List.getElem?_eq_some_iff.1 hc
      obtain ⟨hj', hgj⟩ := List.getElem?_eq_some_iff.1 hj
      obtain hlt | hlt := Nat.lt_or_gt_of_ne hji
      · exact absurd rfl (pairwise_iff_getElem.1 hpair j i hj' hi hlt a (by rw [hgj]; rfl) a
          (by rw [hgi]; rfl))
      · exact absurd rfl (pairwise_iff_getElem.1 hpair i j hi hj' hlt a (by rw [hgi]; rfl) a
          (by rw [hgj]; rfl))
    | waiting m' p' b k' =>
      cases ha
      have hk : k' = k := hok.current.symm.trans hload.current
      subst hk
      have heq := some.inj (hok.read.symm.trans hload.read)
      cases heq
      rfl
    | woken m' p' b k' =>
      cases ha
      obtain ⟨-, -, hact⟩ | ⟨-, herr⟩ := hok.read
      · cases hact.symm.trans hdet
      · exact absurd hload.error herr
    | holding m' p' b =>
      cases ha
      cases hok.1.symm.trans hdet
  · exact .inl ha

theorem set_reads {r : PageRead} {k' : ℕ} {r' : PageRead}
    (hread : s.reads[k]? = some ⟨m, p, a, .inFlight⟩) (hr : s.reads[k']? = some r')
    (hne : r'.outcome ≠ .inFlight ∨ r'.addr ≠ a) : (s.reads.set k r)[k']? = some r' := by
  have hkk : k ≠ k' := fun heq ↦ by
    subst heq
    cases hread.symm.trans hr
    exact hne.elim (fun h ↦ h rfl) fun h ↦ h rfl
  rw [getElem?_set_ne hkk]
  exact hr

theorem wake_of_ne (h : ∀ m p k, c ≠ .waiting m p a k) : c.wake a = c := by
  cases c with
  | waiting m p b k => exact if_neg fun heq ↦ h m p k (by rw [heq])
  | idle | loading | woken | holding | failed => rfl

theorem filterMap_wake {β : Type} (f : FindCall → Option β) (a : ℕ)
    (hf : ∀ m p b k, f (.woken m p b k) = f (.waiting m p b k)) (l : List FindCall) :
    (l.map (wake a)).filterMap f = l.filterMap f := by
  rw [filterMap_map]
  congr 1
  funext c
  cases c with
  | waiting m p b k =>
    change f (if b = a then .woken m p b k else .waiting m p b k) = _
    split
    · exact hf m p b k
    · rfl
  | idle | loading | woken | holding | failed => rfl

theorem countP_set {r : PageRead} (hread : s.reads[k]? = some ⟨m, p, a, .inFlight⟩) (b : ℕ) :
    (s.reads.set k r).countP (failedInto b) =
      s.reads.countP (failedInto b) + (r.failedInto b).toNat := by
  obtain ⟨hk, hget⟩ := List.getElem?_eq_some_iff.1 hread
  have hold : failedInto b s.reads[k] = false := by
    rw [hget]
    simp [failedInto]
  rw [List.countP_set hk, hold]
  cases r.failedInto b <;> rfl

/-- **The read of a call ends**: its page and the calls that wait for it change, and no other page
or call. -/
structure Ends (s s' : PageReads) (i m a k : ℕ) (r : PageRead) (c' : FindCall) : Prop where
  disk : s'.cache.disk = s.cache.disk
  page : ∀ b, b ≠ a → s'.cache.pages b = s.cache.pages b
  slot : ∀ m' q b, b ≠ a → s.cache.slots m' q = some (.pointer b) →
    s'.cache.slots m' q = some (.pointer b)
  loads : s'.cache.loads = s.cache.loads.erase (a, m)
  error : ∀ b, b ≠ a → s'.error b = s.error b
  current : s'.current = s.current
  reads : s'.reads = s.reads.set k r
  calls : s'.calls = (s.calls.map (FindCall.wake a)).set i c'
  pins : ∀ b, s'.pins b = s.pins b + c'.handle?.toList.count b
  freed : ∀ b, s.freed.count b + (if s.error b = .noError then 0 else 1) + (r.failedInto b).toNat =
    s'.freed.count b + if s'.error b = .noError then 0 else 1

theorem Ends.frame {r : PageRead} (he : Ends s s' i m a k r c') (hload : s.InFlight env m p a k)
    (hok : s.CallOk env c) (haddr : c.addr? ≠ some a) : s'.CallOk env c := by
  refine hok.frame he.disk (fun k' r hr hne ↦ ?_) fun b hb ↦ ?_
  · rw [he.reads]
    exact set_reads hload.read hr (.inl hne)
  · have hba : b ≠ a := fun heq ↦ haddr (heq ▸ hb)
    refine ⟨he.page b hba, he.error b hba, by rw [he.current], fun m' hm' ↦ ?_,
      fun m' q _ hs ↦ he.slot m' q b hba hs, fun k' r hr hra ↦ ?_⟩
    · rw [he.loads]
      exact (mem_erase_of_ne fun heq ↦ hba (congrArg Prod.fst heq)).2 hm'
    · rw [he.reads]
      exact set_reads hload.read hr (.inr (hra ▸ hba))

/-- **The end of a read keeps the invariant**, if the call and those that are woken find what they
should. -/
theorem Inv.ends (h : s.Inv env) (hc : s.calls[i]? = some (.loading m p a k)) (r : PageRead)
    (c' : FindCall) (he : Ends s s' i m a k r c') (hload' : c'.loads? = none)
    (hcoherent : Swizzling.Coherent env.filePage (fun m ↦ env.registered m = true) s'.cache)
    (hthrough : Swizzling.LoadedThrough (fun m ↦ env.registered m = true) s'.cache)
    (hok : s'.CallOk env c')
    (hwoken : ∀ j : ℕ, s.calls[j]? = some (.waiting m p a k) → s'.Woken env m p a k)
    (herr : s'.error a ≠ .noError → (s'.cache.pages a).status = .detached ∧ 0 < s.pins a) :
    s'.Inv env := by
  have hload := h.call hc
  have hi : (s.calls.map (wake a))[i]? = some (.loading m p a k) := by
    rw [getElem?_map, hc]
    rfl
  refine ⟨hcoherent, hthrough, fun b ↦ ?_, ?_, fun x hx ↦ ?_, fun b hb ↦ ?_, fun b ↦ ?_⟩
  · have hperm := (filterMap_set handle? hi c').count_eq b
    rw [filterMap_wake _ _ (fun _ _ _ _ ↦ rfl), count_append, count_append] at hperm
    change 0 + _ = _ + s.handles.count b at hperm
    rw [handles, he.calls, he.pins, h.pins]
    omega
  · have hperm := filterMap_set loads? hi c'
    rw [hload', filterMap_wake _ _ fun _ _ _ _ ↦ rfl] at hperm
    have herase := (perm_cons_erase hload.load).map (·.1)
    rw [loading, he.calls, he.loads]
    exact (hperm.trans (h.loads.trans herase)).cons_inv
  · rw [he.calls] at hx
    obtain rfl | ⟨j, hji, hj⟩ := mem_set_cases hx
    · exact hok
    · obtain ⟨c₀, hj₀, rfl⟩ := map_eq_some_iff.1 (getElem?_map ▸ hj)
      obtain haddr | rfl := h.others hc hj₀ hji
      · rw [wake_of_ne fun _ _ _ heq ↦ haddr (by rw [heq]; rfl)]
        exact he.frame hload (h.call hj₀) haddr
      · rw [wake, if_pos rfl]
        exact hwoken j hj₀
  · have hpins : s.pins b ≤ s'.pins b := by
      rw [he.pins]
      exact Nat.le_add_right _ _
    rw [he.loads]
    by_cases hba : b = a
    · subst hba
      obtain ⟨hdet, hpos⟩ := herr hb
      exact ⟨hdet, h.coherent.notMem_dropLoad hload.load, hpos.trans_le hpins⟩
    · obtain ⟨hdet, hno, hpos⟩ := h.error b (he.error b hba ▸ hb)
      rw [he.page b hba]
      refine ⟨hdet, fun hmem ↦ hno ?_, hpos.trans_le hpins⟩
      obtain ⟨x, hx, rfl⟩ := mem_map.1 hmem
      exact mem_map_of_mem (mem_of_mem_erase hx)
  · rw [he.reads, countP_set hload.read, h.freed]
    exact he.freed b

/-- **A read succeeds**: the call has its page, and those that wait are woken. -/
theorem Inv.loaded (h : s.Inv env) (hc : s.calls[i]? = some (.loading m p a k)) :
    ((((({ s with cache := s.cache.finishLoad a m } : PageReads).endRead k
      ⟨m, p, a, .ok⟩).wakeAll a).pin a).goto i (.holding m p a)).Inv env := by
  have hload := h.call hc
  obtain ⟨hid, f, hf, hT, -⟩ := h.coherent.slot m hload.registered p _ hload.slot
  have hactive : ((s.cache.finishLoad a m).pages a).status = .active := by
    simp [finishLoad]
  refine h.ends hc ⟨m, p, a, .ok⟩ (.holding m p a) ⟨rfl,
    fun b hba ↦ update_of_ne hba _ _, fun _ _ _ _ hs ↦ hs, rfl, fun _ _ ↦ rfl, rfl, rfl,
    rfl, fun b ↦ ?_, fun b ↦ ?_⟩ rfl
    (h.coherent.finishLoad hload.load) (h.through.finishLoad a m) ⟨hactive, ?_, f, hT, ?_⟩
    (fun _ _ ↦ ⟨hload.registered, by rw [hT]; rfl, .inl ⟨?_, hload.error, hactive⟩⟩)
    fun herr ↦ absurd hload.error herr
  · change (s.pin a).pins b = s.pins b + (some a : Option ℕ).toList.count b
    rw [pin_pins, count_toList]
  · simp [failedInto, wakeAll, endRead, pin, PageReads.goto]
    rfl
  · change ((s.cache.finishLoad a m).pages a).pageId = some p
    simp [finishLoad, hid]
  · change ((s.cache.finishLoad a m).pages a).content = s.cache.disk f
    simp [finishLoad, hf]
  · exact List.getElem?_set_self (List.getElem?_eq_some_iff.1 hload.read).1

theorem dropLoad_slots {m' q b : ℕ} (hba : b ≠ a) (hs : s.cache.slots m' q = some (.pointer b)) :
    (s.cache.dropLoad a m).slots m' q = some (.pointer b) := by
  change update s.cache.slots m _ m' q = _
  by_cases hm : m' = m
  · subst hm
    rw [update_self]
    exact unswizzled_of_ne hs hba
  · rw [update_of_ne hm, hs]

/-- **A read fails**: the page is pointed to no more, and not read. -/
theorem Inv.dropLoad (h : s.Inv env) (hload : s.InFlight env m p a k) :
    Swizzling.Coherent env.filePage (fun m ↦ env.registered m = true) (s.cache.dropLoad a m) ∧
      Swizzling.LoadedThrough (fun m ↦ env.registered m = true) (s.cache.dropLoad a m) :=
  ⟨h.coherent.dropLoad hload.load fun _ hm' hne p ↦
      h.through.alone h.coherent hload.load hm' hne p,
    h.through.dropLoad h.coherent hload.load⟩

theorem error_toNat (b : ℕ) :
    (failedInto b ⟨m, p, a, .error err⟩).toNat = if b = a then 1 else 0 := by
  by_cases hba : a = b
  · simp [failedInto, hba]
  · simp [failedInto, hba, Ne.symm hba]

/-- **A read fails and tasks wait for it**: they are woken, and the page is theirs to free. -/
theorem Inv.fails (h : s.Inv env) (hc : s.calls[i]? = some (.loading m p a k))
    (herr : err ≠ .noError) (hpins : s.pins a ≠ 0) :
    ((({ ({ s with cache := s.cache.dropLoad a m } : PageReads).endRead k
        ⟨m, p, a, .error err⟩ with
      error := update s.error a err } : PageReads).wakeAll a).goto i
        (.failed m p err (some k))).Inv env := by
  have hload := h.call hc
  have hk : (s.reads.set k ⟨m, p, a, .error err⟩)[k]? = some ⟨m, p, a, .error err⟩ :=
    List.getElem?_set_self (List.getElem?_eq_some_iff.1 hload.read).1
  have hself : update s.error a err a = err := update_self ..
  obtain ⟨-, f, -, hT, -⟩ := h.coherent.slot m hload.registered p _ hload.slot
  obtain ⟨hcoherent, hthrough⟩ := h.dropLoad hload
  refine h.ends hc ⟨m, p, a, .error err⟩ (.failed m p err (some k)) ⟨rfl, fun _ _ ↦ rfl,
    fun _ _ _ hba hs ↦ dropLoad_slots hba hs, rfl, fun b hba ↦ update_of_ne hba _ _, rfl,
    rfl, rfl, fun b ↦ rfl, fun b ↦ ?_⟩ rfl hcoherent hthrough ⟨a, hk⟩
    (fun _ _ ↦ ⟨hload.registered, by rw [hT]; rfl, .inr ⟨?_, ?_⟩⟩)
    fun _ ↦ ⟨h.coherent.load _ hload.load, Nat.pos_of_ne_zero hpins⟩
  · change _ = s.freed.count b + if update s.error a err b = .noError then 0 else 1
    rw [error_toNat]
    by_cases hba : b = a
    · subst hba
      rw [update_self, if_pos hload.error, if_pos rfl, if_neg herr]
    · rw [update_of_ne hba, if_neg hba]
      rfl
  · change (s.reads.set k ⟨m, p, a, .error err⟩)[k]? =
      some ⟨m, p, a, .error (update s.error a err a)⟩
    rw [hself]
    exact hk
  · change update s.error a err a ≠ .noError
    rw [hself]
    exact herr

/-- **A read fails and no task waits for it**: the page is freed. -/
theorem Inv.failsAlone (h : s.Inv env) (hc : s.calls[i]? = some (.loading m p a k))
    (hpins : s.pins a = 0) :
    (((({ s with cache := s.cache.dropLoad a m } : PageReads).endRead k
      ⟨m, p, a, .error err⟩).freePage a).goto i (.failed m p err (some k))).Inv env := by
  have hload := h.call hc
  obtain ⟨hcoherent, hthrough⟩ := h.dropLoad hload
  have hnone : ∀ (j m p k : ℕ), s.calls[j]? ≠ some (.waiting m p a k) := fun j _ _ _ hj ↦
    absurd hpins (h.pins_pos hj rfl).ne'
  have hwake : s.calls.map (wake a) = s.calls := by
    refine (map_congr_left fun c hc ↦ wake_of_ne fun m p k heq ↦ ?_).trans (map_id _)
    obtain ⟨j, hj⟩ := mem_iff_getElem?.1 hc
    exact hnone j m p k (heq ▸ hj)
  refine h.ends hc ⟨m, p, a, .error err⟩ (.failed m p err (some k)) ⟨rfl,
    fun b hba ↦ update_of_ne hba _ _, fun _ _ _ hba hs ↦ dropLoad_slots hba hs, rfl,
    fun b hba ↦ update_of_ne hba _ _, rfl, rfl, by rw [hwake]; rfl, fun b ↦ rfl,
    fun b ↦ ?_⟩ rfl
    (hcoherent.failWrite (h.coherent.load _ hload.load) (h.coherent.notMem_dropLoad hload.load))
    (hthrough.failWrite a) ⟨a, List.getElem?_set_self (List.getElem?_eq_some_iff.1 hload.read).1⟩
    (fun j hj ↦ absurd hj (hnone j m p k)) fun herr ↦ absurd (update_self ..) herr
  change _ = (a :: s.freed).count b +
    if update s.error a .noError b = .noError then 0 else 1
  rw [error_toNat, count_cons]
  by_cases hba : b = a
  · simp [hba, hload.error]
  · simp [hba, Ne.symm hba]

/-- **The last task leaves a page whose read has failed**, and frees it. -/
theorem Inv.last (h : s.Inv env) (hc : s.calls[i]? = some (.woken m p a k))
    (herr : s.error a ≠ .noError) (hlast : (s.unpin a).pins a = 0) :
    (((s.unpin a).goto i (.failed m p (s.error a) (some k))).freePage a).Inv env := by
  have hwoken := h.call hc
  obtain ⟨hdet, hno, -⟩ := h.error a herr
  have hunpin := unpin_pins (h.pins_pos hc rfl)
  have hpage : ∀ b, b ≠ a → (s.cache.failWrite a).pages b = s.cache.pages b := fun b hba ↦
    update_of_ne hba _ _
  have hpins : ∀ b, (s.unpin a).pins b = ((s.calls.set i (.failed m p (s.error a)
      (some k))).filterMap handle?).count b := fun b ↦ by
    have hcount := count_handles_set hc (.failed m p (s.error a) (some k)) b
    have hb := hunpin b
    have hold := h.pins b
    change (some a : Option ℕ).toList.count b + _ = 0 + _ at hcount
    rw [count_toList] at hcount
    omega
  refine ⟨h.coherent.failWrite hdet hno, h.through.failWrite a, hpins, ?_, fun x hx ↦ ?_,
    fun b hb ↦ ?_, fun b ↦ ?_⟩
  · have hperm := filterMap_set loads? hc (.failed m p (s.error a) (some k))
    exact hperm.trans h.loads
  · have haddr : x.addr? ≠ some a := by
      intro ha
      cases x with
      | idle | failed => simp [addr?] at ha
      | loading m' p' b k' =>
        cases ha
        obtain heq | ⟨j, -, hj⟩ := mem_set_cases hx
        · cases heq
        · have hload := (h.call hj).load
          exact hno (mem_map.2 ⟨_, hload, rfl⟩)
      | waiting | woken | holding =>
        have hpos : 0 < (s.unpin a).pins a := by
          rw [hpins a]
          exact count_pos_iff.2 (mem_filterMap.2 ⟨_, hx, ha⟩)
        exact absurd hlast hpos.ne'
    have hok : s.CallOk env x := by
      obtain rfl | ⟨j, -, hj⟩ := mem_set_cases hx
      · obtain ⟨-, hno, -⟩ | ⟨hread, -⟩ := hwoken.read
        · exact absurd hno herr
        · exact ⟨a, hread⟩
      · exact h.call hj
    refine hok.frame rfl (fun _ _ hr _ ↦ hr) fun b hb ↦ ?_
    have hba : b ≠ a := fun heq ↦ haddr (heq ▸ hb)
    exact ⟨hpage b hba, update_of_ne hba _ _, rfl, fun _ hm ↦ hm, fun _ _ _ hs ↦ hs,
      fun _ _ hr _ ↦ hr⟩
  · have hba : b ≠ a := fun heq ↦ hb (by rw [heq]; exact update_self ..)
    have hb' : s.error b ≠ .noError := by
      rw [← show update s.error a .noError b = s.error b
        from update_of_ne hba _ _]
      exact hb
    obtain ⟨hdet', hno', hpos⟩ := h.error b hb'
    have hp := hunpin b
    rw [if_neg hba] at hp
    refine ⟨?_, hno', ?_⟩
    · change ((s.cache.failWrite a).pages b).status = .detached
      rw [hpage b hba]
      exact hdet'
    · change 0 < (s.unpin a).pins b
      omega
  · have hfreed := h.freed b
    change s.reads.countP _ = (a :: s.freed).count b +
      if update s.error a .noError b = .noError then 0 else 1
    rw [hfreed, count_cons]
    by_cases hba : b = a
    · simp [hba, herr]
    · simp [hba, Ne.symm hba]

/-! ### A turn of the loop -/

/-- A page that is being read is read by a call, through the same snapshot. -/
theorem Inv.exists_loading (h : s.Inv env) (hm : env.registered m = true)
    (hs : s.cache.slots m p = some (.pointer a)) (hdet : (s.cache.pages a).status = .detached) :
    ∃ j k : ℕ, s.calls[j]? = some (.loading m p a k) := by
  have hload := h.through m hm p a hs hdet
  have hmem : a ∈ s.loading := h.loads.mem_iff.2 (mem_map.2 ⟨_, hload, rfl⟩)
  obtain ⟨c, hc, ha⟩ := mem_filterMap.1 hmem
  cases c with
  | loading m' p' b k =>
    cases ha
    have hflight := h.calls _ hc
    -- the read goes through one snapshot, and the page is of one logical page
    have hmm : m' = m := congrArg Prod.snd
      (inj_on_of_nodup_map h.coherent.nodup hflight.load hload rfl)
    subst hmm
    obtain ⟨hid, -⟩ := h.coherent.slot m' hm p _ hs
    obtain ⟨hid', -⟩ := h.coherent.slot m' hm p' _ hflight.slot
    have hpp : p' = p := some.inj (hid'.symm.trans hid)
    subst hpp
    obtain ⟨j, hj⟩ := mem_iff_getElem?.1 hc
    exact ⟨j, k, hj⟩
  | idle | waiting | woken | holding | failed => simp [loads?] at ha

theorem recycle_slots_ne {b : ℕ} (hno : ∀ b, s.cache.slots m p ≠ some (.pointer b)) :
    (s.cache.recycle env.registered a).slots m p ≠ some (.pointer b) := by
  intro hs
  change (if env.registered m then s.cache.unswizzled a m else s.cache.slots m) p = _ at hs
  split at hs
  · exact hno b (slots_of_unswizzled hs)
  · exact hno b hs

/-- **`AllocPage`** gives a free page, and leaves the slot that is to point to it. -/
theorem Inv.alloc (h : s.Inv env) (ha : s.allocPage env a = some s')
    (hno : ∀ b, s.cache.slots m p ≠ some (.pointer b)) :
    s'.Inv env ∧ s'.calls = s.calls ∧ (s'.cache.pages a).status = .free ∧
      ∀ b, s'.cache.slots m p ≠ some (.pointer b) := by
  rw [allocPage] at ha
  split at ha
  · next hfree =>
    cases ha
    exact ⟨h, rfl, hfree.2, hno⟩
  · obtain ⟨⟨-, -, hev⟩, rfl⟩ := ite_some_none_eq_some.1 ha
    refine ⟨h.evict hev, rfl, ?_, fun b ↦ recycle_slots_ne hno⟩
    simp [recycle]

/-- **A turn of the loop of `FindPage`.** -/
theorem Inv.findPage (h : s.Inv env) (hc : s.calls[i]? = some .idle)
    (hm : env.registered m = true) {a? : Option ℕ} (hf : s.findPage env i m p a? = some s') :
    s'.Inv env := by
  rw [PageReads.findPage.eq_def] at hf
  split at hf
  · next a hs =>
    split at hf
    · next hdet =>
      cases hf
      obtain ⟨j, k, hj⟩ := h.exists_loading hm hs hdet
      have hflight := h.call hj
      refine h.take hc rfl rfl rfl rfl ?_
      rw [hflight.current]
      exact hflight
    · next hdet =>
      cases hf
      obtain ⟨hid, f, -, hT, ⟨hact, hcontent⟩ | ⟨hdet', -⟩⟩ := h.coherent.slot m hm p _ hs
      · exact h.take hc rfl rfl rfl rfl ⟨hact, hid, f, hT, hcontent⟩
      · exact absurd hdet' hdet
  · next hno =>
    have hno' : ∀ b, s.cache.slots m p ≠ some (.pointer b) := hno
    cases a? with
    | none =>
      obtain ⟨-, rfl⟩ := ite_some_none_eq_some.1 hf
      exact h.goto hc rfl rfl rfl rfl rfl
    | some a =>
      obtain ⟨s₁, hs₁, hf⟩ := bind_eq_some_iff.1 hf
      obtain ⟨f, hfile, rfl⟩ := map_eq_some_iff.1 hf
      obtain ⟨hinv, hcalls, hfree, hno₁⟩ := h.alloc hs₁ hno'
      rw [hinv.coherent.toFile_eq hm] at hfile
      exact hinv.load (hcalls ▸ hc) rfl rfl hm hno₁ hfile hfree

/-- **Every step keeps the invariant.** -/
theorem Inv.step (h : s.Inv env) {e : FindEvent} (hstep : e.step env s = some s') :
    s'.Inv env := by
  cases e with
  | find j m p a? =>
    obtain ⟨⟨hc, hm, -⟩, hf⟩ := ite_none_right_eq_some.1 hstep
    exact h.findPage hc hm hf
  | resume j a? =>
    rw [FindEvent.step] at hstep
    split at hstep
    · next m p a k hc =>
      have hwoken := h.call hc
      split at hstep
      · next herr =>
        cases hstep
        split
        · next hlast => exact h.last hc herr hlast
        · next hmore =>
          have hunpin := unpin_pins (h.pins_pos hc rfl) a
          change (s.unpin a).pins a ≠ 0 at hmore
          rw [if_pos rfl] at hunpin
          obtain ⟨-, hno, -⟩ | ⟨hread, -⟩ := hwoken.read
          · exact absurd hno herr
          · exact h.drop hc rfl rfl rfl ⟨a, hread⟩ (.inr (by omega))
      · next hno =>
        have hdrop : ((s.unpin a).goto j .idle).Inv env :=
          h.drop hc rfl rfl rfl trivial (.inl (Decidable.of_not_not hno))
        refine hdrop.findPage ?_ hwoken.registered hstep
        exact List.getElem?_set_self (List.getElem?_eq_some_iff.1 hc).1
    · cases hstep
  | loaded j =>
    rw [FindEvent.step] at hstep
    split at hstep
    · next m p a k hc =>
      cases hstep
      exact h.loaded hc
    · cases hstep
  | loadFails j err =>
    rw [FindEvent.step] at hstep
    split at hstep
    · next m p a k hc =>
      obtain ⟨herr, hstep⟩ := ite_none_left_eq_some.1 hstep
      cases hstep
      split
      · next hpins => exact h.fails hc herr hpins
      · next hpins => exact h.failsAlone hc (Decidable.of_not_not hpins)
    · cases hstep
  | evict a =>
    obtain ⟨hev, rfl⟩ := ite_some_none_eq_some.1 hstep
    exact h.evict hev
  | release j =>
    rw [FindEvent.step] at hstep
    split at hstep
    · next m p a hc =>
      cases hstep
      have hhold := h.call hc
      refine h.drop hc rfl rfl rfl trivial (.inl ?_)
      by_contra herr
      cases (h.error a herr).1.symm.trans hhold.1
    · next hc =>
      cases hstep
      exact h.goto hc rfl rfl rfl rfl trivial
    · cases hstep

/-! ### Every run -/

/-- **Nothing is under way**: the slots of the snapshots can be relied on, no cached page is pinned
or being read, and no task has called `FindPage`. -/
structure AtRest (env : SnapshotEnv) (s : PageReads) : Prop where
  coherent : Swizzling.Coherent env.filePage (fun m ↦ env.registered m = true) s.cache
  loads : s.cache.loads = []
  listed : ∀ a, (s.cache.pages a).status ≠ .detached
  pins : ∀ a, s.pins a = 0
  error : ∀ a, s.error a = .noError
  calls : ∀ c ∈ s.calls, c = .idle
  reads : s.reads = []
  freed : s.freed = []

theorem AtRest.inv (h : s.AtRest env) : s.Inv env := by
  have hnone : ∀ f : FindCall → Option ℕ, f .idle = none → s.calls.filterMap f = [] :=
    fun f hf ↦ filterMap_eq_nil_iff.2 fun c hc ↦ by rw [h.calls c hc, hf]
  refine ⟨h.coherent, fun m _ p a _ hdet ↦ absurd hdet (h.listed a), fun a ↦ ?_, ?_,
    fun c hc ↦ ?_, fun a ha ↦ absurd (h.error a) ha, fun a ↦ ?_⟩
  · rw [h.pins, handles, hnone _ rfl]
    rfl
  · rw [loading, hnone _ rfl, h.loads]
    exact .nil
  · rw [h.calls c hc]
    trivial
  · rw [h.reads, h.freed, if_pos (h.error a)]
    rfl

/-- **Lookups are as they should be.** -/
structure Served (env : SnapshotEnv) (s : PageReads) : Prop where
  /-- A page of a snapshot is read by one call at a time. -/
  single : ∀ {i j m p a b k l : ℕ}, s.calls[i]? = some (.loading m p a k) →
    s.calls[j]? = some (.loading m p b l) → i = j
  /-- While it is read, its cached page is on no list, and stays the page's. -/
  underLoad : ∀ {i m p a k : ℕ}, s.calls[i]? = some (.loading m p a k) →
    (s.cache.pages a).status = .detached ∧ s.cache.slots m p = some (.pointer a) ∧
      s.reads[k]? = some ⟨m, p, a, .inFlight⟩
  waiting : ∀ {i m p a k : ℕ}, s.calls[i]? = some (.waiting m p a k) →
    ∃ j : ℕ, s.calls[j]? = some (.loading m p a k)
  /-- A handle is to a page with the content of the file page the snapshot gives it. -/
  holding : ∀ {i m p a : ℕ}, s.calls[i]? = some (.holding m p a) →
    (s.cache.pages a).status = .active ∧ (s.cache.pages a).pageId = some p ∧
      ∃ f, env.filePage m p = some f ∧ (s.cache.pages a).content = s.cache.disk f
  /-- An error is that of the read the call made or waited for, or there was no cached page. -/
  failed : ∀ {i m p : ℕ} {err : KvError} {read? : Option ℕ},
    s.calls[i]? = some (.failed m p err read?) →
    (∃ k a, read? = some k ∧ s.reads[k]? = some ⟨m, p, a, .error err⟩) ∨
      read? = none ∧ err = .outOfMem
  /-- A cached page is freed once for each read into it that fails, at once or when the last task
  has left it. -/
  freed : ∀ a, s.reads.countP (failedInto a) =
    s.freed.count a + if s.error a = .noError then 0 else 1
  /-- Until then it is on no list, and there is such a task. -/
  left : ∀ a, s.error a ≠ .noError → (s.cache.pages a).status = .detached ∧
    ∃ i m p k : ℕ, s.calls[i]? = some (.woken m p a k)

theorem Inv.served (h : s.Inv env) : s.Served env := by
  refine ⟨fun {i j m p a b k l} hi hj ↦ ?_, fun hi ↦ ?_, fun {i m p a k} hi ↦ ?_, h.call,
    fun {i m p err read?} hi ↦ ?_, h.freed, fun a ha ↦ ?_⟩
  · have hload := h.call hi
    have hload' := h.call hj
    have hab : a = b := Slot.pointer.inj (some.inj (hload.slot.symm.trans hload'.slot))
    subst hab
    by_contra hne
    obtain haddr | heq := h.others hi hj (Ne.symm hne)
    · exact haddr rfl
    · cases heq
  · have hload := h.call hi
    exact ⟨h.coherent.load _ hload.load, hload.slot, hload.read⟩
  · have hflight := h.call hi
    obtain ⟨j, k', hj⟩ := h.exists_loading hflight.registered hflight.slot
      (h.coherent.load _ hflight.load)
    have hkk : k' = k := (h.call hj).current.symm.trans hflight.current
    exact ⟨j, hkk ▸ hj⟩
  · have hfailed := h.call hi
    cases read? with
    | none => exact .inr ⟨rfl, hfailed⟩
    | some k =>
      obtain ⟨a, hread⟩ := hfailed
      exact .inl ⟨k, a, rfl, hread⟩
  · obtain ⟨hdet, hno, hpos⟩ := h.error a ha
    refine ⟨hdet, ?_⟩
    rw [h.pins] at hpos
    obtain ⟨c, hc, hhandle⟩ := mem_filterMap.1 (count_pos_iff.1 hpos)
    have hcall := h.calls c hc
    cases c with
    | woken m p b k =>
      cases hhandle
      obtain ⟨j, hj⟩ := mem_iff_getElem?.1 hc
      exact ⟨j, m, p, k, hj⟩
    | waiting m p b k =>
      cases hhandle
      exact absurd hcall.error ha
    | holding m p b =>
      cases hhandle
      cases hcall.1.symm.trans hdet
    | idle | loading | failed => simp [handle?] at hhandle

/-- A call that is not where one has got to was there before. -/
theorem getElem?_of_set {j : ℕ} (hne : c' ≠ c) (h : (l.set j c')[i]? = some c) :
    l[i]? = some c := by
  by_cases hji : j = i
  · subst hji
    obtain ⟨hlt, heq⟩ := List.getElem?_eq_some_iff.1 h
    rw [getElem_set_self] at heq
    exact absurd heq hne
  · rwa [getElem?_set_ne hji] at h

theorem allocPage_calls (h : s.allocPage env a = some s') :
    s'.calls = s.calls ∧ s'.freed = s.freed := by
  rw [allocPage] at h
  split at h
  · cases h
    exact ⟨rfl, rfl⟩
  · obtain ⟨-, rfl⟩ := ite_some_none_eq_some.1 h
    exact ⟨rfl, rfl⟩

/-- **What a step does to the calls that fail and to the pages that are freed.** -/
structure Lawful (env : SnapshotEnv) (s s' : PageReads) : Prop where
  /-- A call is refused a cached page only where every one is pinned, or on no list. -/
  outOfMem : ∀ {i m p : ℕ}, s'.calls[i]? = some (.failed m p .outOfMem none) →
    s.calls[i]? = some (.failed m p .outOfMem none) ∨ s.allPinned env
  /-- A page is freed when no call is about it any more. -/
  freed : s'.freed = s.freed ∨
    ∃ a, s'.freed = a :: s.freed ∧ ∀ c ∈ s'.calls, c.addr? ≠ some a

theorem findPage_lawful {j : ℕ} {a? : Option ℕ} (h : s.findPage env j m p a? = some s') :
    Lawful env s s' := by
  rw [PageReads.findPage.eq_def] at h
  split at h
  · split at h <;> cases some.inj h <;>
      exact ⟨fun hi ↦ .inl (getElem?_of_set (by simp) hi), .inl rfl⟩
  · cases a? with
    | none =>
      obtain ⟨hpinned, rfl⟩ := ite_some_none_eq_some.1 h
      exact ⟨fun _ ↦ .inr hpinned, .inl rfl⟩
    | some a =>
      obtain ⟨s₁, hs₁, h⟩ := bind_eq_some_iff.1 h
      obtain ⟨f, -, rfl⟩ := map_eq_some_iff.1 h
      obtain ⟨hcalls, hfreed⟩ := allocPage_calls hs₁
      exact ⟨fun hi ↦ .inl (hcalls ▸ getElem?_of_set (by simp) hi), .inl hfreed⟩

/-- A pin less makes no page one that cannot be evicted. -/
theorem allPinned_of_unpin (h : ((s.unpin a).goto i c).allPinned env) : s.allPinned env := by
  refine ⟨h.1, fun b hb hev ↦ h.2 b hb ⟨hev.1, ?_⟩⟩
  change update s.pins a (s.pins a - 1) b = 0
  by_cases hba : b = a
  · subst hba
    rw [update_self, hev.2]
  · rw [update_of_ne hba, hev.2]

theorem getElem?_of_map_wake {b : ℕ} {read? : Option ℕ}
    (h : (l.map (wake b))[i]? = some (.failed m p err read?)) :
    l[i]? = some (.failed m p err read?) := by
  rw [getElem?_map] at h
  obtain ⟨c, hc, hwake⟩ := map_eq_some_iff.1 h
  rw [wake.eq_def] at hwake
  split at hwake
  · split at hwake <;> cases hwake
  · rwa [hwake] at hc

theorem freePage_status (s : PageReads) (a : ℕ) :
    ((s.freePage a).cache.pages a).status = .free := by
  simp [freePage, failWrite]

theorem Inv.lawful (h : s.Inv env) {e : FindEvent} (hstep : e.step env s = some s') :
    Lawful env s s' := by
  have hinv := h.step hstep
  -- a page that is freed is on the list of free pages, where no call has one
  have hfree : ∀ {b}, (s'.cache.pages b).status = .free → ∀ c ∈ s'.calls, c.addr? ≠ some b :=
    fun hst c hc haddr ↦ hinv.status_of_addr hc haddr hst
  cases e with
  | find j m p a? =>
    obtain ⟨-, hf⟩ := ite_none_right_eq_some.1 hstep
    exact findPage_lawful hf
  | resume j a? =>
    rw [FindEvent.step] at hstep
    split at hstep
    · next m p a k hc =>
      split at hstep
      · cases hstep
        split
        · next hlast =>
          rw [if_pos hlast] at hfree
          exact ⟨fun hi ↦ .inl (getElem?_of_set (by simp) hi),
            .inr ⟨a, rfl, hfree (freePage_status _ a)⟩⟩
        · exact ⟨fun hi ↦ .inl (getElem?_of_set (by simp) hi), .inl rfl⟩
      · have hlaw := findPage_lawful hstep
        refine ⟨fun hi ↦ ?_, hlaw.freed⟩
        obtain hi | hpinned := hlaw.outOfMem hi
        · exact .inl (getElem?_of_set (by simp) hi)
        · exact .inr (allPinned_of_unpin hpinned)
    · cases hstep
  | loaded j =>
    rw [FindEvent.step] at hstep
    split at hstep
    · cases hstep
      exact ⟨fun hi ↦ .inl (getElem?_of_map_wake (getElem?_of_set (by simp) hi)), .inl rfl⟩
    · cases hstep
  | loadFails j err =>
    rw [FindEvent.step] at hstep
    split at hstep
    · next m p a k hc =>
      obtain ⟨-, hstep⟩ := ite_none_left_eq_some.1 hstep
      cases hstep
      split
      · exact ⟨fun hi ↦ .inl (getElem?_of_map_wake (getElem?_of_set (by simp) hi)), .inl rfl⟩
      · next hpins =>
        rw [if_neg hpins] at hfree
        exact ⟨fun hi ↦ .inl (getElem?_of_set (by simp) hi),
          .inr ⟨a, rfl, hfree (freePage_status _ a)⟩⟩
    · cases hstep
  | evict a =>
    obtain ⟨-, rfl⟩ := ite_some_none_eq_some.1 hstep
    exact ⟨.inl, .inl rfl⟩
  | release j =>
    rw [FindEvent.step] at hstep
    split at hstep
    · cases hstep
      exact ⟨fun hi ↦ .inl (getElem?_of_set (by simp) hi), .inl rfl⟩
    · cases hstep
      exact ⟨fun hi ↦ .inl (getElem?_of_set (by simp) hi), .inl rfl⟩
    · cases hstep

/-- Nothing is cached, and no task has called `FindPage`. -/
def cold (disk : ℕ → Option ℕ) (tasks : ℕ) : PageReads where
  cache := { Swizzling.Cache.empty with disk := disk }
  calls := List.replicate tasks .idle

theorem atRest_cold (env : SnapshotEnv) (disk : ℕ → Option ℕ) (tasks : ℕ) :
    (cold disk tasks).AtRest env where
  coherent :=
    ⟨by simp [cold, empty],
      fun _ hx ↦ absurd hx not_mem_nil, nodup_nil⟩
  loads := rfl
  listed _ hdet := nomatch hdet
  pins _ := rfl
  error _ := rfl
  calls _ hc := (mem_replicate.1 hc).2
  reads := rfl
  freed := rfl

/-- **In every interleaving** of lookups, evictions and reads that fail, a page of a snapshot is
read by one call at a time, and its cached page is not evicted meanwhile; a call gets the page, the
error of the read it made or waited for, or, if every cached page is pinned or being read, that
there is none to be had; and a page is freed once after a read has failed, when the last task has
left it. -/
theorem served_of_runs {s₀ : PageReads} (h₀ : s₀.AtRest env) (hrun : FindRuns env s₀ s) :
    s.Served env ∧ ∀ (e : FindEvent) (s' : PageReads), e.step env s = some s' →
      Lawful env s s' := by
  have hinv : s.Inv env :=
    hrun.invariant (Inv env) h₀.inv fun h _ hstep ↦ h.step hstep
  exact ⟨hinv.served, fun _ _ hstep ↦ hinv.lawful hstep⟩

/-- A read fails while a second task waits for it; a third one reads the page anew before the second
has left the cached page. -/
theorem served_of_runs_failed_read :
    ∃ (env : SnapshotEnv) (s : PageReads), FindRuns env (cold some 3) s ∧
      s.calls = [.failed 0 5 .ioFail (some 0), .failed 0 5 .ioFail (some 0), .holding 0 5 1] ∧
      s.freed = [0] ∧ s.Served env := by
  obtain ⟨env, henv⟩ : ∃ env : SnapshotEnv, env = ⟨fun _ p ↦ some (p + 10), fun _ ↦ true, 2⟩ :=
    ⟨_, rfl⟩
  obtain ⟨s, hrun, hs⟩ : ∃ s, FindRuns env (cold some 3) s ∧
      decide (s.calls = [.failed 0 5 .ioFail (some 0), .failed 0 5 .ioFail (some 0),
        .holding 0 5 1] ∧ s.freed = [0]) = true := by
    subst henv
    exact Transition.exists_reach_of_exec
      [.find 0 0 5 (some 0), .find 1 0 5 none, .loadFails 0 .ioFail, .find 2 0 5 (some 1),
        .resume 1 none, .loaded 2]
      (by decide +kernel)
  obtain ⟨hcalls, hfreed⟩ := of_decide_eq_true hs
  exact ⟨env, s, hrun, hcalls, hfreed, (served_of_runs (atRest_cold env some 3) hrun).1⟩

/-- **A lookup can fail without a read.** The pool has one page, and a task holds it: another page
is refused to a second task, which has waited for nothing. -/
theorem fails_without_read :
    ∃ (env : SnapshotEnv) (s : PageReads), (cold some 2).AtRest env ∧
      FindRuns env (cold some 2) s ∧ s.calls = [.holding 0 5 0, .failed 0 6 .outOfMem none] ∧
      ∀ r ∈ s.reads, r.page ≠ 6 := by
  obtain ⟨env, henv⟩ : ∃ env : SnapshotEnv, env = ⟨fun _ p ↦ some (p + 10), fun _ ↦ true, 1⟩ :=
    ⟨_, rfl⟩
  obtain ⟨s, hrun, hs⟩ : ∃ s, FindRuns env (cold some 2) s ∧
      decide (s.calls = [.holding 0 5 0, .failed 0 6 .outOfMem none] ∧
        ∀ r ∈ s.reads, r.page ≠ 6) = true := by
    subst henv
    exact Transition.exists_reach_of_exec [.find 0 0 5 (some 0), .loaded 0, .find 1 0 6 none]
      (by decide +kernel)
  exact ⟨env, s, atRest_cold env some 2, hrun, of_decide_eq_true hs⟩

end PageReads

end EloqStore
