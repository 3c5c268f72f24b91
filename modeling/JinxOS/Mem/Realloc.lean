import JinxOS.Mem.Resize

/-!
# Calls of `krealloc`

`krealloc` takes `mem_lock`, and what it does then has been worked out in `JinxOS.Mem.Resize`.  For
a well-formed heap, a live pointer and a size of at most `MAX_HEAP` there are three outcomes
(`krealloc_fits`, `krealloc_grows`, `krealloc_moves`), and two defects:

* after the break has been moved, the memory between the block and the new epilogue belongs to no
  block, unless the block lacked whole pages (`krealloc_heap_iff`);
* a block that has to move never does: `kmalloc` is called with `mem_lock` held, and the assertion
  at the start of `spinlock_acquire` fails (`krealloc_data_iff`).

In all other cases the data of all clients is kept.
-/

namespace JinxOS

/-! ## The function -/

/-- The bytes of the clients after `krealloc` has returned `r` for the block at `a`. -/
structure KeepsData (s : KMem) (bs : List Blk) (a n size r : Nat) (s' : KMem) : Prop where
  /-- The data is at the new address, as far as it fits. -/
  data : ∀ i, i < min (n - 4) size → s'.mem (r + i) = s.mem (a + 4 + i)
  /-- The payload of every other block is what it was. -/
  others : ∀ a' j, Used bs a' j → a' ≠ a → ∀ y, a' + 4 ≤ y → y < a' + j → s'.mem y = s.mem y

section
variable {s : KMem} {bs : List Blk} {zu : Bool} {fl : List Nat} {a n size : Nat}

/-- The allocator with `mem_lock` taken. -/
def KMem.locked (s : KMem) : KMem := { s with cpu := s.cpu.acquired, memLock := s.cpu.holding }

/-- The allocator after `mem_lock` has been taken and given back. -/
def KMem.unlocked (s : KMem) : KMem :=
  { s with cpu := s.cpu.acquired.released, memLock := spinlockInit }

theorem KMem.InRegion.sizes {L : Layout} (h : s.InRegion L) (hsize : size ≤ maxHeap) :
    (size + 4 ≤ validSize size ∧ 16 ≤ validSize size ∧ validSize size % 4 = 0) ∧
      s.kbrk + validSize size + 2 * 4096 < 2 ^ 32 := by
  have hbase := L.base_bounds
  have hbrk := h.brk
  rw [maxHeap] at *
  obtain ⟨hv, h16, hmod, hle⟩ := validSize_spec size (by omega)
  exact ⟨⟨hv, h16, hmod⟩, by omega⟩

theorem KHeap.locked (h : KHeap s bs zu fl) :
    Heap s.locked.mem s.locked.kbrkMin s.locked.kbrk bs zu fl := h.heap

section
variable (h : KHeap s bs zu fl) (hu : Used bs a n) (hpos : 0 < size)
include h hu hpos

/-- `krealloc` of a live pointer runs the section with `mem_lock` held. -/
theorem krealloc_eq :
    krealloc s (a + 4) size = kreallocBlock s.locked a size >>= fun r =>
      spinlockRelease r.2.cpu r.2.memLock >>= fun q =>
        Except.ok (Word.add r.1 4, { r.2 with cpu := q.1, memLock := q.2 }) := by
  obtain ⟨-, hhi, -⟩ := h.heap.used_bounds hu
  have hlt := h.heap.hi_lt
  rw [krealloc, if_neg (Nat.succ_ne_zero _), if_neg (by omega), h.unlocked, spinlockAcquire_init,
    ok_bind]
  rw [Word.add_sub_cancel]
  rfl

theorem krealloc_of_block {m : ByteMem} {r hi : Nat} (hr : r + 4 < 2 ^ 32)
    (hrun : kreallocBlock s.locked a size = .ok (r, { s.locked with kbrk := hi, mem := m })) :
    krealloc s (a + 4) size = .ok (r + 4, { s.unlocked with kbrk := hi, mem := m }) := by
  rw [krealloc_eq h hu hpos, hrun, ok_bind]
  dsimp only [KMem.locked]
  rw [spinlockRelease_acquired, ok_bind, Word.add_eq hr]
  rfl

variable {L : Layout} (hreg : s.InRegion L) (hsize : size ≤ maxHeap)
include hreg hsize

/-- **`krealloc` inside the heap** keeps the heap in order and the data of all clients. -/
theorem krealloc_fits (hfits : FitsAround s bs a (validSize size))
    (hend : ¬ ReachesEnd s bs a (validSize size)) :
    ∃ r s', krealloc s (a + 4) size = .ok (r, s') ∧
      (∃ bs' zu' fl', KHeap s' bs' zu' fl' ∧
        ∃ a' j, r = a' + 4 ∧ Used bs' a' j ∧ size + 4 ≤ j) ∧
      KeepsData s bs a n size r s' := by
  obtain ⟨⟨hv, h16, hmod⟩, -⟩ := hreg.sizes hsize
  obtain ⟨r, m', b, bs', zu', fl', hrun, rfl, rfl, hres⟩ :=
    kreallocBlock_fits h.locked hu h16 hmod hfits hend
  obtain ⟨j, hj, hused⟩ := hres.used
  have hnew : Used bs' r j := (hused r j).2 (.inr ⟨rfl, rfl⟩)
  have hbound := (hres.heap.used_bounds hnew).2.1
  have hlt := hres.heap.hi_lt
  refine ⟨_, _, krealloc_of_block h hu hpos (by omega) hrun,
    ⟨bs', zu', fl', ⟨hres.heap, rfl⟩, r, j, rfl, hnew, by omega⟩, ?_, hres.others⟩
  intro i hi
  have := hres.data (i + 4) (by omega) (by omega) (by omega)
  rw [show r + 4 + i = r + (i + 4) by omega, show b.addr + 4 + i = b.addr + (i + 4) by omega]
  exact this

/-- **`krealloc` at the end of the heap** keeps the data of all clients; it keeps the heap in order
if and only if the memory behind the block reads as used blocks. -/
theorem krealloc_grows (hend : ReachesEnd s bs a (validSize size)) :
    (s.kbrkMax < grownBrk s a (validSize size) → krealloc s (a + 4) size = .error sbrkPanic) ∧
    (grownBrk s a (validSize size) ≤ s.kbrkMax → ∃ s', krealloc s (a + 4) size = .ok (a + 4, s') ∧
      (∀ bs' zu' fl', KHeap s' bs' zu' fl' →
        ReadsUsed s.mem (a + validSize size) (grownBrk s a (validSize size) - 4)) ∧
      (ReadsUsed s.mem (a + validSize size) (grownBrk s a (validSize size) - 4) →
        ∃ bs' zu' fl', KHeap s' bs' zu' fl' ∧ ∃ j, Used bs' a j ∧ size + 4 ≤ j) ∧
      KeepsData s bs a n size (a + 4) s') := by
  obtain ⟨⟨hv, h16, hmod⟩, hfit⟩ := hreg.sizes hsize
  obtain ⟨m', hrun, hreads, hwell, hpay⟩ := kreallocBlock_grows h.locked hu h16 hmod hend hfit
  have hbrk : grownBrk s.locked a (validSize size) = grownBrk s a (validSize size) := rfl
  have hmax : s.locked.kbrkMax = s.kbrkMax := rfl
  rw [hbrk] at hrun hreads hwell
  rw [hmax] at hrun
  obtain ⟨-, hbound, -⟩ := h.heap.used_bounds hu
  constructor
  · intro hpanic
    rw [krealloc_eq h hu hpos, hrun, if_pos hpanic, error_bind]
  · intro hroom
    rw [if_neg (Nat.not_lt.2 hroom)] at hrun
    refine ⟨_, krealloc_of_block h hu hpos (by omega) hrun, ?_, ?_, ?_, ?_⟩
    · intro bs' zu' fl' hk
      exact hreads bs' zu' fl' hk.heap
    · intro hr
      obtain ⟨bs', zu', fl', hk, hu'⟩ := hwell hr
      exact ⟨bs', zu', fl', ⟨hk, rfl⟩, _, hu', hv⟩
    · intro i hi
      exact hpay _ (payload_iff.2 ⟨a, n, hu, by omega, by omega⟩)
    · intro a' j hu' _ y hy hy'
      exact hpay y (payload_iff.2 ⟨a', j, hu', hy, hy'⟩)

/-- **`krealloc` of a block that has to move** fails in `kmalloc`. -/
theorem krealloc_moves (hfits : ¬ FitsAround s bs a (validSize size))
    (hend : ¬ ReachesEnd s bs a (validSize size)) :
    krealloc s (a + 4) size = .error (.assertFailed "!spinlock_held(lk)") := by
  obtain ⟨⟨hv, h16, hmod⟩, hfit⟩ := hreg.sizes hsize
  have hheld : spinlockHeld s.cpu.acquired s.cpu.holding = true :=
    spinlockHeld_holding s.cpu.acquired
  have hne : Word.sub (validSize size) 4 ≠ 0 := by
    rw [Word.sub_eq]
    omega
  have hmalloc : kmalloc s.locked (Word.sub (validSize size) 4) =
      .error (.assertFailed "!spinlock_held(lk)") := by
    rw [kmalloc, if_neg hne, spinlockAcquire]
    change (assert _ (!spinlockHeld s.cpu.acquired s.cpu.holding) >>= _) >>= _ = _
    rw [hheld]
    rfl
  rw [krealloc_eq h hu hpos, kreallocBlock_moves h.locked hu h16 hfits hend, kreallocMove, hmalloc]
  rfl

end

/-- **When `krealloc` leaves a well-formed heap.**  It does, with a used block that is large enough
at the address it returns, if and only if it did not have to move the break or the memory between
the block and the new epilogue reads as used blocks. -/
theorem krealloc_heap_iff {L : Layout} (h : KHeap s bs zu fl) (hreg : s.InRegion L)
    (hu : Used bs a n) (hpos : 0 < size) (hsize : size ≤ maxHeap) {r : Nat} {s' : KMem}
    (hret : krealloc s (a + 4) size = .ok (r, s')) :
    (∃ bs' zu' fl', KHeap s' bs' zu' fl' ∧ ∃ a' j, r = a' + 4 ∧ Used bs' a' j ∧ size + 4 ≤ j) ↔
      (ReachesEnd s bs a (validSize size) →
        ReadsUsed s.mem (a + validSize size) (grownBrk s a (validSize size) - 4)) := by
  by_cases hend : ReachesEnd s bs a (validSize size)
  · obtain ⟨hpanic, hroom⟩ := krealloc_grows h hu hpos hreg hsize hend
    by_cases hmax : s.kbrkMax < grownBrk s a (validSize size)
    · rw [hpanic hmax] at hret
      cases hret
    · obtain ⟨s₁, hrun, hreads, hwell, -⟩ := hroom (Nat.not_lt.1 hmax)
      obtain ⟨rfl, rfl⟩ : a + 4 = r ∧ s₁ = s' := by simpa using hrun.symm.trans hret
      constructor
      · rintro ⟨bs', zu', fl', hheap, -⟩ -
        exact hreads bs' zu' fl' hheap
      · intro hr
        obtain ⟨bs', zu', fl', hheap, j, hu', hj⟩ := hwell (hr hend)
        exact ⟨bs', zu', fl', hheap, a, j, rfl, hu', hj⟩
  · refine iff_of_true ?_ fun hc => absurd hc hend
    by_cases hfits : FitsAround s bs a (validSize size)
    · obtain ⟨r₁, s₁, hrun, hheap, -⟩ := krealloc_fits h hu hpos hreg hsize hfits hend
      obtain ⟨rfl, rfl⟩ : r₁ = r ∧ s₁ = s' := by simpa using hrun.symm.trans hret
      exact hheap
    · rw [krealloc_moves h hu hpos hreg hsize hfits hend] at hret
      cases hret

/-- There is nothing between the block and the new epilogue if the block lacks whole pages. -/
theorem readsUsed_of_pages {k : Nat} (m : ByteMem) (hend : ReachesEnd s bs a k)
    (hfit : s.kbrk + (a + k - (s.kbrk - 4)) + 4096 < 2 ^ 32) (hbrk : 4 ≤ s.kbrk)
    (hpages : (a + k - (s.kbrk - 4)) % 4096 = 0) : ReadsUsed m (a + k) (grownBrk s a k - 4) := by
  obtain ⟨-, hle, hlt, hmod⟩ := memSbrk_round hfit
  have hreach := hend.2
  refine ⟨[], ⟨?_, rfl⟩, by simp⟩
  rw [grownBrk]
  omega

theorem not_readsUsed_zero {m : ByteMem} {z : Nat} (hzero : m.load a = 0) (hne : a ≠ z) :
    ¬ ReadsUsed m a z := by
  rintro ⟨gs, hgs, hread⟩
  cases gs with
  | nil => exact hne hgs.1
  | cons g gs =>
    obtain ⟨⟨rfl, -, hsize, -⟩, -⟩ := hgs
    have htag := (hread g (by simp)).2
    rw [hzero, Blk.tag] at htag
    omega

end

/-! ### A full heap -/

/-- The heap after `kmalloc(12)` and `kmalloc(131044)`, the first two calls: two blocks take up the
32 pages.  The memory above is zero. -/
def fullHeap : KMem where
  mem := ByteMem.store (ByteMem.store (ByteMem.store (fun _ => 0) 0xC0100004 19) 0xC0100014 131051)
    0xC011FFFC 3
  kbrkMin := 0xC0100000
  kbrk := 0xC0120000
  kbrkMax := 0xC0900000
  cpu := ⟨true, false, none, 0⟩
  memLock := spinlockInit

/-- The blocks of `fullHeap`. -/
def fullBlocks : List Blk := [⟨0xC0100004, 16, true, true⟩, ⟨0xC0100014, 131048, true, true⟩]

theorem fullHeap_load {w : Nat} (hw : w % 4 = 0) : fullHeap.mem.load w =
    if w = 0xC011FFFC then 3 else if w = 0xC0100014 then 131051 else
      if w = 0xC0100004 then 19 else 0 := by
  show ByteMem.load (ByteMem.store (ByteMem.store (ByteMem.store _ _ _) _ _) _ _) w = _
  rw [load_store (by decide) hw (by decide), load_store (by decide) hw (by decide),
    load_store (by decide) hw (by decide)]
  rfl

theorem fullHeap_kheap : KHeap fullHeap fullBlocks true [] := by
  have hfree : ∀ b ∈ fullBlocks, b.used = true := by decide
  refine ⟨⟨⟨by decide, by decide, by decide, ?_, ?_, ?_, ?_, ?_, List.nodup_nil, by simp⟩, ?_, ?_⟩,
    rfl⟩
  · exact ⟨⟨rfl, rfl, by decide, by decide⟩, ⟨rfl, rfl, by decide, by decide⟩, rfl, rfl⟩
  · intro b hb
    simp only [fullBlocks, List.mem_cons, List.not_mem_nil, or_false] at hb
    rcases hb with rfl | rfl
    · exact (fullHeap_load (by decide)).trans (by decide)
    · exact (fullHeap_load (by decide)).trans (by decide)
  · intro b hb hc
    rw [hfree b hb] at hc
    cases hc
  · exact (fullHeap_load (by decide)).trans (by decide)
  · have hhead : fullHeap.mem.load fullHeap.kbrkMin = 0 :=
      (fullHeap_load (by decide)).trans (by decide)
    rw [FreeList, hhead]
    exact nullList_nil
  · intro b hb hc
    rw [hfree b hb] at hc
    cases hc
  · exact List.isChain_cons_cons.2 ⟨.inl rfl, List.isChain_singleton _⟩

theorem fullHeap_inRegion : fullHeap.InRegion sampleLayout := by
  have hbase : sampleLayout.base = 0xC0100000 := by decide
  refine ⟨?_, ?_, ?_⟩ <;> rw [hbase] <;> decide

theorem fullBlocks_used : Used fullBlocks 0xC0100004 16 ∧ Used fullBlocks 0xC0100014 131048 :=
  ⟨⟨_, List.mem_cons_self, rfl, rfl, rfl⟩, ⟨_, List.mem_cons_of_mem _ List.mem_cons_self,
    rfl, rfl, rfl⟩⟩

theorem fullHeap_reachesEnd {k : Nat} (hk : 131048 < k) :
    ReachesEnd fullHeap fullBlocks 0xC0100014 k := by
  refine ⟨by unfold LastUsed; decide, ?_⟩
  show 0xC0120000 - 4 < 0xC0100014 + k
  omega

/-- Growing it by a page. -/
theorem krealloc_heap_iff_page : ∃ r s', krealloc fullHeap 0xC0100018 135140 = .ok (r, s') ∧
    (∃ bs' zu' fl', KHeap s' bs' zu' fl' ∧ ∃ a' j, r = a' + 4 ∧ Used bs' a' j ∧
      135140 + 4 ≤ j) := by
  have hv : validSize 135140 = 135144 := by decide
  have hend : ReachesEnd fullHeap fullBlocks 0xC0100014 (validSize 135140) :=
    fullHeap_reachesEnd (by rw [hv]; decide)
  obtain ⟨s', hrun, -⟩ := (krealloc_grows fullHeap_kheap fullBlocks_used.2 (by decide)
    fullHeap_inRegion (by decide) hend).2 (by rw [hv]; decide)
  refine ⟨_, s', hrun, ?_⟩
  refine (krealloc_heap_iff fullHeap_kheap fullHeap_inRegion fullBlocks_used.2
    (by decide) (by decide)
    hrun).2 fun _ => ?_
  exact readsUsed_of_pages _ hend (by rw [hv]; decide) (by decide) (by rw [hv]; decide)

/-- **A block is grown by 4 bytes.**  The break moves by a page, and the 4092 bytes between the
block and the epilogue belong to no block. -/
theorem not_kheap_krealloc : KHeap fullHeap fullBlocks true [] ∧ fullHeap.InRegion sampleLayout ∧
    Used fullBlocks 0xC0100014 131048 ∧
    ∃ r s', krealloc fullHeap 0xC0100018 131045 = .ok (r, s') ∧
      ∀ bs' zu' fl', ¬ KHeap s' bs' zu' fl' := by
  have hv : validSize 131045 = 131052 := by decide
  have hend : ReachesEnd fullHeap fullBlocks 0xC0100014 (validSize 131045) :=
    fullHeap_reachesEnd (by rw [hv]; decide)
  obtain ⟨s', hrun, hreads, -⟩ := (krealloc_grows fullHeap_kheap fullBlocks_used.2 (by decide)
    fullHeap_inRegion (by decide) hend).2 (by rw [hv]; decide)
  refine ⟨fullHeap_kheap, fullHeap_inRegion, fullBlocks_used.2, _, s', hrun,
    fun bs' zu' fl' hheap => ?_⟩
  refine not_readsUsed_zero ?_ ?_ (hreads bs' zu' fl' hheap)
  · rw [hv]
    exact (fullHeap_load (by decide)).trans (by decide)
  · rw [hv]
    decide

/-! ## The data of the clients -/

section
variable {s : KMem} {bs : List Blk} {zu : Bool} {fl : List Nat} {a n size : Nat}

/-- The region has room for the block at `a` to have `k` bytes: if that reaches beyond the end of
the heap, `mem_sbrk` can move the break far enough. -/
def RoomAt (s : KMem) (a k : Nat) : Prop := s.kbrk - 4 < a + k → grownBrk s a k ≤ s.kbrkMax

/-- The last used block either fits into the heap or reaches beyond its end. -/
theorem LastUsed.fitsAround {k : Nat} (h : KHeap s bs zu fl) (hu : Used bs a n) (hk : 0 < k)
    (hlast : LastUsed bs a) (hend : ¬ ReachesEnd s bs a k) : FitsAround s bs a k := by
  have hle : a + k ≤ s.kbrk - 4 := Nat.not_lt.1 fun hlt => hend ⟨hlast, hlt⟩
  obtain ⟨hlo, -, -⟩ := h.heap.used_bounds hu
  refine ⟨a, hlo, Nat.le_refl a, by omega, hle, fun c hc hused hne => .inl ?_⟩
  have hca := hlast c hc hused
  rcases h.heap.used_apart ⟨c, hc, hused, rfl, rfl⟩ hu hne with hap | hap
  · exact hap
  · omega

/-- **When `krealloc` returns with the data.**  It does if and only if the block can be resized
between the used blocks on either side, or is the last used block.  In all other cases an assertion
fails. -/
theorem krealloc_data_iff {L : Layout} (h : KHeap s bs zu fl) (hreg : s.InRegion L)
    (hu : Used bs a n) (hpos : 0 < size) (hsize : size ≤ maxHeap)
    (hroom : RoomAt s a (validSize size)) :
    (∃ r s', krealloc s (a + 4) size = .ok (r, s') ∧ KeepsData s bs a n size r s') ↔
      FitsAround s bs a (validSize size) ∨ LastUsed bs a := by
  obtain ⟨⟨-, h16, -⟩, -⟩ := hreg.sizes hsize
  by_cases hend : ReachesEnd s bs a (validSize size)
  · refine iff_of_true ?_ (.inr hend.1)
    obtain ⟨s', hrun, -, -, hdata⟩ := (krealloc_grows h hu hpos hreg hsize hend).2 (hroom hend.2)
    exact ⟨a + 4, s', hrun, hdata⟩
  · by_cases hfits : FitsAround s bs a (validSize size)
    · refine iff_of_true ?_ (.inl hfits)
      obtain ⟨r, s', hrun, -, hdata⟩ := krealloc_fits h hu hpos hreg hsize hfits hend
      exact ⟨r, s', hrun, hdata⟩
    · refine iff_of_false ?_ ?_
      · rintro ⟨r, s', hrun, -⟩
        rw [krealloc_moves h hu hpos hreg hsize hfits hend] at hrun
        cases hrun
      · rintro (hc | hlast)
        · exact hfits hc
        · exact hfits (hlast.fitsAround h hu (by omega) hend)

end

/-- The second block of the full heap can be grown. -/
theorem krealloc_data_iff_last : ∃ r s', krealloc fullHeap 0xC0100018 131045 = .ok (r, s') ∧
    KeepsData fullHeap fullBlocks 0xC0100014 131048 131045 r s' := by
  have hv : validSize 131045 = 131052 := by decide
  refine (krealloc_data_iff fullHeap_kheap fullHeap_inRegion fullBlocks_used.2
    (by decide) (by decide)
    ?_).2 (.inr (by unfold LastUsed; decide))
  rw [hv]
  exact fun _ => by decide

/-- **The first block of the full heap cannot be grown**, although most of the region is unused: an
assertion fails. -/
theorem krealloc_fails_full : KHeap fullHeap fullBlocks true [] ∧ fullHeap.InRegion sampleLayout ∧
    Used fullBlocks 0xC0100004 16 ∧ fullHeap.kbrk + roundUp (validSize 100) pgSize ≤
    fullHeap.kbrkMax ∧
    krealloc fullHeap 0xC0100008 100 = .error (.assertFailed "!spinlock_held(lk)") := by
  have hv : validSize 100 = 104 := by decide
  refine ⟨fullHeap_kheap, fullHeap_inRegion, fullBlocks_used.1, by rw [hv]; decide, ?_⟩
  refine krealloc_moves fullHeap_kheap fullBlocks_used.1 (by decide) fullHeap_inRegion
    (by decide) ?_ ?_
  · rintro ⟨x, hlo, hxa, hax, -, hx⟩
    have hnext := hx ⟨0xC0100014, 131048, true, true⟩ (by decide) rfl (by decide)
    rw [Blk.stop] at hnext
    change 0xC0100014 + 131048 ≤ x ∨ x + validSize 100 ≤ 0xC0100014 at hnext
    change 0xC0100000 + 4 ≤ x at hlo
    omega
  · rintro ⟨hlast, -⟩
    revert hlast
    unfold LastUsed
    decide

end JinxOS
