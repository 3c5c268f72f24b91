import JinxOS.Mem.Calls

/-!
# Initialisation, and the page allocator

`kmain` calls `init_mem` and then `init_kmm`.  The first sets up an empty byte heap at the bottom of
an 8 MB region, the second gives it 32 pages and makes one free block of them (`boot_spec`).  From
then on `kpalloc` takes pages from the top of the region (`kpalloc_spec`).
-/

namespace JinxOS

/-! ## `init_mem` and `init_kmm` -/

/-- `kbrk_min`: the first page boundary behind the kernel image. -/
def Layout.base (L : Layout) : Nat := roundUp L.kheap pgSize

theorem Layout.base_bounds (L : Layout) :
    L.base % 4096 = 0 ∧ 0xC0100000 ≤ L.base ∧ L.base ≤ 0xC1000000 := by
  have hlo := L.link_le
  have hhi := L.le_boot
  rw [Layout.base, roundUp_eq (by rw [pgSize]; omega), pgSize]
  omega

/-- The stores of `init_mm`: header, links and footer of the first block, the epilogue, and the
head of the free list. -/
def initMmMem (m : ByteMem) (lo : Nat) : ByteMem :=
  (((((m.store (lo + 4) 131066).store (lo + 8) 0).store (lo + 12) 0).store (lo + 131064)
    131066).store (lo + 131068) 1).store lo (lo + 4)

theorem initMmMem_heap {m : ByteMem} {lo : Nat} (hpos : 0 < lo) (hmod : lo % 4 = 0)
    (hfit : lo + 131072 < 2 ^ 32) :
    Heap (initMmMem m lo) lo (lo + 131072) [⟨lo + 4, 131064, false, true⟩] false [lo + 4] := by
  have hload : ∀ w, w % 4 = 0 → (initMmMem m lo).load w =
      if w = lo then lo + 4 else if w = lo + 131068 then 1 else if w = lo + 131064 then 131066
      else if w = lo + 12 then 0 else if w = lo + 8 then 0 else if w = lo + 4 then 131066
      else m.load w := by
    intro w hw
    rw [initMmMem, load_store hmod hw (by omega), load_store (by omega) hw (by omega),
      load_store (by omega) hw (by omega), load_store (by omega) hw (by omega),
      load_store (by omega) hw (by omega), load_store (by omega) hw (by omega)]
  have hhead : (initMmMem m lo).load lo = lo + 4 := by rw [hload lo hmod, if_pos rfl]
  have hheader : (initMmMem m lo).load (lo + 4) = 131066 := by
    rw [hload _ (by omega), if_neg (by omega), if_neg (by omega), if_neg (by omega),
      if_neg (by omega), if_neg (by omega), if_pos rfl]
  have hnext : (initMmMem m lo).load (lo + 4 + 4) = 0 := by
    rw [hload _ (by omega), if_neg (by omega), if_neg (by omega), if_neg (by omega),
      if_neg (by omega), if_pos (by omega)]
  have hfooter : (initMmMem m lo).load (lo + 131064) = 131066 := by
    rw [hload _ (by omega), if_neg (by omega), if_neg (by omega), if_pos rfl]
  have hend : (initMmMem m lo).load (lo + 131068) = 1 := by
    rw [hload _ (by omega), if_neg (by omega), if_pos rfl]
  have hstop : (⟨lo + 4, 131064, false, true⟩ : Blk).stop = lo + 131068 :=
    (Blk.stop_mk _ _ _ _).trans (by omega)
  have hlist : FreeList (initMmMem m lo) lo [lo + 4] := by
    refine ⟨?_, linked_singleton _, ?_⟩
    · rw [hhead, toPtr_pos (by omega), List.head?_cons]
    · intro x hx
      obtain rfl : lo + 4 = x := by simpa using hx
      rw [nextOf, hnext, toPtr_zero]
  have hrep : HeapRep (initMmMem m lo) lo (lo + 131072)
      [⟨lo + 4, 131064, false, true⟩] false [lo + 4] := by
    refine ⟨hpos, hmod, hfit, ⟨⟨rfl, rfl, ?_, ?_⟩, ?_, rfl⟩, ?_, ?_, ?_, hlist,
      List.nodup_singleton _, ?_⟩
    · show 16 ≤ 131064
      decide
    · show 131064 % 4 = 0
      decide
    · rw [hstop]
      omega
    · intro c hc
      rw [List.mem_singleton.1 hc]
      exact hheader
    · intro c hc _
      rw [List.mem_singleton.1 hc, hstop, show lo + 131068 - 4 = lo + 131064 by omega, hfooter]
      show SIZE 131066 = 131064
      decide
    · rw [show lo + 131072 - 4 = lo + 131068 by omega, hend]
      decide
    · intro x hx
      exact ⟨_, List.mem_singleton_self _, rfl, (List.mem_singleton.1 hx).symm⟩
  refine ⟨hrep, ?_, List.isChain_singleton _⟩
  intro c hc _
  rw [List.mem_singleton.1 hc]
  exact List.mem_singleton_self _

theorem initMm_eq {s : KMem} (hmod : s.kbrkMin % 4 = 0) (hbrk : s.kbrk = s.kbrkMin)
    (hfit : s.kbrkMin + 131072 + 4096 < 2 ^ 32) (hmax : s.kbrkMin + 131072 ≤ s.kbrkMax) :
    initMm s = .ok { s with mem := initMmMem s.mem s.kbrkMin, kbrk := s.kbrkMin + 131072 } := by
  have hsize : Word.mul 32 pgSize = 131072 := by decide
  have htotal : Word.sub 131072 8 = 131064 := by decide
  have htotal' : Word.sub 131064 4 = 131060 := by decide
  have hnext : Word.add (s.kbrkMin + 4) 4 = s.kbrkMin + 8 :=
    (Word.add_eq).trans (by omega)
  have hprev : Word.add (s.kbrkMin + 4) 8 = s.kbrkMin + 12 :=
    (Word.add_eq).trans (by omega)
  have hfoot : Word.add (s.kbrkMin + 4) 131060 = s.kbrkMin + 131064 :=
    (Word.add_eq).trans (by omega)
  have hhi : Word.sub (s.kbrkMin + 131072) 1 = s.kbrkMin + 131071 :=
    (Word.sub_eq).trans (by omega)
  have hend : Word.sub (s.kbrkMin + 131071) 3 = s.kbrkMin + 131068 :=
    (Word.sub_eq).trans (by omega)
  have htag : 131064 ||| 2 = 131066 := by decide
  have hread : (((s.mem.store (s.kbrkMin + 4) 131066).store (s.kbrkMin + 8) 0).store
      (s.kbrkMin + 12) 0).load (s.kbrkMin + 4) = 131066 := by
    rw [load_store_of_disjoint, load_store_of_disjoint,
      load_store_same (by omega)]
  rw [initMm, hsize, htotal, memSbrk_eq (by decide) (by omega), if_neg (by omega), ok_bind]
  dsimp only [memHeapLo, memHeapHi]
  rw [hbrk, Word.add_eq, htag, hnext, hprev, htotal', hfoot, hread, hhi, hend, initMmMem]

/-- **Boot.**  The allocator starts with one free block over all of its 32 pages. -/
theorem boot_spec (L : Layout) (s0 : KMem) :
    ∃ s, initKmm (initMem L s0) = .ok s ∧
      KHeap s [⟨L.base + 4, 131064, false, true⟩] false [L.base + 4] ∧
      s.kbrkMin = L.base ∧ s.kbrk = L.base + 131072 ∧ s.kbrkMax = L.base + 8388608 := by
  obtain ⟨hmod, hlo, hhi⟩ := L.base_bounds
  have htop : Word.add L.base (roundDown maxHeap pgSize) = L.base + 8388608 := by
    rw [show roundDown maxHeap pgSize = 8388608 by decide, Word.add_eq]
  have hmem : initMem L s0 =
      { s0 with kbrkMin := L.base, kbrkMax := L.base + 8388608, kbrk := L.base } := by
    rw [← htop]
    rfl
  have hround : roundDown (L.base + 8388608) pgSize = L.base + 8388608 := by
    rw [roundDown_eq (by omega), pgSize]
    omega
  refine ⟨{ s0 with
      mem := initMmMem s0.mem L.base
      kbrkMin := L.base
      kbrk := L.base + 131072
      kbrkMax := L.base + 8388608
      memLock := spinlockInit }, ?_, ⟨?_, rfl⟩, rfl, rfl, rfl⟩
  · rw [initKmm, hmem, initMm_eq (by dsimp only; omega) rfl (by dsimp only; omega)
      (by dsimp only; omega), ok_bind]
    rw [hround]
  · exact initMmMem_heap (by omega) (by omega) (by omega)

/-! ## `kpalloc` -/

/-- **`kpalloc`** lowers `kbrk_max` by a page and clears that page.  It does not look at `kbrk`. -/
theorem kpalloc_spec {s : KMem} (hlock : s.memLock = spinlockInit) (hmod : s.kbrkMax % 4096 = 0)
    (hlo : 4096 ≤ s.kbrkMax) (hhi : s.kbrkMax < 2 ^ 32) :
    ∃ s', kpalloc s = .ok (s.kbrkMax - 4096, s') ∧ s'.kbrkMin = s.kbrkMin ∧ s'.kbrk = s.kbrk ∧
      s'.kbrkMax = s.kbrkMax - 4096 ∧ s'.memLock = spinlockInit ∧
      ∀ y, s'.mem y = if s.kbrkMax - 4096 ≤ y ∧ y < s.kbrkMax then 0 else s.mem y := by
  have hpage : roundDown (Word.sub s.kbrkMax pgSize) pgSize = s.kbrkMax - 4096 := by
    rw [Word.sub_eq (by rw [pgSize]; omega) hhi, roundDown_eq (by omega), pgSize]
    omega
  have hset : ∀ y, s.mem.memset (s.kbrkMax - 4096) 0 pgSize y =
      if s.kbrkMax - 4096 ≤ y ∧ y < s.kbrkMax then 0 else s.mem y := by
    intro y
    have hend : s.kbrkMax - 4096 + pgSize = s.kbrkMax := by
      rw [pgSize]
      omega
    rw [ByteMem.memset_apply 0 pgSize _ _ _ (by rw [hend]; omega), hend]
  generalize hm' : s.mem.memset (s.kbrkMax - 4096) 0 pgSize = m' at hset
  refine ⟨{ s with
      mem := m'
      kbrkMax := s.kbrkMax - 4096
      cpu := s.cpu.acquired.released
      memLock := spinlockInit }, ?_, rfl, rfl, rfl, rfl, hset⟩
  rw [kpalloc, hlock, spinlockAcquire_init, ok_bind]
  dsimp only
  rw [hpage, hm', spinlockRelease_acquired, ok_bind]

end JinxOS
