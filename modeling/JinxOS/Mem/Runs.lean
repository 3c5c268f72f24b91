import JinxOS.Lib.Runs
import JinxOS.Mem.Kmm

/-!
# Runs of the kernel's memory allocators

The clients of `kmalloc`, `kfree` and `kpalloc` as a transition system (`memStep`).  A client keeps
to its side of the contract: it asks for at most `MAX_HEAP` bytes, frees only what it has allocated
and not freed yet, and writes only to bytes it has asked for.

The byte heap grows upwards to `kbrk` and the pages are taken downwards from `kbrk_max`.  `mem_sbrk`
compares the two, `kpalloc` does not: a page overlaps the byte heap unless there is room for it
(`Roomy`).  What the file shows about every run in which there was room at each call of `kpalloc`,
and so about every run without such calls:

* `memRun_heap` — the heap is well formed, and no call fails but by the panic of `mem_sbrk`;
* `memRun_client` — what `kmalloc` returns is aligned, inside the heap, zero and disjoint from all
  other live allocations, whose bytes no call changes;
* `memRun_drained` — once everything has been freed, the heap is one free block.

And about every run, `apart_iff_roomy`: the pages stay apart from each other and from the byte heap
if and only if there was room at each call of `kpalloc`.
-/

namespace JinxOS

/-! ## The system -/

/-- The allocators, and what their clients have got from them. -/
structure MemState where
  /-- The kernel's memory. -/
  k : KMem
  /-- The live allocations: pointers that `kmalloc` has returned, with the sizes asked for. -/
  live : List (Nat × Nat)
  /-- The pages that `kpalloc` has returned, the last one first. -/
  pages : List Nat

/-- What a client does. -/
inductive MemOp
  /-- `kmalloc(size)`. -/
  | kmalloc (size : Nat)
  /-- `kfree(ptr)`. -/
  | kfree (ptr : Nat)
  /-- `kpalloc()`. -/
  | kpalloc
  /-- A store of the client. -/
  | write (y : Nat) (v : UInt8)

/-- The client's side of the contract. -/
def MemOp.Allowed (st : MemState) : MemOp → Prop
  | .kmalloc size => size ≤ maxHeap
  | .kfree ptr => ptr = 0 ∨ ∃ n, (ptr, n) ∈ st.live
  | .kpalloc => True
  | .write y _ => ∃ p n, (p, n) ∈ st.live ∧ p ≤ y ∧ y < p + n

/-- One call, or one store.  `kmalloc(0)` returns the null pointer, which is not an allocation. -/
def memStep (st : MemState) : MemOp → Except Fault MemState
  | .kmalloc size => do
    let (p, k) ← kmalloc st.k size
    .ok { st with k := k, live := if p = 0 then st.live else (p, size) :: st.live }
  | .kfree ptr => do
    let k ← kfree st.k ptr
    .ok { st with k := k, live := st.live.filter fun e => e.1 ≠ ptr }
  | .kpalloc => do
    let (p, k) ← kpalloc st.k
    .ok { st with k := k, pages := p :: st.pages }
  | .write y v => .ok { st with k := { st.k with mem := Function.update st.k.mem y v } }

/-- The states in which `init_kmm` leaves the kernel, whatever memory held before. -/
def MemBoot (L : Layout) (st : MemState) : Prop :=
  ∃ s₀ k, initKmm (initMem L s₀) = .ok k ∧ st = ⟨k, [], []⟩

/-- The runs of the clients. -/
def MemRun (L : Layout) : List (MemState × MemOp) → MemState → Prop :=
  Run (MemBoot L) fun st op st' => op.Allowed st ∧ memStep st op = .ok st'

/-- If the operation is `kpalloc`, there is room for a page between the break and `kbrk_max`. -/
def HasRoom (st : MemState) (op : MemOp) : Prop :=
  op = .kpalloc → st.k.kbrk + pgSize ≤ st.k.kbrkMax

/-- There was room at every call of `kpalloc`. -/
def Roomy (tr : List (MemState × MemOp)) : Prop := ∀ e ∈ tr, HasRoom e.1 e.2

/-! ## The invariant -/

/-- The live allocations are the used blocks. -/
structure LiveIn (bs : List Blk) (live : List (Nat × Nat)) : Prop where
  /-- A live allocation is the payload of a used block that is large enough. -/
  block : ∀ p n, (p, n) ∈ live → ∃ a k, p = a + 4 ∧ Used bs a k ∧ n + 4 ≤ k
  covers : ∀ a k, Used bs a k → ∃ n, (a + 4, n) ∈ live
  distinct : live.Pairwise fun e e' => e.1 ≠ e'.1

/-- What holds between two calls, as long as `kpalloc` has room. -/
structure MemInv (L : Layout) (st : MemState) : Prop where
  base : st.k.kbrkMin = L.base
  /-- The break has only gone up since boot and has not passed `kbrk_max`, which has only gone
  down. -/
  brk : L.base + 131072 ≤ st.k.kbrk ∧ st.k.kbrk ≤ st.k.kbrkMax ∧ st.k.kbrkMax ≤ L.base + 8388608
  top_mod : st.k.kbrkMax % 4096 = 0
  /-- The heap is in order, and its used blocks are the live allocations. -/
  heap : ∃ bs zu fl, KHeap st.k bs zu fl ∧ LiveIn bs st.live
  page : ∀ p ∈ st.pages, p % 4096 = 0 ∧ st.k.kbrkMax ≤ p
  below : st.pages.Pairwise fun p q => p + 4096 ≤ q

theorem memInv_boot {L : Layout} {st : MemState} (h : MemBoot L st) : MemInv L st := by
  obtain ⟨s0, k, hk, rfl⟩ := h
  obtain ⟨s, hs, hheap, hmin, hbrk, hmax⟩ := boot_spec L s0
  obtain rfl : s = k := by simpa using hs.symm.trans hk
  have hbase := L.base_bounds
  have hunused : ∀ a n, ¬ Used [⟨L.base + 4, 131064, false, true⟩] a n :=
    used_of_free fun b hb => by rw [List.mem_singleton.1 hb]
  refine ⟨hmin, by dsimp only; omega, by dsimp only; omega,
    ⟨_, _, _, hheap, ⟨by simp, ?_, by simp⟩⟩, by simp, by simp⟩
  intro a k hu
  exact absurd hu (hunused a k)

section
variable {L : Layout} {st st' : MemState}

theorem MemInv.fits (h : MemInv L st) {size : Nat} (hsize : size ≤ maxHeap) :
    st.k.kbrk + size + 3 * 4096 ≤ 2 ^ 32 := by
  have hbase := L.base_bounds
  have hbrk := h.brk
  rw [maxHeap] at hsize
  omega

theorem memInv_kmalloc {size : Nat} (h : MemInv L st) (hsize : size ≤ maxHeap)
    (hs : memStep st (.kmalloc size) = .ok st') : MemInv L st' := by
  obtain ⟨⟨p, k⟩, hk, hst⟩ := of_bind hs
  cases hst
  rcases Nat.eq_zero_or_pos size with rfl | hpos
  · obtain ⟨rfl, rfl⟩ : 0 = p ∧ st.k = k := by simpa [kmalloc] using hk
    simpa using h
  obtain ⟨bs, zu, fl, hheap, hlive⟩ := h.heap
  rcases kmalloc_spec hheap hpos (h.fits hsize) with
    ⟨herr, -⟩ | ⟨ptr, s', bs', zu', fl', hok, hheap', hm⟩
  · rw [herr] at hk
    cases hk
  obtain ⟨rfl, rfl⟩ : ptr = p ∧ s' = k := by simpa using hok.symm.trans hk
  obtain ⟨a, n, rfl, hn, hfresh, hused⟩ := hm.used
  obtain ⟨hmin, hmax⟩ := hm.bounds
  have hbrk := h.brk
  have hbrk' := hm.brk
  rw [if_neg (by omega)]
  refine ⟨hmin.trans h.base, ?_, by rw [hmax]; exact h.top_mod, ⟨bs', zu', fl', hheap', ?_⟩, ?_,
    h.below⟩
  · dsimp only
    omega
  · refine ⟨?_, ?_, ?_⟩
    · intro q i hq
      rcases List.mem_cons.1 hq with heq | hq
      · obtain ⟨rfl, rfl⟩ : q = a + 4 ∧ i = size := by simpa using heq
        exact ⟨a, n, rfl, (hused a n).2 (.inr ⟨rfl, rfl⟩), hn⟩
      · obtain ⟨b, j, rfl, hb, hj⟩ := hlive.block q i hq
        exact ⟨b, j, rfl, (hused b j).2 (.inl hb), hj⟩
    · intro b j hb
      rcases (hused b j).1 hb with hb | ⟨rfl, rfl⟩
      · obtain ⟨i, hi⟩ := hlive.covers b j hb
        exact ⟨i, List.mem_cons_of_mem _ hi⟩
      · exact ⟨size, List.mem_cons_self⟩
    · refine List.pairwise_cons.2 ⟨?_, hlive.distinct⟩
      rintro ⟨q, i⟩ hq he
      obtain ⟨b, j, rfl, hb, -⟩ := hlive.block q i hq
      obtain rfl : a = b := by simpa using he
      exact hfresh j hb
  · intro q hq
    rw [hmax]
    exact h.page q hq

theorem LiveIn.kfree {bs bs' : List Blk} {live : List (Nat × Nat)} {a : Nat} (h : LiveIn bs live)
    (hused : ∀ b j, Used bs' b j ↔ Used bs b j ∧ b ≠ a) :
    LiveIn bs' (live.filter fun e => e.1 ≠ a + 4) := by
  refine ⟨?_, ?_, h.distinct.filter _⟩
  · intro q j hq
    obtain ⟨hq, hne⟩ := List.mem_filter.1 hq
    obtain ⟨b, j', rfl, hb, hj⟩ := h.block q j hq
    exact ⟨b, j', rfl, (hused b j').2 ⟨hb, by simpa using hne⟩, hj⟩
  · intro b j hb
    obtain ⟨hb, hne⟩ := (hused b j).1 hb
    obtain ⟨j', hj'⟩ := h.covers b j hb
    exact ⟨j', List.mem_filter.2 ⟨hj', by simpa using hne⟩⟩

theorem LiveIn.filter_eq {bs : List Blk} {live : List (Nat × Nat)} {ptr : Nat} (h : LiveIn bs live)
    (hptr : ∀ a k, Used bs a k → a + 4 ≠ ptr) : (live.filter fun e => e.1 ≠ ptr) = live := by
  refine List.filter_eq_self.2 ?_
  rintro ⟨q, i⟩ hq
  obtain ⟨b, j, rfl, hb, -⟩ := h.block q i hq
  simpa using hptr b j hb

theorem memInv_kfree {ptr : Nat} (h : MemInv L st) (hptr : ptr = 0 ∨ ∃ n, (ptr, n) ∈ st.live)
    (hs : memStep st (.kfree ptr) = .ok st') : MemInv L st' := by
  obtain ⟨k, hk, hst⟩ := of_bind hs
  cases hst
  obtain ⟨bs, zu, fl, hheap, hlive⟩ := h.heap
  rcases hptr with rfl | ⟨n, hn⟩
  · obtain rfl : st.k = k := by simpa [kfree] using hk
    rw [hlive.filter_eq fun a _ _ => Nat.succ_ne_zero (a + 3)]
    exact h
  obtain ⟨a, i, rfl, ha, -⟩ := hlive.block ptr n hn
  obtain ⟨s', bs', zu', fl', hok, hheap', hf⟩ := kfree_spec hheap ha
  obtain ⟨hmin, hbrk, hmax⟩ := hf.heap
  obtain rfl : s' = k := by simpa using hok.symm.trans hk
  have hbrk0 := h.brk
  refine ⟨hmin.trans h.base, by dsimp only; omega, by rw [hmax]; exact h.top_mod,
    ⟨bs', zu', fl', hheap', hlive.kfree hf.used⟩, ?_, h.below⟩
  intro q hq
  rw [hmax]
  exact h.page q hq

theorem memInv_kpalloc (h : MemInv L st) (hroom : st.k.kbrk + 4096 ≤ st.k.kbrkMax)
    (hs : memStep st .kpalloc = .ok st') : MemInv L st' := by
  obtain ⟨⟨p, k⟩, hk, hst⟩ := of_bind hs
  cases hst
  obtain ⟨bs, zu, fl, hheap, hlive⟩ := h.heap
  have hbase := L.base_bounds
  have hbrk := h.brk
  have htop := h.top_mod
  obtain ⟨s', hok, hmin, hbrk', hmax, hlock, hmem⟩ :=
    kpalloc_spec hheap.unlocked htop (by omega) (by omega)
  obtain ⟨hp, rfl⟩ := Prod.mk.inj (Except.ok.inj (hok.symm.trans hk))
  have hheap' : Heap s'.mem s'.kbrkMin s'.kbrk bs zu fl := by
    rw [hmin, hbrk']
    refine hheap.heap.congr ?_
    intro y _ hy _
    rw [hmem, if_neg (by omega)]
  refine ⟨hmin.trans h.base, by dsimp only; omega, by dsimp only; omega,
    ⟨bs, zu, fl, ⟨hheap', hlock⟩, hlive⟩, ?_, ?_⟩
  · intro q hq
    rcases List.mem_cons.1 hq with rfl | hq
    · exact ⟨by omega, Nat.le_of_eq (hmax.trans hp)⟩
    · have := h.page q hq
      dsimp only
      omega
  · refine List.pairwise_cons.2 ⟨?_, h.below⟩
    intro q hq
    have := h.page q hq
    omega

/-- A client that writes to an allocation writes to the payload of its block. -/
theorem LiveIn.payload {bs : List Blk} {live : List (Nat × Nat)} {y : Nat} (h : LiveIn bs live)
    (hy : ∃ p n, (p, n) ∈ live ∧ p ≤ y ∧ y < p + n) :
    ∃ a k, Used bs a k ∧ a + 4 ≤ y ∧ y < a + k := by
  obtain ⟨p, n, hp, hpy, hyp⟩ := hy
  obtain ⟨a, k, rfl, ha, hk⟩ := h.block p n hp
  exact ⟨a, k, ha, hpy, by omega⟩

theorem KHeap.write {s : KMem} {bs : List Blk} {zu : Bool} {fl : List Nat} {a k y : Nat}
    (h : KHeap s bs zu fl) (ha : Used bs a k) (hy : a + 4 ≤ y) (hy' : y < a + k) (v : UInt8) :
    KHeap { s with mem := Function.update s.mem y v } bs zu fl := by
  refine ⟨h.heap.congr ?_, h.unlocked⟩
  intro z _ _ hz
  refine Function.update_of_ne ?_ _ _
  rintro rfl
  exact hz (payload_iff.2 ⟨a, k, ha, hy, hy'⟩)

theorem memInv_write {y : Nat} {v : UInt8} (h : MemInv L st)
    (hy : ∃ p n, (p, n) ∈ st.live ∧ p ≤ y ∧ y < p + n)
    (hs : memStep st (.write y v) = .ok st') : MemInv L st' := by
  cases hs
  obtain ⟨bs, zu, fl, hheap, hlive⟩ := h.heap
  obtain ⟨a, k, ha, hay, hya⟩ := hlive.payload hy
  exact ⟨h.base, h.brk, h.top_mod, ⟨bs, zu, fl, hheap.write ha hay hya v, hlive⟩, h.page, h.below⟩

theorem MemInv.kfree_ok {ptr n : Nat} (h : MemInv L st) (hptr : (ptr, n) ∈ st.live) :
    ∃ k', kfree st.k ptr = .ok k' := by
  obtain ⟨bs, zu, fl, hheap, hlive⟩ := h.heap
  obtain ⟨a, k, rfl, ha, -⟩ := hlive.block ptr n hptr
  obtain ⟨k', _, _, _, hok, -⟩ := kfree_spec hheap ha
  exact ⟨k', hok⟩

/-- **Every step keeps the invariant**, if it has room. -/
theorem memInv_step {op : MemOp} (h : MemInv L st) (hroom : HasRoom st op)
    (hs : op.Allowed st ∧ memStep st op = .ok st') : MemInv L st' := by
  cases op with
  | kmalloc size => exact memInv_kmalloc h hs.1 hs.2
  | kfree ptr => exact memInv_kfree h hs.1 hs.2
  | kpalloc => exact memInv_kpalloc h (hroom rfl) hs.2
  | write y v => exact memInv_write h hs.1 hs.2

theorem MemRun.inv {tr : List (MemState × MemOp)} (h : MemRun L tr st) (hroom : Roomy tr) :
    MemInv L st :=
  Run.invariant_of (fun _ => memInv_boot) (fun _ _ _ hI hC hs => memInv_step hI hC hs) h hroom

end

/-! ## The heap stays well formed -/

theorem roomy_of_forall_ne {tr : List (MemState × MemOp)} (h : ∀ e ∈ tr, e.2 ≠ .kpalloc) :
    Roomy tr :=
  fun e he hop => absurd hop (h e he)

/-- **The representation invariant of the byte heap.**  The allocator boots.  From then on, in every
run of `kmalloc`, `kfree` and client stores, with calls of `kpalloc` that have room, the heap is
well formed: see `Heap` and `HeapRep`.  `kmalloc` returns or ends in the panic of `mem_sbrk`, and
`kfree` of a live pointer returns. -/
theorem memRun_heap (L : Layout) :
    (∀ s₀, ∃ k, initKmm (initMem L s₀) = .ok k) ∧
    ∀ tr st, MemRun L tr st → Roomy tr →
      (∃ bs zu fl, Heap st.k.mem (memHeapLo st.k) st.k.kbrk bs zu fl) ∧
      (∀ size ≤ maxHeap, kmalloc st.k size = .error sbrkPanic ∨
        ∃ ptr k', kmalloc st.k size = .ok (ptr, k')) ∧
      ∀ ptr n, (ptr, n) ∈ st.live → ∃ k', kfree st.k ptr = .ok k' := by
  refine ⟨?_, ?_⟩
  · intro s₀
    obtain ⟨k, hk, -⟩ := boot_spec L s₀
    exact ⟨k, hk⟩
  · intro tr st hrun hroom
    have hinv := hrun.inv hroom
    obtain ⟨bs, zu, fl, hheap, hlive⟩ := hinv.heap
    refine ⟨⟨bs, zu, fl, hheap.heap⟩, ?_, ?_⟩
    · intro size hsize
      rcases Nat.eq_zero_or_pos size with rfl | hpos
      · exact .inr ⟨0, st.k, rfl⟩
      rcases kmalloc_spec hheap hpos (hinv.fits hsize) with ⟨herr, -⟩ | ⟨ptr, k', _, _, _, hok, -⟩
      · exact .inl herr
      · exact .inr ⟨ptr, k', hok⟩
    · exact fun ptr n hn => hinv.kfree_ok hn

/-- An image that ends where it starts. -/
def sampleLayout : Layout := ⟨0xC0100000, Nat.le_refl _, by decide⟩

/-- The kernel before `init_mem`: memory and variables are zero. -/
def sampleKMem : KMem := ⟨fun _ => 0, 0, 0, 0, ⟨true, false, none, 0⟩, spinlockInit⟩

/-- A client that boots the allocator and asks for 100 bytes gets them. -/
theorem exists_kmalloc_run : ∃ tr st p, MemRun sampleLayout tr st ∧ Roomy tr ∧ tr.length = 1 ∧
    st.live = [(p, 100)] := by
  obtain ⟨k, hk, hheap, -, hbrk, -⟩ := boot_spec sampleLayout sampleKMem
  have hbase := sampleLayout.base_bounds
  have hboot : MemRun sampleLayout [] ⟨k, [], []⟩ := Run.init ⟨sampleKMem, k, hk, rfl⟩
  rcases kmalloc_spec hheap (show 0 < 100 by decide) (by omega) with
    ⟨-, hnone⟩ | ⟨p, k', _, _, _, hok, -, hm⟩
  · have hsmall := hnone _ List.mem_cons_self rfl
    rw [show validSize 100 = 104 by decide] at hsmall
    exact absurd hsmall (by dsimp only; omega)
  · obtain ⟨a, n, rfl, -⟩ := hm.used
    refine ⟨_, ⟨k', [(a + 4, 100)], []⟩, a + 4, Run.step (a := .kmalloc 100) hboot ⟨?_, ?_⟩, ?_,
      rfl, rfl⟩
    · show 100 ≤ maxHeap
      decide
    · rw [memStep, hok, ok_bind]
      dsimp only
      rw [if_neg (by omega)]
    · refine roomy_of_forall_ne ?_
      intro e he
      rw [List.mem_singleton.1 he]
      simp

theorem memRun_heap_sample : ∃ tr st p, MemRun sampleLayout tr st ∧ st.live = [(p, 100)] ∧
    (∃ bs zu fl, Heap st.k.mem (memHeapLo st.k) st.k.kbrk bs zu fl) ∧
      ∃ k', kfree st.k p = .ok k' := by
  obtain ⟨tr, st, p, hrun, hroom, -, hlive⟩ := exists_kmalloc_run
  obtain ⟨hheap, -, hfree⟩ := (memRun_heap sampleLayout).2 tr st hrun hroom
  exact ⟨tr, st, p, hrun, hlive, hheap, hfree p 100 (by simp [hlive])⟩

/-! ## What clients can rely on -/

/-- The contract of `kmalloc`: what a client gets, and that the live allocations are left alone. -/
structure KmallocContract (st : MemState) (size ptr : Nat) (k' : KMem) : Prop where
  aligned : ptr % 4 = 0
  inside : k'.kbrkMin ≤ ptr ∧ ptr + size ≤ k'.kbrk
  zero : ∀ y, ptr ≤ y → y < ptr + size → k'.mem y = 0
  disjoint : ∀ p n, (p, n) ∈ st.live → ptr + size ≤ p ∨ p + n ≤ ptr
  kept : ∀ p n, (p, n) ∈ st.live → ∀ y, p ≤ y → y < p + n → k'.mem y = st.k.mem y

/-- **The client contract of `kmalloc` and `kfree`**, in every run. -/
theorem memRun_client {L : Layout} {tr : List (MemState × MemOp)} {st : MemState}
    (hrun : MemRun L tr st) (hroom : Roomy tr) :
    (∀ size ptr k', 0 < size → size ≤ maxHeap → kmalloc st.k size = .ok (ptr, k') →
      KmallocContract st size ptr k') ∧
    ∀ ptr n, (ptr, n) ∈ st.live → ∃ k', kfree st.k ptr = .ok k' ∧
      ∀ q i, (q, i) ∈ st.live → q ≠ ptr → ∀ y, q ≤ y → y < q + i → k'.mem y = st.k.mem y := by
  have hinv := hrun.inv hroom
  obtain ⟨bs, zu, fl, hheap, hlive⟩ := hinv.heap
  refine ⟨?_, ?_⟩
  · intro size ptr k' hpos hsize hk
    rcases kmalloc_spec hheap hpos (hinv.fits hsize) with
      ⟨herr, -⟩ | ⟨ptr, k', bs', zu', fl', hok, hheap', hm⟩
    · rw [herr] at hk
      cases hk
    obtain ⟨rfl, rfl⟩ := Prod.mk.inj (Except.ok.inj (hok.symm.trans hk))
    obtain ⟨a, n, rfl, hn, hfresh, hused⟩ := hm.used
    have hnew : Used bs' a n := (hused a n).2 (.inr ⟨rfl, rfl⟩)
    obtain ⟨hlo, hhi, hmod⟩ := hheap'.heap.used_bounds hnew
    refine ⟨by omega, ⟨by omega, by omega⟩, hm.zero, ?_, ?_⟩
    · intro p i hp
      obtain ⟨b, j, rfl, hb, hj⟩ := hlive.block p i hp
      have hne : a ≠ b := by
        rintro rfl
        exact hfresh j hb
      have := hheap'.heap.used_apart hnew ((hused b j).2 (.inl hb)) hne
      omega
    · intro p i hp y hy hy'
      obtain ⟨b, j, rfl, hb, hj⟩ := hlive.block p i hp
      exact hm.payload y (payload_iff.2 ⟨b, j, hb, hy, by omega⟩)
  · intro ptr n hn
    obtain ⟨a, i, rfl, ha, -⟩ := hlive.block ptr n hn
    obtain ⟨k', bs', zu', fl', hok, -, hf⟩ := kfree_spec hheap ha
    refine ⟨k', hok, ?_⟩
    intro q j hq hne y hy hy'
    obtain ⟨b, j', rfl, hb, hj⟩ := hlive.block q j hq
    have hba : b ≠ a := by
      rintro rfl
      exact hne rfl
    exact hf.payload y (payload_iff.2 ⟨b, j', (hf.used b j').2 ⟨hb, hba⟩, hy, by omega⟩)

theorem memRun_client_sample : ∃ tr st p, MemRun sampleLayout tr st ∧ st.live = [(p, 100)] ∧
    ∀ size ptr k', 0 < size → size ≤ maxHeap → kmalloc st.k size = .ok (ptr, k') →
      ptr + size ≤ p ∨ p + 100 ≤ ptr := by
  obtain ⟨tr, st, p, hrun, hroom, -, hlive⟩ := exists_kmalloc_run
  refine ⟨tr, st, p, hrun, hlive, ?_⟩
  intro size ptr k' hpos hsize hk
  exact ((memRun_client hrun hroom).1 size ptr k' hpos hsize hk).disjoint p 100 (by simp [hlive])

/-- **Nothing is lost to fragmentation.**  In every run, when all allocations have been freed, the
heap is one free block, and `kmalloc` succeeds if the block that it needs fits into the heap as it
is then. -/
theorem memRun_drained {L : Layout} {tr : List (MemState × MemOp)} {st : MemState}
    (hrun : MemRun L tr st) (hroom : Roomy tr) (hlive : st.live = []) :
    (∃ b zu fl, Heap st.k.mem (memHeapLo st.k) st.k.kbrk [b] zu fl ∧ b.used = false) ∧
    ∀ size, 0 < size → size ≤ maxHeap → memHeapLo st.k + validSize size + 8 ≤ st.k.kbrk →
      ∃ ptr k', kmalloc st.k size = .ok (ptr, k') := by
  have hinv := hrun.inv hroom
  obtain ⟨bs, zu, fl, hheap, hin⟩ := hinv.heap
  have hfree : ∀ b ∈ bs, b.used = false := by
    intro b hb
    by_contra hused
    obtain ⟨n, hn⟩ := hin.covers b.addr b.size ⟨b, hb, by simpa using hused, rfl, rfl⟩
    rw [hlive] at hn
    cases hn
  have hsum := hheap.heap.tiles.sum_sizes
  have hbase := hinv.base
  have hbrk := hinv.brk
  obtain ⟨b, rfl⟩ : ∃ b, bs = [b] := by
    match bs, hheap.heap.coalesced with
    | [], _ =>
      simp at hsum
      omega
    | [b], _ => exact ⟨b, rfl⟩
    | b :: c :: _, hpair =>
      have := (noFreePair_cons.1 hpair).1 c rfl
      simp [hfree] at this
  refine ⟨⟨b, zu, fl, hheap.heap, hfree b List.mem_cons_self⟩, fun size hpos hmax hfits => ?_⟩
  have hfit := hinv.fits hmax
  rcases kmalloc_spec hheap hpos hfit with ⟨-, hsmall⟩ | ⟨ptr, k', _, _, _, hok, -⟩
  · obtain ⟨-, hmin, -⟩ := validSize_spec size (by omega)
    have := hsmall b List.mem_cons_self (hfree b List.mem_cons_self)
    rw [memHeapLo] at hfits
    simp at hsum
    omega
  · exact ⟨ptr, k', hok⟩

/-- 100 bytes are allocated and freed; then 131000 bytes are served. -/
theorem memRun_drained_freed : ∃ tr st, MemRun sampleLayout tr st ∧ tr.length = 2 ∧
    (∃ b zu fl, Heap st.k.mem (memHeapLo st.k) st.k.kbrk [b] zu fl ∧ b.used = false) ∧
      ∃ ptr k', kmalloc st.k 131000 = .ok (ptr, k') := by
  obtain ⟨tr, st, p, hrun, hroom, hlen, hlive⟩ := exists_kmalloc_run
  have hmem : (p, 100) ∈ st.live := by simp [hlive]
  obtain ⟨k, hk⟩ := (hrun.inv hroom).kfree_ok hmem
  have hstep : memStep st (.kfree p) = .ok ⟨k, [], st.pages⟩ := by
    rw [memStep, hk, ok_bind, hlive]
    simp
  have hrun' : MemRun sampleLayout ((st, .kfree p) :: tr) ⟨k, [], st.pages⟩ :=
    Run.step hrun ⟨.inr ⟨100, hmem⟩, hstep⟩
  have hroom' : Roomy ((st, .kfree p) :: tr) := List.forall_mem_cons.2 ⟨nofun, hroom⟩
  obtain ⟨hone, hserved⟩ := memRun_drained hrun' hroom' rfl
  refine ⟨_, _, hrun', by simp [hlen], hone, hserved 131000 (by decide) (by decide) ?_⟩
  have hinv := MemRun.inv hrun' hroom'
  have hbrk := hinv.brk
  rw [memHeapLo, hinv.base, show validSize 131000 = 131004 by decide]
  omega

/-! ## The byte heap and the pages -/

/-- The pages are aligned, and disjoint from each other and from the byte heap. -/
structure Apart (st : MemState) : Prop where
  aligned : ∀ p ∈ st.pages, p % pgSize = 0
  pages : st.pages.Pairwise fun p q => p + pgSize ≤ q ∨ q + pgSize ≤ p
  heap : ∀ p ∈ st.pages, p + pgSize ≤ st.k.kbrkMin ∨ st.k.kbrk ≤ p

theorem MemInv.apart {L : Layout} {st : MemState} (h : MemInv L st) : Apart st := by
  refine ⟨fun p hp => (h.page p hp).1, h.below.imp fun hpq => .inl hpq, ?_⟩
  intro p hp
  have := h.page p hp
  have := h.brk
  omega

theorem hasRoom_of_apart {L : Layout} {st st' : MemState} {op : MemOp} (h : MemInv L st)
    (hs : memStep st op = .ok st') (hapart : Apart st') : HasRoom st op := by
  rintro rfl
  obtain ⟨⟨p, k⟩, hk, hst⟩ := of_bind hs
  cases hst
  obtain ⟨bs, zu, fl, hheap, -⟩ := h.heap
  have hbase := L.base_bounds
  have hmin := h.base
  have hbrk := h.brk
  obtain ⟨s', hok, hmin', hbrk', hmax', -⟩ :=
    kpalloc_spec hheap.unlocked h.top_mod (by omega) (by omega)
  obtain ⟨hp, rfl⟩ := Prod.mk.inj (Except.ok.inj (hok.symm.trans hk))
  have := hapart.heap p List.mem_cons_self
  rw [pgSize] at this ⊢
  dsimp only at this
  omega

/-- **The two allocators stay apart exactly as long as `kpalloc` has room.**  In every run, the
pages are aligned and disjoint from each other and from the byte heap in all states that the run
goes through if and only if every call of `kpalloc` was made with a page of room between `kbrk` and
`kbrk_max`. -/
theorem apart_iff_roomy {L : Layout} {tr : List (MemState × MemOp)} {st : MemState}
    (hrun : MemRun L tr st) : (Apart st ∧ ∀ e ∈ tr, Apart e.1) ↔ Roomy tr := by
  constructor
  · intro h
    -- along the run: as long as there was room the invariant holds, and it shows the next page
    induction hrun with
    | init hinit => exact fun e he => absurd he (List.not_mem_nil)
    | @step tr s s' op hrun hs ih =>
      have hroom := ih ⟨h.2 _ List.mem_cons_self, fun e he => h.2 e (List.mem_cons_of_mem _ he)⟩
      intro e he
      rcases List.mem_cons.1 he with rfl | he
      · exact hasRoom_of_apart (MemRun.inv hrun hroom) hs.2 h.1
      · exact hroom e he
  · intro hroom
    refine ⟨(hrun.inv hroom).apart, ?_⟩
    intro e he
    obtain ⟨tr', -, hsub, hrun', -⟩ := Run.of_mem hrun he
    have hroom' : Roomy tr' := fun e' he' => hroom e' (hsub.subset (List.mem_cons_of_mem _ he'))
    exact (MemRun.inv hrun' hroom').apart

theorem exists_kpalloc_run (L : Layout) (n : Nat) (hn : n ≤ 2047) :
    ∃ tr st, MemRun L tr st ∧ tr.length = n ∧ (n ≤ 2016 → Roomy tr) ∧
      st.k.memLock = spinlockInit ∧ st.k.kbrkMin = L.base ∧ st.k.kbrk = L.base + 131072 ∧
      st.k.kbrkMax + n * 4096 = L.base + 8388608 ∧ (0 < n → st.k.kbrkMax ∈ st.pages) := by
  have hbase := L.base_bounds
  induction n with
  | zero =>
    obtain ⟨k, hk, hheap, hmin, hbrk, hmax⟩ := boot_spec L sampleKMem
    refine ⟨[], ⟨k, [], []⟩, Run.init ⟨sampleKMem, k, hk, rfl⟩, rfl, ?_, hheap.unlocked, hmin, hbrk,
      by omega, by omega⟩
    intro _ e he
    exact absurd he List.not_mem_nil
  | succ n ih =>
    obtain ⟨tr, st, hrun, hlen, hroom, hlock, hmin, hbrk, hmax, -⟩ := ih (by omega)
    obtain ⟨s', hok, hmin', hbrk', hmax', hlock', -⟩ :=
      kpalloc_spec hlock (by omega) (by omega) (by omega)
    have hstep : memStep st .kpalloc = .ok ⟨s', st.live, (st.k.kbrkMax - 4096) :: st.pages⟩ := by
      rw [memStep, hok, ok_bind]
    refine ⟨(st, .kpalloc) :: tr, _, Run.step hrun ⟨trivial, hstep⟩, by simp [hlen], ?_, hlock',
      hmin'.trans hmin, hbrk'.trans hbrk, by dsimp only; omega, ?_⟩
    · intro hn' e he
      rcases List.mem_cons.1 he with rfl | he
      · intro _
        rw [pgSize]
        dsimp only
        omega
      · exact hroom (by omega) e he
    · intro _
      rw [hmax']
      exact List.mem_cons_self

theorem apart_iff_roomy_sample : ∃ tr st, MemRun sampleLayout tr st ∧ tr.length = 2016 ∧
    (Apart st ∧ ∀ e ∈ tr, Apart e.1) := by
  obtain ⟨tr, st, hrun, hlen, hroom, -⟩ := exists_kpalloc_run sampleLayout 2016 (by decide)
  exact ⟨tr, st, hrun, hlen, (apart_iff_roomy hrun).2 (hroom (Nat.le_refl _))⟩

/-- The 2017th page after boot is the last page of the byte heap. -/
theorem not_apart_kpalloc : ∃ tr st, MemRun sampleLayout tr st ∧ tr.length = 2017 ∧ ¬ Apart st := by
  obtain ⟨tr, st, hrun, hlen, -, -, hmin, hbrk, hmax, hpage⟩ :=
    exists_kpalloc_run sampleLayout 2017 (by decide)
  refine ⟨tr, st, hrun, hlen, ?_⟩
  intro h
  have := h.heap _ (hpage (by decide))
  rw [pgSize] at this
  omega

end JinxOS
