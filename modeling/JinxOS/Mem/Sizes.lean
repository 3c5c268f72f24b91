import JinxOS.Mem.Realloc

/-!
# The sizes that `kmalloc` computes

On its way from the requested size to the new break `kmalloc` makes four computations that can wrap
around: `valid_size` adds the header and rounds up to words, `increase_heap` rounds up to pages,
`mem_sbrk` rounds up to pages once more and adds the result to the break.  Only the last one is
followed by a test, and the test looks at the wrapped sum.

For sizes up to `MAX_HEAP` nothing wraps, which is `kmalloc_spec`.  A larger request cannot be
served, so it is handled correctly if and only if `mem_sbrk` panics.  When that happens is a matter
of arithmetic (`kmalloc_panic_iff`, `largeSize_iff`), and the result is `kmallocSafe_iff`: the
request must not reach beyond the end of the address space, counted from the break.
-/

namespace JinxOS

/-! ## What can fail -/

variable {lo size block : Nat} {x : Fault}

theorem coalescePrev_error : ∀ {fuel : Nat} {m : ByteMem} {cursor newSize : Nat},
      coalescePrev lo fuel m cursor newSize = .error x → x = .diverges := by
  intro fuel
  induction fuel with
  | zero =>
    rintro m cursor newSize ⟨⟩
    rfl
  | succ fuel ih =>
    intro m cursor newSize h
    rw [coalescePrev] at h
    split at h
    · exact ih h
    · cases h

theorem coalesceNext_error : ∀ {fuel : Nat} {m : ByteMem} {cursor newSize : Nat},
      coalesceNext lo fuel m cursor newSize = .error x → x = .diverges := by
  intro fuel
  induction fuel with
  | zero =>
    rintro m cursor newSize ⟨⟩
    rfl
  | succ fuel ih =>
    intro m cursor newSize h
    rw [coalesceNext] at h
    split at h
    · exact ih h
    · cases h

theorem findFreeBlock_error {m : ByteMem} :
    ∀ {fuel : Nat} {fb : Nat}, findFreeBlock m size fuel fb = .error x → x = .diverges := by
  intro fuel
  induction fuel with
  | zero =>
    rintro fb ⟨⟩
    rfl
  | succ fuel ih =>
    intro fb h
    rw [findFreeBlock] at h
    split at h
    · cases h
    · split at h
      · cases h
      · exact ih h

theorem coalesceFreeBlock_error {m : ByteMem} (h : coalesceFreeBlock lo m block = .error x) :
    x = .diverges := by
  rcases Except.bind_eq_error.1 h with h | ⟨r, -, h⟩
  · exact coalescePrev_error h
  · rcases Except.bind_eq_error.1 h with h | ⟨r', -, h⟩
    · exact coalesceNext_error h
    · dsimp only at h
      split at h <;> cases h

theorem kmallocCarve_error {m : ByteMem} (h : kmallocCarve lo m block size = .error x) :
    x = .diverges := by
  rw [kmallocCarve] at h
  split at h
  · exact coalesceFreeBlock_error h
  · cases h

/-! ## When `mem_sbrk` panics -/

/-- The number of bytes by which `increase_heap(size)` asks `mem_sbrk` to move the break. -/
def heapIncrease (size : Nat) : Nat := Word.mul (Word.sub (Word.add size pgSize) 1 / pgSize) pgSize

/-- The test of `mem_sbrk` fails for the given request. -/
def SbrkFails (s : KMem) (incr : Nat) : Prop := s.kbrkMax < Word.add s.kbrk (roundUp incr pgSize)

theorem memSbrk_panic_iff {s : KMem} {incr : Nat} :
    memSbrk s incr = .error sbrkPanic ↔ SbrkFails s incr := by
  rw [memSbrk, SbrkFails]
  constructor
  · intro h
    by_contra hc
    rw [if_neg hc] at h
    cases h
  · exact fun h => if_pos h

theorem increaseHeap_panic_iff {s : KMem} :
    increaseHeap s size = .error sbrkPanic ↔ SbrkFails s (heapIncrease size) := by
  rw [← memSbrk_panic_iff]
  constructor
  · intro h
    rcases Except.bind_eq_error.1 h with h | ⟨r, -, h⟩
    · exact h
    · rcases Except.bind_eq_error.1 h with h | ⟨r', -, h⟩
      · exact absurd (coalesceFreeBlock_error h) (by decide)
      · cases h
  · intro h
    exact Except.bind_eq_error.2 (.inl h)

theorem spinlockRelease_ne_panic {c : Cpu} {lk : Spinlock} {msg : String} :
    spinlockRelease c lk ≠ .error (.panic msg) := by
  refine Except.bind_ne_error (fun h => ?_) fun _ _ h => by cases h
  cases assert_error h

section
variable {s : KMem} {bs : List Blk} {zu : Bool} {fl : List Nat} {size : Nat}

theorem kmallocFind_panic_iff (h : Heap s.mem s.kbrkMin s.kbrk bs zu fl) (size : Nat) :
    kmallocFind s size = .error sbrkPanic ↔
      (∀ b ∈ bs, b.used = false → b.size < size) ∧ SbrkFails s (heapIncrease size) := by
  obtain ⟨r, hfind, hr⟩ := h.find size
  rw [kmallocFind, memHeapLo, hfind, ok_bind]
  rcases hr with ⟨rfl, hnone⟩ | ⟨b, hb, hfree, hle, rfl⟩
  · rw [if_pos rfl, ← increaseHeap_panic_iff]
    constructor
    · intro he
      refine ⟨hnone, ?_⟩
      rcases Except.bind_eq_error.1 he with he | ⟨s', -, he⟩
      · exact he
      · rcases Except.bind_eq_error.1 he with he | ⟨r, -, he⟩
        · exact absurd (findFreeBlock_error he) (by decide)
        · cases he
    · intro he
      exact Except.bind_eq_error.2 (.inl he.2)
  · have hlo := (h.mem hb).1
    rw [if_neg (by omega)]
    constructor
    · intro he
      cases he
    · rintro ⟨hsmall, -⟩
      have := hsmall b hb hfree
      omega

/-- **`kmalloc` panics** exactly if no free block is large enough and the test in `mem_sbrk` fails.
-/
theorem kmalloc_panic_iff (h : KHeap s bs zu fl) (hpos : 0 < size) :
    kmalloc s size = .error sbrkPanic ↔
      (∀ b ∈ bs, b.used = false → b.size < validSize size) ∧
        SbrkFails s (heapIncrease (validSize size)) := by
  have hheap : Heap s.locked.mem s.locked.kbrkMin s.locked.kbrk bs zu fl := h.heap
  have hfind := kmallocFind_panic_iff hheap (validSize size)
  rw [kmalloc, if_neg (by omega), h.unlocked, spinlockAcquire_init, ok_bind]
  refine Iff.trans ?_ hfind
  constructor
  · intro he
    rcases Except.bind_eq_error.1 he with he | ⟨q, -, he⟩
    · exact he
    · rcases Except.bind_eq_error.1 he with he | ⟨m, -, he⟩
      · exact absurd (kmallocCarve_error he) (by decide)
      · rcases Except.bind_eq_error.1 he with he | ⟨l, -, he⟩
        · exact absurd he spinlockRelease_ne_panic
        · cases he
  · intro he
    exact Except.bind_eq_error.2 (.inl he)

theorem kmalloc_bounds {ptr : Nat} {s' : KMem} (h : kmalloc s size = .ok (ptr, s')) :
    s'.kbrkMin = s.kbrkMin ∧ s'.kbrkMax = s.kbrkMax := by
  have hsbrk : ∀ {t t' : KMem} {n r : Nat}, memSbrk t n = .ok (r, t') →
      t'.kbrkMin = t.kbrkMin ∧ t'.kbrkMax = t.kbrkMax := by
    intro t t' n r he
    rw [memSbrk] at he
    split at he
    · cases he
    · cases he
      exact ⟨rfl, rfl⟩
  have hgrow : ∀ {t t' : KMem} {n : Nat}, increaseHeap t n = .ok t' →
      t'.kbrkMin = t.kbrkMin ∧ t'.kbrkMax = t.kbrkMax := by
    intro t t' n he
    obtain ⟨⟨r, t1⟩, hs, he⟩ := of_bind he
    obtain ⟨m, -, he⟩ := of_bind he
    cases he
    have hb := hsbrk hs
    exact hb
  have hfind : ∀ {t t' : KMem} {n r : Nat}, kmallocFind t n = .ok (r, t') →
      t'.kbrkMin = t.kbrkMin ∧ t'.kbrkMax = t.kbrkMax := by
    intro t t' n r he
    obtain ⟨b, -, he⟩ := of_bind he
    split at he
    · obtain ⟨t1, ht, he⟩ := of_bind he
      obtain ⟨b', -, he⟩ := of_bind he
      cases he
      have hb := hgrow ht
      exact hb
    · cases he
      exact ⟨rfl, rfl⟩
  rw [kmalloc] at h
  split at h
  · cases h
    exact ⟨rfl, rfl⟩
  · obtain ⟨⟨cpu, lk⟩, -, h⟩ := of_bind h
    obtain ⟨⟨b, t⟩, ht, h⟩ := of_bind h
    obtain ⟨m, -, h⟩ := of_bind h
    obtain ⟨⟨cpu', lk'⟩, -, h⟩ := of_bind h
    cases h
    have hb := hfind ht
    exact hb

end

/-! ## The arithmetic -/

/-- `valid_size` up to where its first addition and its rounding wrap around. -/
theorem validSize_eq (h : size + 8 ≤ 2 ^ 32) : validSize size = max 16 (4 * ((size + 7) / 4)) := by
  rw [validSize, Word.add_eq, minBlockSize]
  split
  · omega
  · by_cases hlast : size + 8 = 2 ^ 32
    · obtain rfl : size = 4294967288 := by omega
      decide
    · rw [Word.add_eq, Word.sub_eq, Word.mul_eq]
      omega

theorem validSize_round (h : 2 ^ 32 < size + 8) (h' : size + 4 < 2 ^ 32) : validSize size = 0 := by
  obtain rfl | rfl | rfl : size = 4294967289 ∨ size = 4294967290 ∨ size = 4294967291 := by omega
  all_goals decide

theorem validSize_wrap (h : 2 ^ 32 ≤ size + 4) (h' : size < 2 ^ 32) : validSize size = 16 := by
  obtain rfl | rfl | rfl | rfl : size = 4294967292 ∨ size = 4294967293 ∨ size = 4294967294 ∨
    size = 4294967295 := by omega
  all_goals decide

/-- The page rounding of `increase_heap` gives 0 for the last page of sizes. -/
theorem heapIncrease_eq {n : Nat} (hn : n < 2 ^ 32) :
    heapIncrease n = if n + 4096 ≤ 2 ^ 32 then 4096 * ((n + 4095) / 4096) else 0 := by
  rw [heapIncrease, pgSize, Word.add, Word.sub, Word.mul]
  split <;> omega

theorem roundUp_pages {k : Nat} (hk : 4096 * k < 2 ^ 32) :
    roundUp (4096 * k) pgSize = 4096 * k := by
  rw [roundUp, roundDown, pgSize, Word.add, Word.sub, Word.sub]
  omega

/-! ## Requests of any size -/

section
variable {s : KMem} {bs : List Blk} {zu : Bool} {fl : List Nat} {size : Nat} {L : Layout}

/-- What a request of any size must come to: the panic of `mem_sbrk`, or a block that holds `size`
bytes and a break that has not gone down and not passed `kbrk_max`.  (When `mem_sbrk` panics it has
not moved the break.) -/
def KmallocSafe (s : KMem) (size : Nat) : Prop :=
  kmalloc s size = .error sbrkPanic ∨
  ∃ ptr s', kmalloc s size = .ok (ptr, s') ∧
    (∃ bs' zu' fl', KHeap s' bs' zu' fl' ∧ ∃ a n, ptr = a + 4 ∧ Used bs' a n ∧ size + 4 ≤ n) ∧
    s.kbrk ≤ s'.kbrk ∧ s'.kbrk ≤ s'.kbrkMax

/-- The pages for `size` bytes and a header do not reach beyond the end of the address space. -/
def Addressable (s : KMem) (size : Nat) : Prop :=
  s.kbrk + 4096 * ((size + 4 + 4095) / 4096) < 2 ^ 32

theorem KHeap.size_bounds (h : KHeap s bs zu fl) (hreg : s.InRegion L) :
    0xC0100000 < s.kbrk ∧ s.kbrk ≤ 0xC1800000 ∧ s.kbrkMax ≤ s.kbrk + maxHeap ∧
      ∀ a n, Used bs a n → n ≤ maxHeap := by
  have hle := h.heap.tiles.le
  obtain ⟨-, hbase, hbase'⟩ := L.base_bounds
  have hmin := hreg.base
  have hbrk := hreg.brk
  have htop := hreg.top
  rw [maxHeap] at *
  refine ⟨by omega, by omega, by omega, fun a n hu => ?_⟩
  obtain ⟨ha, hn, -⟩ := h.heap.used_bounds hu
  omega

/-- **For a request beyond `MAX_HEAP` the test in `mem_sbrk` fails** if and only if the pages asked
for are addressable, or the header has wrapped around and there is not even room for one page. -/
theorem largeSize_iff (h : KHeap s bs zu fl) (hreg : s.InRegion L) (hbrk : s.kbrk ≤ s.kbrkMax)
    (hlarge : maxHeap < size) (hlt : size < 2 ^ 32) :
    ((∀ b ∈ bs, b.used = false → b.size < validSize size) ∧
        SbrkFails s (heapIncrease (validSize size))) ↔
      Addressable s size ∨
        2 ^ 32 ≤ size + 4 ∧ (∀ b ∈ bs, b.used = true) ∧ s.kbrkMax < s.kbrk + 4096 := by
  obtain ⟨hlo, hhi, htop, -⟩ := h.size_bounds hreg
  have hblock : ∀ b ∈ bs, 16 ≤ b.size ∧ b.size ≤ maxHeap := by
    intro b hb
    obtain ⟨hba, hbh, hb16, -⟩ := h.heap.mem hb
    have hmin := hreg.base
    have hbrk := hreg.brk
    omega
  rw [maxHeap] at hlarge hblock htop
  rw [SbrkFails, Addressable]
  by_cases hwrap : 2 ^ 32 ≤ size + 4
  · -- the addition of the header wraps around, and a small block is looked for
    have hpage : roundUp (heapIncrease 16) pgSize = 4096 := by decide
    rw [validSize_wrap hwrap hlt, hpage, Word.add_eq]
    have hfree : (∀ b ∈ bs, b.used = false → b.size < 16) ↔ ∀ b ∈ bs, b.used = true := by
      refine forall₂_congr fun b hb => ?_
      have := (hblock b hb).1
      cases b.used
      · simp only [true_implies, Bool.false_eq_true, iff_false]
        omega
      · simp
    rw [hfree]
    constructor
    · exact fun hc => .inr ⟨hwrap, hc⟩
    · rintro (hc | ⟨-, hc⟩)
      · omega
      · exact hc
  by_cases hround : 2 ^ 32 < size + 8
  · -- the rounding wraps around, and the break is to be moved by nothing
    have hpage : roundUp (heapIncrease 0) pgSize = 0 := by decide
    rw [validSize_round hround (by omega), hpage, Word.add_eq]
    refine iff_of_false ?_ ?_
    · rintro ⟨-, hc⟩
      omega
    · rintro (hc | ⟨hc, -⟩)
      · omega
      · exact hwrap hc
  · have hv : validSize size = 4 * ((size + 7) / 4) := by
      rw [validSize_eq (by omega)]
      omega
    have hsmall : ∀ b ∈ bs, b.used = false → b.size < validSize size := by
      intro b hb _
      have := (hblock b hb).2
      omega
    rw [heapIncrease_eq (by omega)]
    by_cases hlast : validSize size + 4096 ≤ 2 ^ 32
    · have hneed : 4096 * ((validSize size + 4095) / 4096) = 4096 * ((size + 4 + 4095) / 4096) := by
        omega
      rw [if_pos hlast, hneed, roundUp_pages (by omega)]
      constructor
      · rintro ⟨-, hc⟩
        refine .inl ?_
        -- a wrapped sum would be below the break
        by_contra hover
        rw [Word.add] at hc
        omega
      · rintro (hc | ⟨hc, -⟩)
        · refine ⟨hsmall, ?_⟩
          rw [Word.add_eq hc]
          omega
        · exact absurd hc hwrap
    · -- the rounding to pages wraps around
      have hzero : roundUp 0 pgSize = 0 := by decide
      rw [if_neg hlast, hzero, Word.add_eq]
      refine iff_of_false ?_ ?_
      · rintro ⟨-, hc⟩
        omega
      · rintro (hc | ⟨hc, -⟩)
        · omega
        · exact hwrap hc

theorem kmallocSafe_large (hreg : s.InRegion L) (hlarge : maxHeap < size) :
    KmallocSafe s size ↔ kmalloc s size = .error sbrkPanic := by
  constructor
  · rintro (hpanic | ⟨ptr, s', hrun, ⟨bs', zu', fl', h', a, n, -, hu, hn⟩, -, hmax⟩)
    · exact hpanic
    · obtain ⟨hmin', hmax'⟩ := kmalloc_bounds hrun
      have hreg' : s'.InRegion L := by
        have htop := hreg.top
        exact ⟨hmin'.trans hreg.base, by omega, by omega⟩
      have := (h'.size_bounds hreg').2.2.2 a n hu
      omega
  · exact .inl

/-- **Which sizes `kmalloc` handles.**  A request of any size is served or ends in the panic of
`mem_sbrk` if and only if the pages asked for are addressable, or, for the four largest sizes, if
the heap is full and not even one page is left. -/
theorem kmallocSafe_iff (h : KHeap s bs zu fl) (hreg : s.InRegion L) (hbrk : s.kbrk ≤ s.kbrkMax)
    (hpos : 0 < size) (hlt : size < 2 ^ 32) :
    KmallocSafe s size ↔ Addressable s size ∨
      2 ^ 32 ≤ size + 4 ∧ (∀ b ∈ bs, b.used = true) ∧ s.kbrkMax < s.kbrk + 4096 := by
  by_cases hlarge : maxHeap < size
  · rw [kmallocSafe_large hreg hlarge, kmalloc_panic_iff h hpos]
    exact largeSize_iff h hreg hbrk hlarge hlt
  · obtain ⟨hlo, hhi, -⟩ := h.size_bounds hreg
    rw [maxHeap] at hlarge
    refine iff_of_true ?_ (.inl (by rw [Addressable]; omega))
    rcases kmalloc_spec h hpos (by omega) with ⟨hpanic, -⟩ | ⟨ptr, s', bs', zu', fl', hrun, h', hm⟩
    · exact .inl hpanic
    · obtain ⟨a, n, rfl, hn, -, hused⟩ := hm.used
      have hmax := hm.bounds.2
      refine .inr ⟨_, s', hrun, ⟨bs', zu', fl', h', a, n, rfl, (hused a n).2 (.inr ⟨rfl, rfl⟩), hn⟩,
        ?_⟩
      rcases hm.brk with hb | ⟨hb, hb', -⟩
      · omega
      · omega

end

/-- A small request and one that does not fit. -/
theorem kmallocSafe_iff_full : KmallocSafe fullHeap 100 ∧ KmallocSafe fullHeap 0x20000000 := by
  constructor
  · exact (kmallocSafe_iff fullHeap_kheap fullHeap_inRegion (by decide) (by decide) (by decide)).2
      (.inl (by unfold Addressable; decide))
  · exact (kmallocSafe_iff fullHeap_kheap fullHeap_inRegion (by decide) (by decide) (by decide)).2
      (.inl (by unfold Addressable; decide))

/-- **Two requests that wrap around.**  For the first one the header does, for the second the new
break: neither ends in the panic, and neither gets its bytes. -/
theorem not_kmallocSafe_full : KHeap fullHeap fullBlocks true [] ∧ fullHeap.InRegion sampleLayout ∧
    fullHeap.kbrk ≤ fullHeap.kbrkMax ∧ ¬ KmallocSafe fullHeap 0xFFFFFFFF ∧
    ¬ KmallocSafe fullHeap 0x40000000 := by
  refine ⟨fullHeap_kheap, fullHeap_inRegion, by decide, ?_, ?_⟩
  · rw [kmallocSafe_large fullHeap_inRegion (by decide),
      kmalloc_panic_iff fullHeap_kheap (by decide)]
    rintro ⟨-, hfail⟩
    revert hfail
    unfold SbrkFails
    decide
  · rw [kmallocSafe_large fullHeap_inRegion (by decide),
      kmalloc_panic_iff fullHeap_kheap (by decide)]
    rintro ⟨-, hfail⟩
    revert hfail
    unfold SbrkFails
    decide

end JinxOS
