import Mathlib.Data.List.Perm.Subperm
import JinxOS.Mem.Kmalloc

/-!
# Specifications of the allocator's calls

One specification for each function that `kmalloc` and `kfree` call, and then for these two and for
the initialisation.  The state of the allocator between two calls is described by `KHeap`: the heap
invariant holds and `mem_lock` is free.

Sizes are words, so `kmalloc` could wrap around.  The specifications ask for as much room above the
break as the request can take (`kbrk + size + 2 * PG_SIZE ≤ 2 ^ 32`), which every caller with a
size up to `MAX_HEAP` has.
-/

namespace JinxOS

/-! ## `find_free_block` -/

variable {m : ByteMem} {lo hi a n size : Nat} {bs : List Blk} {zu : Bool} {fl : List Nat} {s : KMem}

theorem HeapRep.length_list (h : HeapRep m lo hi bs zu fl) : fl.length < loopFuel := by
  have hsub : fl ⊆ bs.map Blk.addr := by
    intro x hx
    obtain ⟨b, hb, -, rfl⟩ := h.free x hx
    exact List.mem_map_of_mem hb
  have hle := (h.nodup.subperm hsub).length_le
  have hlen := h.tiles.length_le
  have hhi := h.hi_lt
  rw [List.length_map] at hle
  rw [loopFuel]
  omega

/-- `find_free_block` returns a free block that is large enough, or null if there is none. -/
theorem Heap.find (h : Heap m lo hi bs zu fl) (size : Nat) :
    ∃ r, findFreeBlock m size loopFuel (m.load lo) = .ok r ∧
      (r = 0 ∧ (∀ b ∈ bs, b.used = false → b.size < size) ∨
        ∃ b ∈ bs, b.used = false ∧ size ≤ b.size ∧ b.addr = r) := by
  refine ⟨_, FreeList.find h.list (h.spaced h.free).fits h.length_list, ?_⟩
  cases hfind : fl.find? fun x => decide (size ≤ SIZE (m.load x)) with
  | none =>
    refine .inl ⟨rfl, ?_⟩
    intro b hb hfree
    have := List.find?_eq_none.1 hfind _ (h.listed b hb hfree)
    rw [(h.read hb).1] at this
    simpa using this
  | some x =>
    obtain ⟨b, hb, hfree, rfl⟩ := h.free x (List.mem_of_find?_eq_some hfind)
    have := List.find?_some hfind
    rw [(h.read hb).1] at this
    exact .inr ⟨b, hb, hfree, by simpa using this, rfl⟩

/-! ## Growing the heap -/

theorem roundDown_eq (ha : a < 2 ^ 32) : roundDown a n = a - a % n :=
  Word.sub_eq (Nat.mod_le a n) ha

theorem roundUp_eq (ha : a + pgSize < 2 ^ 32) :
    roundUp a pgSize = a + pgSize - 1 - (a + pgSize - 1) % pgSize := by
  rw [pgSize] at *
  rw [roundUp, Word.add_eq ha, Word.sub_eq (by omega) ha, roundDown_eq (by omega)]

theorem memSbrk_eq (hn : n % 4096 = 0) (hfit : s.kbrk + n + 4096 < 2 ^ 32) :
    memSbrk s n = if s.kbrkMax < s.kbrk + n then .error sbrkPanic
      else .ok (s.kbrk, { s with kbrk := s.kbrk + n }) := by
  have hround : roundUp n pgSize = n := by
    rw [roundUp_eq (by rw [pgSize]; omega), pgSize]
    omega
  rw [memSbrk, hround, Word.add_eq]

theorem increaseHeap_total (size : Nat) (h : size + 4096 < 2 ^ 32) :
    ∃ n, Word.mul (Word.sub (Word.add size pgSize) 1 / pgSize) pgSize = n ∧ size ≤ n ∧
      n < size + 4096 ∧ n % 4096 = 0 := by
  refine ⟨_, rfl, ?_⟩
  rw [pgSize, Word.add_eq h, Word.sub_eq, Word.mul_eq]
  omega

/-- The stores of `increase_heap`: header and footer of the new block, and the new epilogue. -/
theorem increaseHeap_stores
    (htotal : Word.mul (Word.sub (Word.add size pgSize) 1 / pgSize) pgSize = n) (hn : 16 ≤ n)
    (hmod : n % 4096 = 0) (hlo : 8 ≤ s.kbrk) (hfit : s.kbrk + n + 4096 < 2 ^ 32)
    (hepilogue : s.mem.load (s.kbrk - 4) = epilogue zu) :
    ∃ m1, (increaseHeap s size = if s.kbrkMax < s.kbrk + n then .error sbrkPanic
        else coalesceFreeBlock s.kbrkMin (insertFreeBlock s.kbrkMin m1 (s.kbrk - 4))
          (s.kbrk - 4) >>= fun m => .ok { s with mem := m, kbrk := s.kbrk + n }) ∧
      (∀ y, y < s.kbrk - 4 → m1 y = s.mem y) ∧ m1.load (s.kbrk - 4) = n + 2 * zu.toNat ∧
      m1.load (s.kbrk + n - 8) = n + 2 * zu.toNat ∧ m1.load (s.kbrk + n - 4) = 1 := by
  have hzu := Bool.toNat_lt zu
  have htlt : n + 2 * zu.toNat < 2 ^ 32 := by omega
  have htag : n ||| 2 * zu.toNat = n + 2 * zu.toNat := Word.or_flag (by omega) (by omega)
  have hflag : prevBlockIsUsed s.mem (s.kbrk - 4) = 2 * zu.toNat := by
    rw [prevBlockIsUsed, hepilogue]
    cases zu <;> rfl
  have hflag' : prevBlockIsUsed (s.mem.store (s.kbrk - 4) (n + 2 * zu.toNat)) (s.kbrk - 4) =
      2 * zu.toNat := by
    rw [prevBlockIsUsed, load_store_same htlt, Word.and_flags (by omega) (by omega)
      (by omega)]
    cases zu <;> rfl
  have hfoot : Word.add (s.kbrk - 4) (Word.sub n 4) = s.kbrk + n - 8 := by
    rw [Word.sub_eq, Word.add_eq]
    omega
  have hend : Word.add (s.kbrk - 4) n = s.kbrk + n - 4 := by
    rw [Word.add_eq]
    omega
  refine ⟨((s.mem.store (s.kbrk - 4) (n + 2 * zu.toNat)).store (s.kbrk + n - 8)
    (n + 2 * zu.toNat)).store (s.kbrk + n - 4) 1, ?_, ?_, ?_, ?_, ?_⟩
  · rw [increaseHeap, htotal, memSbrk_eq hmod hfit]
    split
    · exact error_bind _ _
    · rw [ok_bind]
      dsimp only [memHeapLo]
      rw [Word.sub_eq, hflag, htag, hflag', htag, hfoot, hend]
  · intro y hy
    rw [store_apply, store_apply,
      store_apply]
  · rw [load_store_of_disjoint, load_store_of_disjoint,
      load_store_same htlt]
  · rw [load_store_of_disjoint, load_store_same htlt]
  · exact load_store_same (by omega)

/-- **`increase_heap`** adds a free block that is large enough, unless `mem_sbrk` panics. -/
theorem increaseHeap_eq (h : Heap s.mem s.kbrkMin s.kbrk bs zu fl) (hsize : 16 ≤ size)
    (hfit : s.kbrk + size + 2 * 4096 ≤ 2 ^ 32) : increaseHeap s size = .error sbrkPanic ∨
    ∃ m' n bs' fl', increaseHeap s size = .ok { s with mem := m', kbrk := s.kbrk + n } ∧
      s.kbrk + n ≤ s.kbrkMax ∧ n % 4096 = 0 ∧
      Heap m' s.kbrkMin (s.kbrk + n) bs' false fl' ∧ (∀ a k, Used bs' a k ↔ Used bs a k) ∧
      (∃ c ∈ bs', c.used = false ∧ size ≤ c.size) ∧ ∀ y, Payload bs y → m' y = s.mem y := by
  have hle := h.tiles.le
  obtain ⟨n, htotal, hn, hn', hmod⟩ := increaseHeap_total size (by omega)
  obtain ⟨m1, hrun, hout, hheader, hfooter, hepilogue⟩ := increaseHeap_stores htotal
    (hsize.trans hn) hmod (by omega) (by omega) h.epilogue
  by_cases hmax : s.kbrkMax < s.kbrk + n
  · rw [if_pos hmax] at hrun
    exact .inl hrun
  rw [if_neg hmax] at hrun
  have hrep : HeapRep m1 s.kbrkMin (s.kbrk + n) (bs ++ [⟨s.kbrk - 4, n, false, zu⟩]) false fl := by
    refine h.toHeapRep.extend (by omega) (by omega) (by omega) hout hheader ?_ hepilogue
    rw [hfooter]
    have := Bool.toNat_lt zu
    exact SIZE_eq (by omega) (by omega) (by omega)
  have hnew : s.kbrk - 4 ∉ fl := by
    intro hx
    obtain ⟨b, hb, -, he⟩ := h.free _ hx
    have := h.mem hb
    omega
  obtain ⟨m', bs', fl', hco, hput⟩ := hrep.putBack rfl hnew (by simpa using h.listed) h.coalesced
    List.isChain_nil
  obtain ⟨c, hc, hcfree, hcsize⟩ := hput.room
  refine .inr ⟨m', n, bs', fl', ?_, by omega, hmod, hput.heap, by simpa using hput.used,
    ⟨c, hc, hcfree, hn.trans hcsize⟩, ?_⟩
  · rw [hrun, hco, ok_bind]
  · intro y hy
    rw [hput.payload y (by simpa using hy)]
    obtain ⟨b, hb, -, -, hy⟩ := hy
    have := h.mem hb
    rw [Blk.stop] at hy
    exact hout y (by omega)

/-! ## `kmalloc` -/

theorem validSize_spec (size : Nat) (h : size + 8 < 2 ^ 32) :
    size + 4 ≤ validSize size ∧ 16 ≤ validSize size ∧ validSize size % 4 = 0 ∧
      validSize size ≤ size + 16 := by
  rw [validSize, Word.add_eq, Word.add_eq, Word.sub_eq, Word.mul_eq, minBlockSize]
  split <;> omega

/-- The first half of `kmalloc` comes back with a free block that is large enough. -/
theorem kmallocFind_eq (h : Heap s.mem s.kbrkMin s.kbrk bs zu fl) (hsize : 16 ≤ size)
    (hfit : s.kbrk + size + 2 * 4096 ≤ 2 ^ 32) :
    kmallocFind s size = .error sbrkPanic ∧ (∀ b ∈ bs, b.used = false → b.size < size) ∨
    ∃ m' n b bs' zu' fl',
      kmallocFind s size = .ok (b.addr, { s with mem := m', kbrk := s.kbrk + n }) ∧
      (n = 0 ∨ s.kbrk + n ≤ s.kbrkMax) ∧ n % 4096 = 0 ∧
      Heap m' s.kbrkMin (s.kbrk + n) bs' zu' fl' ∧ (∀ a k, Used bs' a k ↔ Used bs a k) ∧
      (b ∈ bs' ∧ b.used = false ∧ size ≤ b.size) ∧ ∀ y, Payload bs y → m' y = s.mem y := by
  obtain ⟨r, hfind, hr⟩ := h.find size
  rw [kmallocFind, memHeapLo, hfind, ok_bind]
  rcases hr with ⟨rfl, hnone⟩ | ⟨b, hb, hfree, hbsize, rfl⟩
  · rw [if_pos rfl]
    rcases increaseHeap_eq h hsize hfit with hinc | ⟨m', n, bs', fl', hinc, hmax, hn,
      h', hu, hc, hp⟩
    · exact .inl ⟨by rw [hinc, error_bind], hnone⟩
    · obtain ⟨r, hfind', hr⟩ := h'.find size
      obtain ⟨c, hc, hcfree, hcsize⟩ := hc
      rcases hr with ⟨-, hsmall⟩ | ⟨b, hb, hfree, hbsize, rfl⟩
      · have := hsmall c hc hcfree
        omega
      · refine .inr ⟨m', n, b, bs', false, fl', ?_, .inr hmax, hn, h', hu,
          ⟨hb, hfree, hbsize⟩, hp⟩
        rw [hinc, ok_bind, memHeapLo, hfind', ok_bind]
  · have hpos := (h.mem hb).1
    rw [if_neg (by omega)]
    exact .inr ⟨s.mem, 0, b, bs, zu, fl, rfl, .inl rfl, rfl, h, fun _ _ => Iff.rfl,
      ⟨hb, hfree, hbsize⟩, fun _ _ => rfl⟩

theorem kmallocCarve_eq {L R : List Blk} {b : Blk} (h : Heap m lo hi (L ++ b :: R) zu fl)
    (hfree : b.used = false) (hsize : 16 ≤ size) (hmod : size % 4 = 0) (hle : size ≤ b.size) :
    ∃ m' bs' zu' fl' n, kmallocCarve lo m b.addr size = .ok m' ∧ size ≤ n ∧
      Carved m m' lo hi L b R bs' zu' fl' n := by
  have hbmem : b ∈ L ++ b :: R := by simp
  have hheld := h.held hfree
  have hpay := (h.remove (h.listed b hbmem hfree)).2
  obtain ⟨-, hbhi, -⟩ := h.mem hbmem
  have hhi := h.hi_lt
  have hkept : ∀ y, Payload (L ++ R) y → removeFreeBlock lo m b.addr y = m y := by
    rintro y ⟨c, hc, hy⟩
    exact hpay y ⟨c, mem_middle hc, hy⟩
  have hread := (hheld.rep.read hbmem).1
  by_cases hsplit : minBlockSize ≤ Word.sub b.size size
  · have hroom : size + 16 ≤ b.size := by
      rw [Word.sub_eq hle (by omega), minBlockSize] at hsplit
      omega
    obtain ⟨m', bs', zu', fl', hrun, hcarved⟩ := hheld.split hsize hmod hroom
    refine ⟨m', bs', zu', fl', size, ?_, Nat.le_refl _, hcarved.heap, hcarved.used, ?_⟩
    · rw [kmallocCarve, hread]
      exact (if_pos hsplit).trans hrun
    · intro y hy
      rw [hcarved.payload y hy, hkept y hy]
  · obtain ⟨bs', zu', fl', hcarved⟩ := hheld.take
    refine ⟨_, bs', zu', fl', b.size, ?_, hle, hcarved.heap, hcarved.used, ?_⟩
    · rw [kmallocCarve, hread]
      refine (if_neg hsplit).trans ?_
      rw [Word.add_eq]
      dsimp only
      rw [load_store_of_disjoint, Blk.stop]
    · intro y hy
      rw [hcarved.payload y hy, hkept y hy]

/-- **The allocator between two calls**: the heap invariant holds and `mem_lock` is free. -/
structure KHeap (s : KMem) (bs : List Blk) (zu : Bool) (fl : List Nat) : Prop where
  /-- The heap. -/
  heap : Heap s.mem s.kbrkMin s.kbrk bs zu fl
  /-- The lock. -/
  unlocked : s.memLock = spinlockInit

/-- What `kmalloc(size)` has done when it returns `ptr`. -/
structure Malloced (s : KMem) (bs : List Blk) (size ptr : Nat) (s' : KMem) (bs' : List Blk) :
    Prop where
  /-- There is one more used block, large enough, and `ptr` points behind its header. -/
  used : ∃ a n, ptr = a + 4 ∧ size + 4 ≤ n ∧ (∀ k, ¬ Used bs a k) ∧
    ∀ a' k, Used bs' a' k ↔ Used bs a' k ∨ a' = a ∧ k = n
  zero : ∀ y, ptr ≤ y → y < ptr + size → s'.mem y = 0
  payload : ∀ y, Payload bs y → s'.mem y = s.mem y
  bounds : s'.kbrkMin = s.kbrkMin ∧ s'.kbrkMax = s.kbrkMax
  /-- The break has stayed, or it has moved up by whole pages and stayed below `kbrk_max`. -/
  brk : s'.kbrk = s.kbrk ∨ s.kbrk < s'.kbrk ∧ s'.kbrk ≤ s.kbrkMax ∧ s'.kbrk % 4096 = s.kbrk % 4096

theorem HeapRep.used_apart (h : HeapRep m lo hi bs zu fl) {a' n' : Nat} (hu : Used bs a n)
    (hu' : Used bs a' n') (hne : a ≠ a') : a + n ≤ a' ∨ a' + n' ≤ a := by
  obtain ⟨b, hb, -, rfl, rfl⟩ := hu
  obtain ⟨c, hc, -, rfl, rfl⟩ := hu'
  rcases h.tiles.apart hb hc with rfl | hlt | hlt
  · exact absurd rfl hne
  · exact .inl hlt
  · exact .inr hlt

theorem HeapRep.used_bounds (h : HeapRep m lo hi bs zu fl) (hu : Used bs a n) :
    lo + 4 ≤ a ∧ a + n + 4 ≤ hi ∧ a % 4 = 0 := by
  obtain ⟨b, hb, -, rfl, rfl⟩ := hu
  obtain ⟨h1, h2, -, -, h5⟩ := h.mem hb
  exact ⟨h1, h2, h5⟩

/-- The heap does not depend on the bytes of used blocks, nor on memory outside its bounds. -/
theorem Heap.congr {m' : ByteMem} (h : Heap m lo hi bs zu fl)
    (hout : ∀ y, lo ≤ y → y < hi → ¬ Payload bs y → m' y = m y) : Heap m' lo hi bs zu fl := by
  have hle := h.tiles.le
  -- a word in front of the payload of every used block, or behind it, is kept
  have hkeep : ∀ w, lo ≤ w → w + 4 ≤ hi →
      (∀ b ∈ bs, b.used = true → w + 4 ≤ b.addr + 4 ∨ b.stop ≤ w) → m'.load w = m.load w := by
    intro w hlo hhi hw
    refine load_congr fun y hy hy' => hout y (by omega) (by omega) ?_
    rintro ⟨b, hb, hused, hy1, hy2⟩
    have := hw b hb hused
    omega
  refine ⟨⟨h.pos, h.lo_mod, h.hi_lt, h.tiles, ?_, ?_, ?_, ?_, h.nodup, h.free⟩, h.listed,
    h.coalesced⟩
  · intro b hb
    obtain ⟨hba, hbhi, hbs, -⟩ := h.mem hb
    rw [hkeep b.addr (by omega) (by omega) ?_, h.header b hb]
    intro c hc _
    rcases h.tiles.apart hb hc with rfl | hlt | hlt
    · exact .inl (Nat.le_refl _)
    · rw [Blk.stop] at hlt
      omega
    · exact .inr hlt
  · intro b hb hfree
    obtain ⟨hba, hbhi, hbs, -⟩ := h.mem hb
    rw [hkeep (b.stop - 4) (by rw [Blk.stop]; omega) (by rw [Blk.stop]; omega) ?_,
      h.footer b hb hfree]
    intro c hc hcused
    rcases h.tiles.apart hb hc with rfl | hlt | hlt
    · rw [hfree] at hcused
      cases hcused
    · left
      omega
    · right
      simp only [Blk.stop] at hlt ⊢
      omega
  · rw [hkeep (hi - 4) (by omega) (by omega) ?_, h.epilogue]
    intro c hc _
    have := h.mem hc
    rw [Blk.stop]
    omega
  · refine h.list.congr (hkeep lo (by omega) (by omega) ?_) ?_
    · intro c hc _
      have := h.mem hc
      omega
    · intro x hx
      obtain ⟨b, hb, hfree, rfl⟩ := h.free x hx
      obtain ⟨hba, hbhi, hbs, -⟩ := h.mem hb
      have hlink : ∀ d, d = 4 ∨ d = 8 → m'.load (b.addr + d) = m.load (b.addr + d) := by
        intro d hd
        refine hkeep _ (by omega) (by omega) ?_
        intro c hc hcused
        rcases h.tiles.apart hb hc with rfl | hlt | hlt
        · rw [hfree] at hcused
          cases hcused
        · rw [Blk.stop] at hlt
          omega
        · omega
      exact ⟨hlink 4 (.inl rfl), hlink 8 (.inr rfl)⟩

/-- **`kmalloc`** returns a new block, unless no free block is large enough and `mem_sbrk`
panics. -/
theorem kmalloc_spec (h : KHeap s bs zu fl) (hpos : 0 < size)
    (hfit : s.kbrk + size + 3 * 4096 ≤ 2 ^ 32) : kmalloc s size = .error sbrkPanic ∧
        (∀ b ∈ bs, b.used = false → b.size < validSize size) ∨
    ∃ ptr s' bs' zu' fl', kmalloc s size = .ok (ptr, s') ∧ KHeap s' bs' zu' fl' ∧
      Malloced s bs size ptr s' bs' := by
  obtain ⟨hv, hv16, hvmod, hvle⟩ := validSize_spec size (by omega)
  have hheap : Heap { s with cpu := s.cpu.acquired, memLock := s.cpu.holding : KMem }.mem s.kbrkMin
      s.kbrk bs zu fl := h.heap
  rw [kmalloc, if_neg (by omega), h.unlocked, spinlockAcquire_init, ok_bind]
  dsimp only
  rcases kmallocFind_eq hheap hv16 (show s.kbrk + validSize size + 2 * 4096 ≤ 2 ^ 32 by omega) with
    ⟨hfind, hnone⟩ | ⟨m1, n, b, bs1, zu1, fl1, hfind, hmax, hn, h1, hu1, ⟨hb, hfree, hbsize⟩, hp1⟩
  · exact .inl ⟨by rw [hfind, error_bind], hnone⟩
  obtain ⟨L, R, rfl⟩ := List.append_of_mem hb
  obtain ⟨m2, bs2, zu2, fl2, k, hcarve, hk, hcarved⟩ := kmallocCarve_eq h1 hfree hv16 hvmod hbsize
  obtain ⟨hba, hbhi, -⟩ := h1.mem hb
  have hhi := h1.hi_lt
  have hLR : ∀ a i, Used (L ++ R) a i ↔ Used bs a i := by
    intro a i
    rw [← hu1]
    simp [used_append, used_cons, hfree]
  have hused : ∀ a i, Used bs2 a i ↔ Used bs a i ∨ a = b.addr ∧ i = k := by
    intro a i
    rw [hcarved.used, hLR]
  have hnew : Used bs2 b.addr k := (hused _ _).2 (.inr ⟨rfl, rfl⟩)
  have hfresh : ∀ i, ¬ Used bs b.addr i := by
    intro i hu
    obtain ⟨c, hc, hcused, he, -⟩ := (hu1 _ _).2 hu
    obtain rfl := h1.tiles.eq_of_addr hc hb he
    rw [hfree] at hcused
    cases hcused
  have hbound : b.addr + 4 + size ≤ 2 ^ 32 := by omega
  -- clearing the new block does not touch the others
  have hwrite : ∀ y, s.kbrkMin ≤ y → y < s.kbrk + n → ¬ Payload bs2 y →
      m2.memset (b.addr + 4) 0 size y = m2 y := by
    intro y _ _ hy
    refine ByteMem.memset_of_not_mem hbound ?_
    by_contra hin
    exact hy (payload_iff.2 ⟨b.addr, k, hnew, by omega, by omega⟩)
  refine .inr ⟨b.addr + 4, { s with
      mem := m2.memset (b.addr + 4) 0 size
      kbrk := s.kbrk + n
      cpu := s.cpu.acquired.released
      memLock := spinlockInit }, bs2, zu2, fl2, ?_, ⟨hcarved.heap.congr hwrite, rfl⟩,
    ⟨b.addr, k, rfl, by omega, hfresh, hused⟩, ?_, ?_, ⟨rfl, rfl⟩, ?_⟩
  · rw [hfind, ok_bind]
    dsimp only [memHeapLo]
    rw [hcarve, ok_bind, spinlockRelease_acquired, ok_bind, Word.add_eq]
  · intro y hy hy'
    exact ByteMem.memset_of_mem hbound ⟨hy, hy'⟩
  · intro y hy
    have hy2 : Payload (L ++ R) y := (payload_congr hLR y).2 hy
    obtain ⟨a, i, hu, hya, hyi⟩ := payload_iff.1 hy
    have hne : a ≠ b.addr := by
      rintro rfl
      exact hfresh i hu
    have hapart := hcarved.heap.used_apart ((hused a i).2 (.inl hu)) hnew hne
    have hset : m2.memset (b.addr + 4) 0 size y = m2 y :=
      ByteMem.memset_of_not_mem hbound (by omega)
    exact (hset.trans (hcarved.payload y hy2)).trans (hp1 y hy)
  · rcases Nat.eq_zero_or_pos n with rfl | hnpos
    · exact .inl rfl
    · refine .inr ⟨?_, ?_, ?_⟩
      · show s.kbrk < s.kbrk + n
        omega
      · exact hmax.resolve_left (by omega)
      · show (s.kbrk + n) % 4096 = s.kbrk % 4096
        omega

/-! ## `kfree` -/

/-- A block of `n` bytes at `a` has been given back. -/
structure Freed (s : KMem) (bs : List Blk) (a n : Nat) (s' : KMem) (bs' : List Blk) : Prop where
  used : ∀ a' k, Used bs' a' k ↔ Used bs a' k ∧ a' ≠ a
  payload : ∀ y, Payload bs' y → s'.mem y = s.mem y
  /-- Its header is not that of a used block, and neither are words outside of it that were not. -/
  clear : ∀ w, w % 4 = 0 → s.kbrkMin + 4 ≤ w → (∀ c ∈ bs, w ≠ c.addr + 4 ∧ w ≠ c.addr + 8) →
    w = a ∨ (w + 4 ≤ a ∨ a + n ≤ w) ∧ blockIsUsed s.mem w = 0 → blockIsUsed s'.mem w = 0
  heap : s'.kbrkMin = s.kbrkMin ∧ s'.kbrk = s.kbrk ∧ s'.kbrkMax = s.kbrkMax

/-- **`kfree`** of the payload of a used block gives the block back. -/
theorem kfree_spec (h : KHeap s bs zu fl) (hu : Used bs a n) :
    ∃ s' bs' zu' fl', kfree s (a + 4) = .ok s' ∧ KHeap s' bs' zu' fl' ∧ Freed s bs a n s' bs' := by
  obtain ⟨b, hb, hused, rfl, rfl⟩ := hu
  obtain ⟨hba, hbhi, -⟩ := h.heap.mem hb
  have hhi := h.heap.hi_lt
  obtain ⟨hsize, hbused, -⟩ := h.heap.read hb
  obtain ⟨L, R, rfl⟩ := List.append_of_mem hb
  obtain ⟨m', bs', zu', fl', hrun, hheap, hused', hpay, hclear⟩ := freeBlock_all h.heap hused
  have hone : ¬ blockIsUsed s.mem b.addr = 0 := by
    rw [hbused, hused, Bool.toNat_true]
    exact Nat.one_ne_zero
  refine ⟨{ s with mem := m', cpu := s.cpu.acquired.released, memLock := spinlockInit }, bs', zu',
    fl', ?_, ⟨hheap, rfl⟩, ?_, ?_, hclear, rfl, rfl, rfl⟩
  · rw [kfree, if_neg (Nat.succ_ne_zero _), h.unlocked, spinlockAcquire_init, ok_bind]
    dsimp only [memHeapLo]
    rw [Word.add_sub_cancel, if_neg hone, hsize, hrun, ok_bind, spinlockRelease_acquired, ok_bind]
  · intro a' k
    rw [hused']
    constructor
    · rintro ⟨c, hc, hcused, rfl, rfl⟩
      exact ⟨⟨c, mem_middle hc, hcused, rfl, rfl⟩, h.heap.tiles.addr_ne hc⟩
    · rintro ⟨⟨c, hc, hcused, rfl, rfl⟩, hne⟩
      have hcb : c ≠ b := by
        rintro rfl
        exact hne rfl
      exact ⟨c, by simpa [hcb] using hc, hcused, rfl, rfl⟩
  · intro y hy
    exact hpay y ((payload_congr hused' y).1 hy)

end JinxOS
