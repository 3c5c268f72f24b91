import JinxOS.Mem.Runs

/-!
# `krealloc`

The last function of `mem/mm.c`.  `krealloc` first tries to resize a block where it is: it gives
back the end of the block, takes free space behind it, moves the break if nothing but free space
separates the block from the end of the heap, or slides the block down into a free block before it.
Only if all of that fails it asks `kmalloc` for another block.

Every branch but the two that move the break ends with bytes `[s, e)` that belong to no other block
and are not on the free list, and makes a used block of them; those are `Cut.take` and `Cut.split`
again, which `kmalloc` uses too.  This file has the code and those branches.  What can go wrong is
in `JinxOS.Mem.Resize`.
-/

namespace JinxOS

/-! ## The code -/

/-- `NEXT_BLOCK_SIZE(x)`. -/
def nextBlockSize (m : ByteMem) (b : Nat) : Nat := SIZE (m.load (Word.add b (SIZE (m.load b))))

/-- `copy_payload`. -/
def copyPayload (m : ByteMem) (src dst : Nat) : ByteMem :=
  let payloadSize := Word.sub (SIZE (m.load src)) 4
  m.copyWords (Word.add src 4) (Word.add dst 4) (payloadSize / 4)

/-- What the branches that merge `block` with free neighbours end with.  The result has `size`
bytes; what is more than `allocSize` is given back if it is large enough for a block of its own. -/
def kreallocFit (lo : Nat) (m : ByteMem) (block size allocSize : Nat) : Except Fault ByteMem :=
  let m := m.store block (1 ||| prevBlockIsUsed m block)
  if minBlockSize ≤ Word.sub size allocSize then
    freeBlock lo (m.store block (m.load block ||| allocSize)) block size allocSize
  else
    let m := m.store block (m.load block ||| size)
    .ok (m.store (Word.add block size) (m.load (Word.add block size) ||| 2))

/-- What the branches at the end of the heap end with: the break is moved by `incr`, `block` gets
its new size, and the last word of the heap becomes the epilogue. -/
def kreallocGrow (s : KMem) (block allocSize incr : Nat) : Except Fault KMem := do
  let (_, s) ← memSbrk s incr
  let m := s.mem.store block (allocSize ||| 1 ||| prevBlockIsUsed s.mem block)
  .ok { s with mem := m.store (Word.sub (memHeapHi s) 3) 3 }

/-- The last branch: a new block, a copy of the data, and the old block freed. -/
def kreallocMove (s : KMem) (block allocSize : Nat) : Except Fault (Nat × KMem) := do
  let (ptr, s) ← kmalloc s (Word.sub allocSize 4)
  let newBlock := Word.sub ptr 4
  let s ← kfree { s with mem := copyPayload s.mem block newBlock } (Word.add block 4)
  .ok (newBlock, s)

/-- The branches of `krealloc`, in their order, for a block that has been looked at: the block that
holds the data afterwards, and the state. -/
def kreallocChoose (s : KMem) (block blockSize nextBlock prevBlock allocSize : Nat) :
    Except Fault (Nat × KMem) :=
  let lo := memHeapLo s
  let m := s.mem
  let withNext := Word.add blockSize (SIZE (m.load nextBlock))
  let withBoth := Word.add withNext (SIZE (m.load prevBlock))
  let withPrev := Word.add blockSize (SIZE (m.load prevBlock))
  if allocSize ≤ blockSize then
    if minBlockSize ≤ Word.sub blockSize allocSize then do
      let m := m.store block (allocSize ||| 1 ||| prevBlockIsUsed m block)
      let m ← freeBlock lo m block blockSize allocSize
      .ok (block, { s with mem := m })
    else .ok (block, s)
  else if nextBlockSize m block = 0 then do
    let s ← kreallocGrow s block allocSize (Word.sub allocSize blockSize)
    .ok (block, s)
  else if blockIsUsed m nextBlock = 0 ∧ allocSize ≤ withNext then do
    let m ← kreallocFit lo (removeFreeBlock lo m nextBlock) block withNext allocSize
    .ok (block, { s with mem := m })
  else if blockIsUsed m nextBlock = 0 ∧ nextBlockSize m nextBlock = 0 then do
    let s ← kreallocGrow { s with mem := removeFreeBlock lo m nextBlock } block allocSize
      (Word.sub allocSize withNext)
    .ok (block, s)
  else if prevBlockIsUsed m block = 0 ∧ blockIsUsed m nextBlock = 0 ∧ allocSize ≤ withBoth then do
    let m := removeFreeBlock lo (removeFreeBlock lo m nextBlock) prevBlock
    let m ← kreallocFit lo (copyPayload m block prevBlock) prevBlock withBoth allocSize
    .ok (prevBlock, { s with mem := m })
  else if prevBlockIsUsed m block = 0 ∧ allocSize ≤ withPrev then do
    let m := removeFreeBlock lo m prevBlock
    let m ← kreallocFit lo (copyPayload m block prevBlock) prevBlock withPrev allocSize
    .ok (prevBlock, { s with mem := m })
  else kreallocMove s block allocSize

/-- The critical section of `krealloc`: the header of the block and the one before it are read. -/
def kreallocBlock (s : KMem) (block size : Nat) : Except Fault (Nat × KMem) :=
  let m := s.mem.store block (s.mem.load block ||| 1)
  let blockSize := SIZE (m.load block)
  let prevBlock :=
    if prevBlockIsUsed m block = 0 then Word.sub block (SIZE (m.load (Word.sub block 4))) else 0
  kreallocChoose { s with mem := m } block blockSize (Word.add block blockSize) prevBlock
    (validSize size)

/-- `krealloc`. -/
def krealloc (s : KMem) (ptr size : Nat) : Except Fault (Nat × KMem) :=
  if ptr = 0 then kmalloc s size
  else if size = 0 then do
    let s ← kfree s ptr
    .ok (0, s)
  else do
    let (cpu, lk) ← spinlockAcquire s.cpu s.memLock
    let (block, s) ← kreallocBlock { s with cpu := cpu, memLock := lk } (Word.sub ptr 4) size
    let (cpu, lk) ← spinlockRelease s.cpu s.memLock
    .ok (Word.add block 4, { s with cpu := cpu, memLock := lk })

/-! ## Reading the heap -/

variable {m m₁ : ByteMem} {lo hi s e k : Nat} {L seg R X P N : List Blk} {zu pu eu : Bool}
  {fl fl₁ : List Nat}

section
variable {m : ByteMem} {lo hi : Nat} {bs L R : List Blk} {b c : Blk} {zu : Bool} {fl : List Nat}

theorem HeapRep.store_used (h : HeapRep m lo hi bs zu fl) (hb : b ∈ bs) (hused : b.used = true) :
    m.store b.addr (m.load b.addr ||| 1) = m := by
  have hmod := (h.mem hb).2.2.2.1
  have hsame : m.load b.addr ||| 1 = m.load b.addr := by
    rw [h.header b hb, Blk.tag, Word.or_flags hmod b.flags_lt (by omega), hused]
    cases b.prevUsed <;> rfl
  rw [hsame, ByteMem.store_load_self]

theorem HeapRep.nextBlockSize_last (h : HeapRep m lo hi (L ++ [b]) zu fl) :
    nextBlockSize m b.addr = 0 := by
  obtain ⟨-, hbhi, -⟩ := h.mem (b := b) (by simp)
  have hhi := h.hi_lt
  obtain ⟨s, su, -, ⟨-, -⟩, hstop, rfl⟩ := tiles_append.1 h.tiles
  rw [nextBlockSize, (h.read (by simp)).1, Word.add_eq]
  rw [Blk.stop] at hstop
  rw [hstop, h.epilogue]
  cases b.used <;> rfl

theorem HeapRep.addr_next (h : HeapRep m lo hi (L ++ b :: c :: R) zu fl) :
    Word.add b.addr b.size = c.addr := by
  obtain ⟨-, hbhi, -⟩ := h.mem (b := b) (by simp)
  have hhi := h.hi_lt
  rw [Word.add_eq, h.tiles.next.1, Blk.stop]

theorem HeapRep.nextBlockSize_next (h : HeapRep m lo hi (L ++ b :: c :: R) zu fl) :
    nextBlockSize m b.addr = c.size := by
  rw [nextBlockSize, (h.read (by simp)).1, h.addr_next, (h.read (by simp)).1]

section
variable (h : HeapRep m lo hi (L ++ c :: b :: R) zu fl) (hfree : c.used = false)
include h hfree

theorem HeapRep.addr_prev : Word.sub b.addr (SIZE (m.load (Word.sub b.addr 4))) = c.addr := by
  obtain ⟨hca, hchi, hcs, -⟩ := h.mem (b := c) (by simp)
  have hhi := h.hi_lt
  have hstop : b.addr = c.addr + c.size := h.tiles.next.1
  have hword : Word.sub b.addr 4 = c.stop - 4 := by
    rw [Word.sub_eq, hstop, Blk.stop]
  rw [hword, h.footer c (by simp) hfree, Word.sub_eq]
  omega

theorem HeapRep.prev_free : prevBlockIsUsed m b.addr = 0 := by
  rw [(h.read (by simp)).2.2, h.tiles.next.2, hfree, Bool.toNat_false]

end

/-- **The section reads** the size of the block and where its neighbours are. -/
theorem kreallocBlock_eq {s : KMem} {size : Nat} (h : HeapRep s.mem s.kbrkMin s.kbrk bs zu fl)
    (hb : b ∈ bs) (hused : b.used = true) :
    kreallocBlock s b.addr size = kreallocChoose s b.addr b.size (Word.add b.addr b.size)
      (if prevBlockIsUsed s.mem b.addr = 0 then
        Word.sub b.addr (SIZE (s.mem.load (Word.sub b.addr 4))) else 0) (validSize size) := by
  rw [kreallocBlock, h.store_used hb hused, (h.read hb).1]

theorem HeapRep.copyPayload_apply (h : HeapRep m lo hi bs zu fl) (hb : b ∈ bs) {p : Nat}
    (hp : p ≤ b.addr) (y : Nat) :
    copyPayload m b.addr p y = if p + 4 ≤ y ∧ y < p + b.size then m (y - p + b.addr) else m y := by
  obtain ⟨-, hbhi, hbs, hmod, -⟩ := h.mem hb
  have hhi := h.hi_lt
  have hwords : 4 * ((b.size - 4) / 4) = b.size - 4 := by omega
  rw [copyPayload, (h.read hb).1, Word.sub_eq, Word.add_eq,
    Word.add_eq, ByteMem.copyWords_apply (by omega) _ (by omega), hwords]
  by_cases hy : p + 4 ≤ y ∧ y < p + b.size
  · rw [if_pos hy, if_pos (by omega)]
    congr 1
    omega
  · rw [if_neg hy, if_neg (by omega)]

end

/-! ## Fitting a block into free space -/

theorem Unlisted.cut (h : Heap m lo hi (L ++ (seg ++ R)) zu fl)
    (hun : Unlisted m m₁ lo hi (L ++ (seg ++ R)) zu fl fl₁ X)
    (hX : ∀ c, c ∈ X ↔ c ∈ seg ∧ c.used = false) (hL : Tiles (lo + 4) true L s pu)
    (hseg : Tiles s pu seg e eu) : Cut m₁ lo hi L seg R zu fl₁ s e pu eu := by
  have hR : Tiles e eu R (hi - 4) zu := (h.tiles.rest hL).rest hseg
  obtain ⟨hLpair, hrest, -⟩ := noFreePair_append.1 h.coalesced
  refine ⟨hun.rep, hL, hR, ?_, ?_, hLpair, (noFreePair_append.1 hrest).2.1⟩
  · intro x hx
    obtain ⟨hx, hne⟩ := (hun.mem x).1 hx
    obtain ⟨b, hb, hfree, rfl⟩ := h.free x hx
    have hbseg : b ∉ seg := fun hb => hne b ((hX b).2 ⟨hb, hfree⟩) rfl
    refine ⟨b, ?_, hfree, rfl⟩
    simp only [List.mem_append] at hb ⊢
    tauto
  · intro c hc hfree
    have hcmem : c ∈ L ++ (seg ++ R) := by
      simp only [List.mem_append] at hc ⊢
      tauto
    refine (hun.mem _).2 ⟨h.listed c hcmem hfree, fun d hd he => ?_⟩
    obtain ⟨hds, hde, hdsize⟩ := hseg.bounds ((hX d).1 hd).1
    rcases List.mem_append.1 hc with hc | hc
    · obtain ⟨-, hcstop, hcsize⟩ := hL.bounds hc
      omega
    · have hce := (hR.bounds hc).1
      omega

/-- **The end of the merging branches** makes a used block of at least `k` bytes at `s`. -/
theorem Cut.fit (h : Cut m lo hi L seg R zu fl s e pu eu) (m₁ : ByteMem)
    (hout : ∀ y, y < s ∨ e ≤ y → m₁ y = m y) (hflag : prevBlockIsUsed m₁ s = 2 * pu.toNat)
    (hk : 16 ≤ k) (hkmod : k % 4 = 0) (hle : s + k ≤ e) (hmod : (e - s) % 4 = 0) :
    ∃ m' n bs' zu' fl', kreallocFit lo m₁ s (e - s) k = .ok m' ∧ k ≤ n ∧
      Filled m m₁ m' lo hi L R s n bs' zu' fl' := by
  have heh := h.right.le
  have hhi := h.rep.hi_lt
  have hflags : 1 ||| 2 * pu.toNat < 2 ^ 32 :=
    Nat.or_lt_two_pow (by omega) (by have := Bool.toNat_lt pu; omega)
  -- the header is put together in two steps
  have hheader : ∀ n, n % 4 = 0 → (m₁.store s (1 ||| 2 * pu.toNat)).load s ||| n =
      (⟨s, n, true, pu⟩ : Blk).tag := by
    intro n hn
    rw [load_store_same hflags, Nat.or_comm, ← Nat.or_assoc]
    exact Blk.tag_of_flags hn s pu
  have hkept : ∀ v w y, y < s ∨ s + 4 ≤ y → ((m₁.store s v).store s w) y = m₁ y := by
    intro v w y hy
    rw [store_apply hy, store_apply hy]
  rw [kreallocFit, hflag, Word.sub_eq, minBlockSize, hheader k hkmod]
  by_cases hsplit : 16 ≤ e - s - k
  · obtain ⟨m', bs', zu', fl', hrun, hfill⟩ := h.split
      ((m₁.store s (1 ||| 2 * pu.toNat)).store s (⟨s, k, true, pu⟩ : Blk).tag)
      (fun y hy => (hkept _ _ y (by omega)).trans (hout y hy))
      (load_store_same (Blk.tag_lt (show k + 4 ≤ 2 ^ 32 by omega))) hk hkmod (by omega) hmod
    refine ⟨m', k, bs', zu', fl', ?_, Nat.le_refl k, hfill.heap, hfill.used, hfill.payload, ?_⟩
    · rw [if_pos hsplit, hrun]
    · intro y hy hy'
      rw [hfill.kept y hy hy', hkept _ _ y (.inr hy)]
  · obtain ⟨bs', zu', fl', hfill⟩ := h.take
      ((m₁.store s (1 ||| 2 * pu.toNat)).store s (⟨s, e - s, true, pu⟩ : Blk).tag)
      (fun y hy => (hkept _ _ y (by omega)).trans (hout y hy))
      (load_store_same (Blk.tag_lt (show e - s + 4 ≤ 2 ^ 32 by omega))) (by omega) hmod
    refine ⟨_, e - s, bs', zu', fl', ?_, by omega, hfill.heap, hfill.used, hfill.payload, ?_⟩
    · rw [if_neg hsplit, hheader _ hmod, Word.add_eq, show s + (e - s) = e by omega]
    · intro y hy hy'
      rw [hfill.kept y hy hy', hkept _ _ y (.inr hy)]

/-! ## The branches that stay below the break -/

/-- The heap after the used block `b` has been replaced by one of at least `k` bytes at `r`, with
the data of `b` moved along. -/
structure Resized (m m' : ByteMem) (lo hi : Nat) (bs : List Blk) (b : Blk) (k r : Nat)
    (bs' : List Blk) (zu' : Bool) (fl' : List Nat) : Prop where
  heap : Heap m' lo hi bs' zu' fl'
  used : ∃ n, k ≤ n ∧ ∀ a j, Used bs' a j ↔ Used bs a j ∧ a ≠ b.addr ∨ a = r ∧ j = n
  others : ∀ a j, Used bs a j → a ≠ b.addr → ∀ y, a + 4 ≤ y → y < a + j → m' y = m y
  /-- The data of `b` is in the new block, as far as it fits. -/
  data : ∀ i, 4 ≤ i → i < b.size → i < k → m' (r + i) = m (b.addr + i)

theorem used_sides {z : Nat} {b : Blk} (h : Tiles lo pu (L ++ (P ++ b :: N ++ R)) z zu)
    (hP : ∀ c ∈ P, c.used = false) (hN : ∀ c ∈ N, c.used = false) (a j : Nat) :
    Used (L ++ R) a j ↔ Used (L ++ (P ++ b :: N ++ R)) a j ∧ a ≠ b.addr := by
  have hsplit : L ++ (P ++ b :: N ++ R) = (L ++ P) ++ b :: (N ++ R) := by simp
  rw [hsplit] at h ⊢
  constructor
  · rintro ⟨c, hc, hused, rfl, rfl⟩
    have hc' : c ∈ L ++ P ++ (N ++ R) := by
      simp only [List.mem_append] at hc ⊢
      tauto
    exact ⟨⟨c, mem_middle hc', hused, rfl, rfl⟩, h.addr_ne hc'⟩
  · rintro ⟨⟨c, hc, hused, rfl, rfl⟩, hne⟩
    refine ⟨c, ?_, hused, rfl, rfl⟩
    simp only [List.mem_append, List.mem_cons] at hc ⊢
    rcases hc with (hc | hc) | rfl | hc | hc
    · exact .inl hc
    · rw [hP c hc] at hused
      cases hused
    · exact absurd rfl hne
    · rw [hN c hc] at hused
      cases hused
    · exact .inr hc

/-- A run with one used block has been filled: `m` is the heap before the call, `m₁` the one with
the free blocks of the run off the list, and in `m₂` the data is in its new place. -/
theorem Filled.resized {m2 m' : ByteMem} {n : Nat} {bs' : List Blk} {b : Blk} {zu' : Bool}
    {fl' : List Nat} (h : Heap m lo hi (L ++ (P ++ b :: N ++ R)) zu fl)
    (hfill : Filled m₁ m2 m' lo hi L R s n bs' zu' fl') (hP : ∀ c ∈ P, c.used = false)
    (hN : ∀ c ∈ N, c.used = false) (hle : k ≤ n)
    (hpay : ∀ y, Payload (L ++ (P ++ b :: N ++ R)) y → m₁ y = m y)
    (hdata : ∀ i, 4 ≤ i → i < b.size → m2 (s + i) = m (b.addr + i)) :
    Resized m m' lo hi (L ++ (P ++ b :: N ++ R)) b k s bs' zu' fl' := by
  have hsides := used_sides h.tiles hP hN
  refine ⟨hfill.heap, ⟨n, hle, fun a j => by rw [hfill.used, hsides]⟩, ?_, ?_⟩
  · intro a j hu hne y hy hy'
    rw [hfill.payload y (payload_iff.2 ⟨a, j, (hsides a j).2 ⟨hu, hne⟩, hy, hy'⟩),
      hpay y (payload_iff.2 ⟨a, j, hu, hy, hy'⟩)]
  · intro i hi hib hik
    rw [hfill.kept (s + i) (by omega) (by omega), hdata i hi hib]

theorem Unlisted.slid {bs : List Blk} {b p : Blk} (hun : Unlisted m m₁ lo hi bs zu fl fl₁ X)
    (hb : b ∈ bs) (hused : b.used = true) (hp : p.addr ≤ b.addr) :
    (∀ y, y < p.addr + 4 ∨ b.addr + b.size ≤ y → copyPayload m₁ b.addr p.addr y = m₁ y) ∧
      ∀ i, 4 ≤ i → i < b.size → copyPayload m₁ b.addr p.addr (p.addr + i) = m (b.addr + i) := by
  constructor
  · intro y hy
    rw [hun.rep.copyPayload_apply hb hp, if_neg (by omega)]
  · intro i hi hib
    rw [hun.rep.copyPayload_apply hb hp, if_pos (by omega), show p.addr + i - p.addr + b.addr =
      b.addr + i by omega, hun.payload _ ⟨b, hb, hused, by omega, by rw [Blk.stop]; omega⟩]

section
variable {s : KMem} {L R : List Blk} {b : Blk} {zu : Bool} {fl : List Nat} {k prevBlock : Nat}
  (hused : b.used = true) (hk : 16 ≤ k) (hkmod : k % 4 = 0)
include hused hk hkmod

/-- **Shrinking**: the end of the block is given back if it is large enough. -/
theorem kreallocChoose_shrink (h : Heap s.mem s.kbrkMin s.kbrk (L ++ b :: R) zu fl)
    (hle : k ≤ b.size) :
    ∃ m' bs' zu' fl', kreallocChoose s b.addr b.size (Word.add b.addr b.size) prevBlock k =
        .ok (b.addr, { s with mem := m' }) ∧
      Resized s.mem m' s.kbrkMin s.kbrk (L ++ b :: R) b k b.addr bs' zu' fl' := by
  have hbmem : b ∈ L ++ b :: R := by simp
  obtain ⟨-, hbhi, hbsize, hbmod, -⟩ := h.mem hbmem
  have hhi := h.hi_lt
  rw [kreallocChoose]
  dsimp only
  rw [if_pos hle, Word.sub_eq hle (by omega), minBlockSize]
  by_cases hsplit : 16 ≤ b.size - k
  · rw [if_pos hsplit]
    have htag : k ||| 1 ||| prevBlockIsUsed s.mem b.addr =
        (⟨b.addr, k, true, b.prevUsed⟩ : Blk).tag := by
      rw [(h.read hbmem).2.2]
      exact Blk.tag_of_flags hkmod _ _
    have hstop : b.stop - b.addr = b.size := by
      rw [Blk.stop]
      omega
    obtain ⟨a, pu, hL, hrest⟩ := tiles_append.1 h.tiles
    obtain ⟨⟨rfl, rfl, h16, hmod4⟩, -⟩ := hrest
    have hcut : Cut s.mem s.kbrkMin s.kbrk L [b] R zu fl b.addr b.stop b.prevUsed b.used :=
      Unlisted.cut h h.unlisted_nil (by simp [hused]) hL ⟨⟨rfl, rfl, h16, hmod4⟩, rfl, rfl⟩
    obtain ⟨m', bs', zu', fl', hrun, hfill⟩ := hcut.split
      (s.mem.store b.addr (⟨b.addr, k, true, b.prevUsed⟩ : Blk).tag)
      (fun y hy => store_apply (by rw [Blk.stop] at hy; omega))
      (load_store_same (Blk.tag_lt (show k + 4 ≤ 2 ^ 32 by omega))) hk hkmod
      (by rw [Blk.stop]; omega) (by rw [hstop]; exact hbmod)
    rw [hstop] at hrun
    refine ⟨m', bs', zu', fl', ?_, ?_⟩
    · rw [htag, memHeapLo, hrun, ok_bind]
    · refine hfill.resized (P := []) (N := []) h (by simp) (by simp) (Nat.le_refl k)
        (fun _ _ => rfl) ?_
      intro i hi _
      exact store_apply
  · rw [if_neg hsplit]
    refine ⟨s.mem, _, _, _, rfl, h, ⟨b.size, hle, fun a j => ?_⟩, fun _ _ _ _ _ _ _ => rfl,
      fun _ _ _ _ => rfl⟩
    constructor
    · intro hu
      by_cases ha : a = b.addr
      · obtain ⟨c, hc, -, hca, rfl⟩ := hu
        obtain rfl := h.tiles.eq_of_addr hc hbmem (hca.trans ha)
        exact .inr ⟨ha, rfl⟩
      · exact .inl ⟨hu, ha⟩
    · rintro (⟨hu, -⟩ | ⟨rfl, rfl⟩)
      · exact hu
      · exact ⟨b, hbmem, hused, rfl, rfl⟩

/-- **Merging**: the free blocks `P` and `N` around `b` have been taken off the list, and the data
has been moved to the start of the run, which has `n` bytes. -/
theorem Heap.refit {c : Blk} {t : List Blk} {n : Nat}
    (h : Heap m lo hi (L ++ (P ++ b :: N ++ R)) zu fl) (hP : ∀ c ∈ P, c.used = false)
    (hN : ∀ c ∈ N, c.used = false) (hun : Unlisted m m₁ lo hi (L ++ (P ++ b :: N ++ R)) zu fl fl₁ X)
    (hX : ∀ c, c ∈ X ↔ c ∈ P ∨ c ∈ N) (hct : P ++ b :: N = c :: t)
    (hn : ((c :: t).map Blk.size).sum = n) (m2 : ByteMem)
    (hout : ∀ y, y < c.addr + 4 ∨ c.addr + n ≤ y → m2 y = m₁ y)
    (hdata : ∀ i, 4 ≤ i → i < b.size → m2 (c.addr + i) = m (b.addr + i)) (hle : k ≤ n) :
    ∃ m' bs' zu' fl', kreallocFit lo m2 c.addr n k = .ok m' ∧
      Resized m m' lo hi (L ++ (P ++ b :: N ++ R)) b k c.addr bs' zu' fl' := by
  obtain ⟨a, pu, hL, hrest⟩ := tiles_append.1 h.tiles
  obtain ⟨e, eu, hseg, -⟩ := tiles_append.1 hrest
  have hcut : Cut m₁ lo hi L (P ++ b :: N) R zu fl₁ a e pu eu := by
    refine hun.cut h (fun c => ?_) hL hseg
    rw [hX]
    constructor
    · rintro (hc | hc)
      · exact ⟨by simp [hc], hP c hc⟩
      · exact ⟨by simp [hc], hN c hc⟩
    · rintro ⟨hc, hfree⟩
      simp only [List.mem_append, List.mem_cons] at hc
      rcases hc with hc | rfl | hc
      · exact .inl hc
      · rw [hused] at hfree
        cases hfree
      · exact .inr hc
  have hcmem : c ∈ L ++ (P ++ b :: N ++ R) := by
    rw [hct]
    simp
  rw [hct] at hseg
  have hstop := hseg.sum_sizes
  have hmod := hseg.size_mod
  obtain ⟨⟨rfl, rfl, -⟩, -⟩ := hseg
  have hsize : e - c.addr = n := by omega
  -- the header of the first block of the run has its flag still
  have hflag : prevBlockIsUsed m2 c.addr = 2 * c.prevUsed.toNat := by
    have hload : m2.load c.addr = m₁.load c.addr := load_congr fun y _ hy => hout y (.inl hy)
    rw [prevBlockIsUsed, hload]
    exact (hun.rep.read hcmem).2.2
  obtain ⟨m', n', bs', zu', fl', hrun, hkn, hfill⟩ := hcut.fit m2 (fun y hy => hout y (by omega))
    hflag hk hkmod (by omega) hmod
  rw [hsize] at hrun
  exact ⟨m', bs', zu', fl', hrun, hfill.resized h hP hN hkn hun.payload hdata⟩

/-- **The free block behind is large enough.** -/
theorem kreallocChoose_next {x : Blk} (h : Heap s.mem s.kbrkMin s.kbrk (L ++ b :: x :: R) zu fl)
    (hfree : x.used = false) (hlt : b.size < k) (hle : k ≤ b.size + x.size) :
    ∃ m' bs' zu' fl', kreallocChoose s b.addr b.size (Word.add b.addr b.size) prevBlock k =
        .ok (b.addr, { s with mem := m' }) ∧
      Resized s.mem m' s.kbrkMin s.kbrk (L ++ b :: x :: R) b k b.addr bs' zu' fl' := by
  have hxmem : x ∈ L ++ b :: x :: R := by simp
  obtain ⟨-, hxhi, hxsize, -⟩ := h.mem hxmem
  have hhi := h.hi_lt
  have hxaddr : x.addr = b.addr + b.size := h.tiles.next.1
  obtain ⟨hxs, hxu, -⟩ := h.read hxmem
  rw [hfree, Bool.toNat_false] at hxu
  have hsum : Word.add b.size x.size = b.size + x.size := Word.add_eq
  have hun := h.unlisted (h.listed x hxmem hfree)
  obtain ⟨m', bs', zu', fl', hrun, hres⟩ := Heap.refit hused hk hkmod (P := []) (N := [x])
    (n := b.size + x.size) h (by simp) (by simpa using hfree) hun (by simp) rfl rfl _
    (fun _ _ => rfl)
    (fun i hi hib => hun.payload _ ⟨b, by simp, hused, by omega, by rw [Blk.stop]; omega⟩) hle
  refine ⟨m', bs', zu', fl', ?_, hres⟩
  rw [kreallocChoose]
  dsimp only
  rw [if_neg (by omega), h.nextBlockSize_next, if_neg (by omega), h.addr_next, hxs, hsum,
    if_pos ⟨hxu, hle⟩, memHeapLo, hrun, ok_bind]

/-- **The free block before is large enough** when the next one is used. -/
theorem kreallocChoose_prev {p r : Blk}
    (h : Heap s.mem s.kbrkMin s.kbrk (L ++ p :: b :: r :: R) zu fl) (hfree : p.used = false)
    (hrused : r.used = true) (hlt : b.size < k) (hle : k ≤ p.size + b.size) :
    ∃ m' bs' zu' fl', kreallocChoose s b.addr b.size (Word.add b.addr b.size) p.addr k =
        .ok (p.addr, { s with mem := m' }) ∧
      Resized s.mem m' s.kbrkMin s.kbrk (L ++ p :: b :: r :: R) b k p.addr bs' zu' fl' := by
  have hpmem : p ∈ L ++ p :: b :: r :: R := by simp
  have hbmem : b ∈ L ++ p :: b :: r :: R := by simp
  have hrmem : r ∈ L ++ p :: b :: r :: R := by simp
  have hrep : HeapRep s.mem s.kbrkMin s.kbrk ((L ++ [p]) ++ b :: r :: R) zu fl := by
    simpa using h.toHeapRep
  have hbhi := (h.mem hbmem).2.1
  have hhi := h.hi_lt
  have hbaddr : b.addr = p.addr + p.size := h.tiles.next.1
  have hrs := (h.mem hrmem).2.2.1
  have hru : blockIsUsed s.mem r.addr = 1 := by
    rw [(h.read hrmem).2.1, hrused, Bool.toNat_true]
  have hsum : Word.add b.size p.size = p.size + b.size := by
    rw [Word.add_eq]
    omega
  have hun := h.unlisted (h.listed p hpmem hfree)
  obtain ⟨hout, hdata⟩ := hun.slid (p := p) hbmem hused (by omega)
  obtain ⟨m', bs', zu', fl', hrun, hres⟩ := Heap.refit hused hk hkmod (P := [p]) (N := [])
    (n := p.size + b.size) h (by simpa using hfree) (by simp) hun (by simp) rfl rfl _
    (fun y hy => hout y (by omega)) hdata hle
  refine ⟨m', bs', zu', fl', ?_, hres⟩
  rw [kreallocChoose]
  dsimp only
  rw [if_neg (by omega), hrep.nextBlockSize_next, if_neg (by omega), hrep.addr_next, hru,
    if_neg (by omega), if_neg (by omega), if_neg (by omega), (h.read hpmem).1, hsum,
    if_pos ⟨h.prev_free hfree, hle⟩, memHeapLo, hrun, ok_bind]

/-- **The free blocks on both sides are large enough** together. -/
theorem kreallocChoose_both {p x r : Blk}
    (h : Heap s.mem s.kbrkMin s.kbrk (L ++ p :: b :: x :: r :: R) zu fl) (hpfree : p.used = false)
    (hxfree : x.used = false) (hlt : b.size + x.size < k) (hle : k ≤ p.size + b.size + x.size) :
    ∃ m' bs' zu' fl', kreallocChoose s b.addr b.size (Word.add b.addr b.size) p.addr k =
        .ok (p.addr, { s with mem := m' }) ∧
      Resized s.mem m' s.kbrkMin s.kbrk (L ++ p :: b :: x :: r :: R) b k p.addr bs' zu' fl' := by
  have hpmem : p ∈ L ++ p :: b :: x :: r :: R := by simp
  have hxmem : x ∈ L ++ p :: b :: x :: r :: R := by simp
  have hrep : HeapRep s.mem s.kbrkMin s.kbrk ((L ++ [p]) ++ b :: x :: r :: R) zu fl := by
    simpa using h.toHeapRep
  have hrep' : HeapRep s.mem s.kbrkMin s.kbrk ((L ++ [p, b]) ++ x :: r :: R) zu fl := by
    simpa using h.toHeapRep
  obtain ⟨-, hxhi, hxsize, -⟩ := h.mem hxmem
  have hhi := h.hi_lt
  have hbaddr : b.addr = p.addr + p.size := h.tiles.next.1
  have hxaddr : x.addr = b.addr + b.size := hrep.tiles.next.1
  have hrs := (h.mem (b := r) (by simp)).2.2.1
  obtain ⟨hxs, hxu, -⟩ := h.read hxmem
  rw [hxfree, Bool.toNat_false] at hxu
  have hsum : Word.add b.size x.size = b.size + x.size := Word.add_eq
  have hsum' : Word.add (b.size + x.size) p.size = p.size + (b.size + x.size) := by
    rw [Word.add_eq]
    omega
  have hunx := h.unlisted (h.listed x hxmem hxfree)
  have hun := hunx.trans (hunx.rep.unlisted ((hunx.mem _).2
    ⟨h.listed p hpmem hpfree, by simp only [List.mem_singleton, forall_eq]; omega⟩))
  obtain ⟨hout, hdata⟩ := hun.slid (p := p) (by simp) hused (by omega)
  obtain ⟨m', bs', zu', fl', hrun, hres⟩ := Heap.refit hused hk hkmod (P := [p]) (N := [x])
    (n := p.size + (b.size + x.size)) h (by simpa using hpfree) (by simpa using hxfree) hun
    (by simp [or_comm]) rfl rfl _ (fun y hy => hout y (by omega)) hdata (by omega)
  refine ⟨m', bs', zu', fl', ?_, hres⟩
  rw [kreallocChoose]
  dsimp only
  rw [if_neg (by omega), hrep.nextBlockSize_next, if_neg (by omega), hrep.addr_next, hxs, hsum,
    if_neg (by omega), hrep'.nextBlockSize_next, if_neg (by omega), (h.read hpmem).1, hsum',
    if_pos ⟨h.prev_free hpfree, hxu, by omega⟩, memHeapLo, hrun, ok_bind]

end

end JinxOS
