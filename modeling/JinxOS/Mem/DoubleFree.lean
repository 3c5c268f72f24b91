import JinxOS.Mem.Sizes

/-!
# Freeing a pointer twice

`kfree` looks at the `BLOCK_USED` flag of the word before the pointer and does nothing if it is
clear.  After a first `kfree` of a pointer that word may stand in the middle of a larger free block,
because the block has been merged with its neighbours; it is a *stale* header.  The file shows that
the flag stays clear until the next allocation: the allocator writes headers and footers of free
blocks, in which the flag is clear, and links, and a stale header is never where the links of a
block are (`Stale.not_link`).

That a stale header is not a link is a matter of distances.  Between any two blocks, and before the
first one, there are no bytes or at least 16, so a stale header is either right behind a used block
or at least 16 bytes away from it, and a free block starts right behind a used block or at the start
of the heap.
-/

namespace JinxOS

/-! ## Distances in a heap -/

/-- A block stands at the start of a tiling or at least 16 bytes behind it. -/
theorem Tiles.gap {bs : List Blk} {z : Nat} {zu : Bool} {b : Blk} :
    ∀ {a : Nat} {pu : Bool}, Tiles a pu bs z zu → b ∈ bs → b.addr = a ∨ a + 16 ≤ b.addr := by
  intro a pu h hb
  cases bs with
  | nil => simp at hb
  | cons c bs =>
    obtain ⟨⟨rfl, -, hsize, -⟩, hrest⟩ := h
    rcases List.mem_cons.1 hb with rfl | hb
    · exact .inl rfl
    · have := (hrest.mem hb).1
      rw [Blk.stop] at this
      omega

/-- Two blocks of a tiling are neighbours or have at least 16 bytes between them. -/
theorem Tiles.gap_between {bs : List Blk} {a z : Nat} {pu zu : Bool} {b c : Blk}
    (h : Tiles a pu bs z zu) (hb : b ∈ bs) (hc : c ∈ bs) (hlt : c.addr < b.addr) :
    c.stop = b.addr ∨ c.stop + 16 ≤ b.addr := by
  obtain ⟨L, R, rfl⟩ := List.append_of_mem hc
  obtain ⟨_, _, hL, ⟨rfl, -⟩, hR⟩ := tiles_append.1 h
  simp only [List.mem_append, List.mem_cons] at hb
  rcases hb with hb | rfl | hb
  · have := hL.bounds hb
    omega
  · omega
  · rcases hR.gap hb with he | he
    · exact .inl he.symm
    · exact .inr he

/-- A free block stands at the start of the heap or right behind a used block. -/
theorem Heap.free_start {m : ByteMem} {lo hi : Nat} {bs : List Blk} {zu : Bool} {fl : List Nat}
    (h : Heap m lo hi bs zu fl) {c : Blk} (hc : c ∈ bs) (hfree : c.used = false) :
    c.addr = lo + 4 ∨ ∃ a n, Used bs a n ∧ a + n = c.addr := by
  obtain ⟨L, R, rfl⟩ := List.append_of_mem hc
  obtain ⟨-, -, hseam⟩ := noFreePair_append.1 h.coalesced
  obtain ⟨_, _, hL, ⟨rfl, -⟩, -⟩ := tiles_append.1 h.tiles
  cases hlast : L.getLast? with
  | none =>
    obtain rfl := List.getLast?_eq_none_iff.1 hlast
    exact .inl hL.1.symm
  | some d =>
    have hd := (hseam d hlast c rfl).resolve_right (by rw [hfree]; simp)
    obtain ⟨l, rfl⟩ := List.getLast?_eq_some_iff.1 hlast
    obtain ⟨_, _, -, -, hstop, -⟩ := tiles_append.1 hL
    exact .inr ⟨d.addr, d.size, ⟨d, by simp, hd, rfl, rfl⟩, hstop⟩

/-! ## Stale headers -/

/-- The word at `x` was the header of a block that has been freed. -/
structure Stale (s : KMem) (bs : List Blk) (x : Nat) : Prop where
  aligned : x % 4 = 0
  /-- It is at the start of the heap, or 16 bytes behind it. -/
  start : x = s.kbrkMin + 4 ∨ s.kbrkMin + 20 ≤ x
  inside : x + 4 < s.kbrk
  /-- It is right behind a used block, or 16 bytes away from it. -/
  apart : ∀ a n, Used bs a n → a + n = x ∨ a + n + 16 ≤ x ∨ x + 16 ≤ a
  clear : blockIsUsed s.mem x = 0

section
variable {s s' : KMem} {bs bs' : List Blk} {zu : Bool} {fl : List Nat} {a n x : Nat}

/-- **A stale header is not a link** of any block. -/
theorem Stale.not_link (hx : Stale s bs x) (h : KHeap s bs zu fl) :
    ∀ c ∈ bs, x ≠ c.addr + 4 ∧ x ≠ c.addr + 8 := by
  intro c hc
  have hsize := (h.heap.mem hc).2.2.1
  cases hused : c.used with
  | true =>
    have := hx.apart _ _ ⟨c, hc, hused, rfl, rfl⟩
    omega
  | false =>
    rcases h.heap.free_start hc hused with hstart | ⟨a, n, hu, he⟩
    · have := hx.start
      omega
    · have := hx.apart a n hu
      omega

theorem Stale.kfree (hx : Stale s bs x) (h : KHeap s bs zu fl) (hu : Used bs a n)
    (hf : Freed s bs a n s' bs') : Stale s' bs' x := by
  obtain ⟨hmin, hbrk, -⟩ := hf.heap
  have hstart := hx.start
  have hapart := hx.apart a n hu
  refine ⟨hx.aligned, by rw [hmin]; exact hstart, by rw [hbrk]; exact hx.inside, ?_, ?_⟩
  · intro b j hb
    exact hx.apart b j ((hf.used b j).1 hb).1
  · exact hf.clear x hx.aligned (by omega) (hx.not_link h) (.inr ⟨by omega, hx.clear⟩)

theorem Stale.of_kfree (h : KHeap s bs zu fl) (hu : Used bs a n) (hf : Freed s bs a n s' bs') :
    Stale s' bs' a := by
  obtain ⟨hmin, hbrk, -⟩ := hf.heap
  obtain ⟨hlo, hhi, hmod⟩ := h.heap.used_bounds hu
  obtain ⟨b, hb, hbused, rfl, rfl⟩ := hu
  have hsize := (h.heap.mem hb).2.2.1
  refine ⟨hmod, ?_, by omega, ?_, ?_⟩
  · have := h.heap.tiles.gap hb
    omega
  · intro c j hc
    obtain ⟨⟨d, hd, -, rfl, rfl⟩, hne⟩ := (hf.used c j).1 hc
    rcases h.heap.tiles.apart hb hd with rfl | hap | hap
    · exact absurd rfl hne
    · rw [Blk.stop] at hap
      omega
    · have hd16 := (h.heap.mem hd).2.2.1
      rw [Blk.stop] at hap
      have := h.heap.tiles.gap_between hb hd (by omega)
      rw [Blk.stop] at this
      omega
  · refine hf.clear b.addr hmod hlo ?_ (.inl rfl)
    intro c hc
    have hsize := (h.heap.mem hc).2.2.1
    rcases h.heap.tiles.apart hb hc with rfl | hap | hap
    · omega
    · rw [Blk.stop] at hap
      omega
    · rw [Blk.stop] at hap
      omega

/-- **`kfree` of a stale pointer** changes nothing. -/
theorem Stale.kfree_eq (hx : Stale s bs x) (h : KHeap s bs zu fl) :
    JinxOS.kfree s (x + 4) = .ok { s with cpu := s.cpu.acquired.released } := by
  have hhi := h.heap.hi_lt
  have hin := hx.inside
  rw [JinxOS.kfree, if_neg (Nat.succ_ne_zero _), h.unlocked, spinlockAcquire_init, ok_bind]
  dsimp only
  rw [Word.add_sub_cancel, if_pos hx.clear, ok_bind, spinlockRelease_acquired, ok_bind]

theorem Stale.write (hx : Stale s bs x) (hu : Used bs a n) {y : Nat} (hy : a + 4 ≤ y)
    (hy' : y < a + n) (v : UInt8) :
    Stale { s with mem := Function.update s.mem y v } bs x := by
  refine ⟨hx.aligned, hx.start, hx.inside, hx.apart, ?_⟩
  have hapart := hx.apart a n hu
  have hload : ByteMem.load (Function.update s.mem y v) x = s.mem.load x := by
    refine load_congr fun z hz hz' => Function.update_of_ne ?_ _ _
    omega
  rw [← hx.clear, blockIsUsed, blockIsUsed, hload]

end

/-! ## Heaps -/

/-- The runs of clients that may ask for more than `MAX_HEAP` bytes, as long as the sizes that
`kmalloc` computes do not wrap around. -/
def LargeRun (L : Layout) : List (MemState × MemOp) → MemState → Prop :=
  Run (MemBoot L) fun st op st' =>
    (op.Allowed st ∨ ∃ size, op = .kmalloc size ∧ size < 2 ^ 32 ∧ Addressable st.k size) ∧
      memStep st op = .ok st'

theorem MemInv.inRegion {L : Layout} {st : MemState} (h : MemInv L st) : st.k.InRegion L := by
  have hbrk := h.brk
  refine ⟨h.base, ?_, ?_⟩
  · rw [maxHeap]
    omega
  · rw [maxHeap]
    omega

/-- **Larger requests do not lead to other heaps**: they end in the panic of `mem_sbrk`. -/
theorem LargeRun.memRun {L : Layout} {tr : List (MemState × MemOp)} {st : MemState}
    (h : LargeRun L tr st) (hroom : Roomy tr) : MemRun L tr st := by
  induction h with
  | init hboot => exact Run.init hboot
  | @step tr st op st' _ hstep ih =>
    have hrun := ih fun e he => hroom e (List.mem_cons_of_mem _ he)
    obtain ⟨hallowed | ⟨size, rfl, hlt, haddr⟩, hs⟩ := hstep
    · exact Run.step hrun ⟨hallowed, hs⟩
    · by_cases hsize : size ≤ maxHeap
      · exact Run.step hrun ⟨hsize, hs⟩
      · -- the call does not return
        have hinv := hrun.inv fun e he => hroom e (List.mem_cons_of_mem _ he)
        obtain ⟨bs, zu, fl, hheap, -⟩ := hinv.heap
        have hlarge := Nat.lt_of_not_le hsize
        have hsafe := (kmallocSafe_iff hheap hinv.inRegion hinv.brk.2.1 (by omega) hlt).2
            (.inl haddr)
        have hpanic := (kmallocSafe_large hinv.inRegion hlarge).1 hsafe
        rw [memStep, hpanic] at hs
        cases hs

/-! ## Sequences of `kfree` calls -/

/-- The allocator during a sequence of `kfree` calls. -/
structure FreeSys where
  /-- The allocator and the live allocations. -/
  st : MemState
  /-- The pointers that have been freed in the sequence. -/
  freed : List Nat

/-- A call of `kfree`, with the null pointer, a live pointer or one that has been freed in the
sequence, or a store of a client. -/
inductive FreeStep : FreeSys → MemOp → FreeSys → Prop
  | kfree {f : FreeSys} {p : Nat} {st : MemState}
      (hp : (MemOp.kfree p).Allowed f.st ∨ p ∈ f.freed) (hs : memStep f.st (.kfree p) = .ok st) :
      FreeStep f (.kfree p) ⟨st, p :: f.freed⟩
  | write {f : FreeSys} {y : Nat} {v : UInt8} {st : MemState}
      (hy : (MemOp.write y v).Allowed f.st) (hs : memStep f.st (.write y v) = .ok st) :
      FreeStep f (.write y v) ⟨st, f.freed⟩

/-- The sequences of `kfree` calls from `st₀` on. -/
def FreeRun (st₀ : MemState) : List (FreeSys × MemOp) → FreeSys → Prop :=
  Run (fun f => f = ⟨st₀, []⟩) FreeStep

/-- What holds between two calls of the sequence: all pointers that have been freed are stale. -/
def FreeInv (f : FreeSys) : Prop :=
  ∃ bs zu fl, KHeap f.st.k bs zu fl ∧ LiveIn bs f.st.live ∧
    ∀ p ∈ f.freed, p = 0 ∨ ∃ x, p = x + 4 ∧ Stale f.st.k bs x

section
variable {f : FreeSys} {st : MemState} {p : Nat}

theorem freeInv_null (h : FreeInv f) (hs : memStep f.st (.kfree 0) = .ok st) :
    FreeInv ⟨st, 0 :: f.freed⟩ := by
  obtain ⟨bs, zu, fl, hheap, hlive, hstale⟩ := h
  obtain ⟨k, hk, hst⟩ := of_bind hs
  cases hst
  obtain rfl : f.st.k = k := by simpa [kfree] using hk
  refine ⟨bs, zu, fl, hheap, ?_, fun q hq => ?_⟩
  · rw [hlive.filter_eq fun a _ _ => Nat.succ_ne_zero (a + 3)]
    exact hlive
  · rcases List.mem_cons.1 hq with rfl | hq
    · exact .inl rfl
    · exact hstale q hq

/-- `kfree` of a live pointer: its header becomes stale, and the others stay so. -/
theorem freeInv_live {n : Nat} (h : FreeInv f) (hn : (p, n) ∈ f.st.live)
    (hs : memStep f.st (.kfree p) = .ok st) : FreeInv ⟨st, p :: f.freed⟩ := by
  obtain ⟨bs, zu, fl, hheap, hlive, hstale⟩ := h
  obtain ⟨k, hk, hst⟩ := of_bind hs
  cases hst
  obtain ⟨a, i, rfl, hu, -⟩ := hlive.block p n hn
  obtain ⟨s', bs', zu', fl', hok, hheap', hf⟩ := kfree_spec hheap hu
  obtain rfl : s' = k := by simpa using hok.symm.trans hk
  refine ⟨bs', zu', fl', hheap', hlive.kfree hf.used, fun q hq => ?_⟩
  rcases List.mem_cons.1 hq with rfl | hq
  · exact .inr ⟨a, rfl, Stale.of_kfree hheap hu hf⟩
  · rcases hstale q hq with rfl | ⟨x, rfl, hx⟩
    · exact .inl rfl
    · exact .inr ⟨x, rfl, hx.kfree hheap hu hf⟩

theorem freeInv_again (h : FreeInv f) (hp : p ∈ f.freed)
    (hs : memStep f.st (.kfree p) = .ok st) : FreeInv ⟨st, p :: f.freed⟩ := by
  obtain ⟨bs, zu, fl, hheap, hlive, hstale⟩ := id h
  rcases hstale p hp with rfl | ⟨x, rfl, hx⟩
  · exact freeInv_null h hs
  obtain ⟨k, hk, hst⟩ := of_bind hs
  cases hst
  obtain rfl : { f.st.k with cpu := f.st.k.cpu.acquired.released } = k := by
    simpa using (hx.kfree_eq hheap).symm.trans hk
  have hdead : ∀ a j, Used bs a j → a + 4 ≠ x + 4 := by
    intro a j hu
    have hapart := hx.apart a j hu
    obtain ⟨b, hb, -, rfl, rfl⟩ := hu
    have := (hheap.heap.mem hb).2.2.1
    omega
  refine ⟨bs, zu, fl, ⟨hheap.heap, hheap.unlocked⟩, ?_, fun q hq => ?_⟩
  · rw [hlive.filter_eq hdead]
    exact hlive
  · have hq : q ∈ f.freed := by
      rcases List.mem_cons.1 hq with rfl | hq
      · exact hp
      · exact hq
    rcases hstale q hq with rfl | ⟨y, rfl, hy⟩
    · exact .inl rfl
    · exact .inr ⟨y, rfl, hy.aligned, hy.start, hy.inside, hy.apart, hy.clear⟩

theorem freeInv_write {y : Nat} {v : UInt8} (h : FreeInv f) (hy : (MemOp.write y v).Allowed f.st)
    (hs : memStep f.st (.write y v) = .ok st) : FreeInv ⟨st, f.freed⟩ := by
  obtain ⟨bs, zu, fl, hheap, hlive, hstale⟩ := h
  cases hs
  obtain ⟨a, n, hu, hay, hya⟩ := hlive.payload hy
  refine ⟨bs, zu, fl, hheap.write hu hay hya v, hlive, fun q hq => ?_⟩
  rcases hstale q hq with rfl | ⟨x, rfl, hx⟩
  · exact .inl rfl
  · exact .inr ⟨x, rfl, hx.write hu hay hya v⟩

/-- **Every step keeps the invariant.** -/
theorem freeInv_step {f' : FreeSys} {op : MemOp} (h : FreeInv f) (hs : FreeStep f op f') :
    FreeInv f' := by
  cases hs with
  | kfree hp hs =>
    rcases hp with (rfl | ⟨n, hn⟩) | hp
    · exact freeInv_null h hs
    · exact freeInv_live h hn hs
    · exact freeInv_again h hp hs
  | write hy hs => exact freeInv_write h hy hs

end

/-- **Freeing again is harmless until the next allocation.**  Whatever the allocator has been used
for before, in a sequence of `kfree` calls a call with a pointer that has been freed in the sequence
returns, and the memory and the break are what they were. -/
theorem freeRun_twice {L : Layout} {tr : List (MemState × MemOp)} {st₀ : MemState}
    (h : LargeRun L tr st₀) (hroom : Roomy tr) {tr' : List (FreeSys × MemOp)} {f : FreeSys}
    (hf : FreeRun st₀ tr' f) {p : Nat} (hp : p ∈ f.freed) :
    ∃ k', kfree f.st.k p = .ok k' ∧ k'.mem = f.st.k.mem ∧ k'.kbrk = f.st.k.kbrk := by
  have hinv : FreeInv f := by
    refine Run.invariant ?_ (fun _ _ _ => freeInv_step) hf
    rintro _ rfl
    obtain ⟨bs, zu, fl, hheap, hlive⟩ := ((h.memRun hroom).inv hroom).heap
    exact ⟨bs, zu, fl, hheap, hlive, by simp⟩
  obtain ⟨bs, zu, fl, hheap, -, hstale⟩ := hinv
  rcases hstale p hp with rfl | ⟨x, rfl, hx⟩
  · exact ⟨f.st.k, rfl, rfl, rfl⟩
  · exact ⟨_, hx.kfree_eq hheap, rfl, rfl⟩

/-- A client that frees its 100 bytes and frees them again. -/
theorem freeRun_twice_sample : ∃ tr st₀ p tr' f, LargeRun sampleLayout tr st₀ ∧
    (p, 100) ∈ st₀.live ∧ FreeRun st₀ tr' f ∧ f.freed = [p] ∧
    ∃ k', kfree f.st.k p = .ok k' ∧ k'.mem = f.st.k.mem ∧ k'.kbrk = f.st.k.kbrk := by
  obtain ⟨tr, st₀, p, hrun, hroom, -, hlive⟩ := exists_kmalloc_run
  have hlarge : LargeRun sampleLayout tr st₀ := hrun.mono fun _ _ _ hs => ⟨.inl hs.1, hs.2⟩
  have hp : (p, 100) ∈ st₀.live := by simp [hlive]
  obtain ⟨bs, zu, fl, hheap, hin⟩ := (hrun.inv hroom).heap
  obtain ⟨a, i, rfl, hu, -⟩ := hin.block p 100 hp
  obtain ⟨k, _, _, _, hok, -⟩ := kfree_spec hheap hu
  have hstep : memStep st₀ (.kfree (a + 4)) =
      .ok ⟨k, st₀.live.filter fun e => e.1 ≠ a + 4, st₀.pages⟩ := by
    rw [memStep, hok, ok_bind]
  have hfree : FreeRun st₀ [(⟨st₀, []⟩, .kfree (a + 4))]
      ⟨⟨k, st₀.live.filter fun e => e.1 ≠ a + 4, st₀.pages⟩, [a + 4]⟩ :=
    Run.step (Run.init rfl) (.kfree (.inl (.inr ⟨100, hp⟩)) hstep)
  exact ⟨tr, st₀, a + 4, _, _, hlarge, hp, hfree, rfl,
    freeRun_twice hlarge hroom hfree (by simp)⟩

end JinxOS
