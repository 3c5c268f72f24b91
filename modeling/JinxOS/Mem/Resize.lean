import JinxOS.Mem.Krealloc

/-!
# Which branch `krealloc` takes

Which branch `krealloc` takes depends on the free space around the block, and the three possible
outcomes of its critical section are stated in those terms:

* if the block can have its new size between the used blocks on either side of it (`FitsAround`), it
  is resized there (`kreallocBlock_fits`);
* if it is the last used block and its new size reaches beyond the end of the heap (`ReachesEnd`),
  the break is moved (`kreallocBlock_grows`);
* otherwise the block has to move, and `kmalloc` is called (`kreallocBlock_moves`).

`mem_sbrk` moves the break by whole pages, but the branches that call it give the block exactly the
bytes that it needs and put the epilogue into the last word of the heap.  Nothing is written between
the two.  So the heap is well formed afterwards if and only if the bytes there happen to read as
used blocks (`ReadsUsed`), and in particular if there are none.
-/

namespace JinxOS

/-! ## The outcomes -/

/-- The heap lies in the region that `init_mem` sets up.  `kbrk_max` starts at its end, and
`kpalloc` lowers it. -/
structure KMem.InRegion (s : KMem) (L : Layout) : Prop where
  /-- The heap starts behind the kernel image. -/
  base : s.kbrkMin = L.base
  /-- The break is in the region. -/
  brk : s.kbrk ≤ L.base + maxHeap
  /-- `kbrk_max` is in the region. -/
  top : s.kbrkMax ≤ L.base + maxHeap

/-- The block at `a` is the last used block. -/
def LastUsed (bs : List Blk) (a : Nat) : Prop := ∀ c ∈ bs, c.used = true → c.addr ≤ a

/-- A block of `k` bytes fits around `a` without touching another used block. -/
def FitsAround (s : KMem) (bs : List Blk) (a k : Nat) : Prop :=
  ∃ x, s.kbrkMin + 4 ≤ x ∧ x ≤ a ∧ a < x + k ∧ x + k ≤ s.kbrk - 4 ∧
    ∀ c ∈ bs, c.used = true → c.addr ≠ a → c.stop ≤ x ∨ x + k ≤ c.addr

/-- The block at `a` is the last used one, and with `k` bytes it reaches beyond the end of the heap.
-/
def ReachesEnd (s : KMem) (bs : List Blk) (a k : Nat) : Prop := LastUsed bs a ∧ s.kbrk - 4 < a + k

/-- The break after `mem_sbrk` has been asked for the bytes that the block at `a` lacks. -/
def grownBrk (s : KMem) (a k : Nat) : Nat := s.kbrk + roundUp (a + k - (s.kbrk - 4)) pgSize

/-- The memory between `a` and `z` reads as used blocks. -/
def ReadsUsed (m : ByteMem) (a z : Nat) : Prop :=
  ∃ gs, Tiles a true gs z true ∧ ∀ g ∈ gs, g.used = true ∧ m.load g.addr = g.tag

/-! ## Moving the break -/

theorem memSbrk_round {s : KMem} {n : Nat} (hfit : s.kbrk + n + 4096 < 2 ^ 32) :
    memSbrk s n = (if s.kbrkMax < s.kbrk + roundUp n pgSize then .error sbrkPanic
      else .ok (s.kbrk, { s with kbrk := s.kbrk + roundUp n pgSize })) ∧
    n ≤ roundUp n pgSize ∧ roundUp n pgSize < n + 4096 ∧ roundUp n pgSize % 4096 = 0 := by
  have hround : roundUp n pgSize = n + 4096 - 1 - (n + 4096 - 1) % 4096 :=
    roundUp_eq (by rw [pgSize]; omega)
  have hbounds : n ≤ roundUp n pgSize ∧ roundUp n pgSize < n + 4096 ∧
      roundUp n pgSize % 4096 = 0 := by omega
  refine ⟨?_, hbounds⟩
  rw [memSbrk, Word.add_eq]

theorem grownBrk_bounds {s : KMem} {a k : Nat} (hbrk : 4 ≤ s.kbrk) (hend : s.kbrk ≤ a + k)
    (hfit : s.kbrk + (a + k - (s.kbrk - 4)) + 2 * 4096 < 2 ^ 32) :
    a + k + 4 ≤ grownBrk s a k ∧ s.kbrk + 4 ≤ grownBrk s a k ∧ grownBrk s a k < 2 ^ 32 := by
  obtain ⟨-, hge, hlt, -⟩ := memSbrk_round (s := s) (n := a + k - (s.kbrk - 4)) (by omega)
  rw [grownBrk]
  omega

/-- What the branches at the end of the heap write. -/
def grownMem (m : ByteMem) (b : Blk) (k hi : Nat) : ByteMem :=
  (m.store b.addr (⟨b.addr, k, true, b.prevUsed⟩ : Blk).tag).store (hi - 4) 3

theorem kreallocGrow_eq {s : KMem} {bs : List Blk} {b : Blk} {zu : Bool} {fl : List Nat}
    {k incr : Nat} (h : HeapRep s.mem s.kbrkMin s.kbrk bs zu fl) (hb : b ∈ bs) (hkmod : k % 4 = 0)
    (hfit : s.kbrk + incr + 4096 < 2 ^ 32) : kreallocGrow s b.addr k incr =
      if s.kbrkMax < s.kbrk + roundUp incr pgSize then .error sbrkPanic
      else .ok { s with
        kbrk := s.kbrk + roundUp incr pgSize
        mem := grownMem s.mem b k (s.kbrk + roundUp incr pgSize) } := by
  obtain ⟨hrun, -, hlt, -⟩ := memSbrk_round hfit
  obtain ⟨hba, hbhi, -⟩ := h.mem hb
  have hend : ∀ n, 8 ≤ n → n < 2 ^ 32 → Word.sub (Word.sub n 1) 3 = n - 4 := by
    intro n hn hn'
    rw [Word.sub_eq (by omega) hn', Word.sub_eq]
    omega
  have htag : k ||| 1 ||| prevBlockIsUsed s.mem b.addr =
      (⟨b.addr, k, true, b.prevUsed⟩ : Blk).tag := by
    rw [(h.read hb).2.2]
    exact Blk.tag_of_flags hkmod _ _
  rw [kreallocGrow, hrun]
  split
  · exact error_bind _ _
  · rw [ok_bind]
    dsimp only [memHeapHi]
    rw [htag, hend _ (by omega) (by omega), grownMem]

theorem Tiles.prefix_of_headers {m : ByteMem} {l bs : List Blk} {z : Nat} {zu : Bool} :
    ∀ {a c : Nat} {pu cu : Bool}, Tiles a pu l c cu → Tiles a pu bs z zu →
      (∀ b ∈ l, m.load b.addr = b.tag) → (∀ b ∈ bs, m.load b.addr = b.tag) → c ≤ z →
      ∃ gs, bs = l ++ gs ∧ Tiles c cu gs z zu := by
  induction l generalizing bs with
  | nil =>
    rintro a c pu cu ⟨rfl, rfl⟩ hbs - - -
    exact ⟨bs, rfl, hbs⟩
  | cons b l ih =>
    rintro a c pu cu ⟨⟨hba, hbp, hb16, hbmod⟩, hrest⟩ hbs hl hm hcz
    have hle := hrest.le
    rw [Blk.stop] at hle
    cases bs with
    | nil =>
      have := hbs.1
      omega
    | cons b' bs =>
      obtain ⟨⟨hba', hbp', -, hbmod'⟩, hrest'⟩ := hbs
      -- the same word is the header of both
      have htag : b'.tag = b.tag := by
        rw [← hm b' List.mem_cons_self, ← hl b List.mem_cons_self, hba, hba']
      have hflags := b.flags_lt
      have hflags' := b'.flags_lt
      rw [Blk.tag, Blk.tag] at htag
      have hsize : b'.size = b.size := by omega
      have hused : b'.used = b.used := by
        have hbit : b'.used.toNat = b.used.toNat := by
          rw [hbp, hbp'] at htag
          omega
        have hinj : ∀ x y : Bool, x.toNat = y.toNat → x = y := by decide
        exact hinj _ _ hbit
      obtain rfl : b = b' := by
        rw [Blk.mk.injEq]
        exact ⟨hba.trans hba'.symm, hsize.symm, hused.symm, hbp.trans hbp'.symm⟩
      obtain ⟨gs, rfl, hgs⟩ := ih hrest hrest' (fun c hc => hl c (List.mem_cons_of_mem _ hc))
        (fun c hc => hm c (List.mem_cons_of_mem _ hc)) hcz
      exact ⟨gs, rfl, hgs⟩

section
variable {m m₁ : ByteMem} {lo hi hi' k : Nat} {L N X : List Blk} {b : Blk} {zu : Bool}
  {fl fl₁ : List Nat}

theorem grownMem_apply {y : Nat} (hy : y < b.addr ∨ b.addr + 4 ≤ y) (hy' : y + 4 < hi') :
    grownMem m₁ b k hi' y = m₁ y := by
  rw [grownMem, store_apply, store_apply hy]

/-- **The heap after the break has been moved** is well formed if and only if the memory behind the
block reads as used blocks. -/
theorem Cut.grow {eu : Bool} {e : Nat} {seg : List Blk}
    (h : Cut m₁ lo hi L seg [] zu fl₁ b.addr e b.prevUsed eu) (hk : 16 ≤ k) (hkmod : k % 4 = 0)
    (hfit : b.addr + k + 4 ≤ hi') (hge : hi + 4 ≤ hi') (hlt : hi' < 2 ^ 32) :
    (∀ bs' zu' fl', Heap (grownMem m₁ b k hi') lo hi' bs' zu' fl' →
        ReadsUsed m₁ (b.addr + k) (hi' - 4)) ∧
      (ReadsUsed m₁ (b.addr + k) (hi' - 4) →
        ∃ bs' zu' fl', Heap (grownMem m₁ b k hi') lo hi' bs' zu' fl' ∧ Used bs' b.addr k) := by
  let u : Blk := ⟨b.addr, k, true, b.prevUsed⟩
  have hle := h.left.le
  have hLtiles : Tiles (lo + 4) true (L ++ [u]) (b.addr + k) true :=
    tiles_append.2 ⟨_, _, h.left, ⟨⟨rfl, rfl, hk, hkmod⟩, rfl, rfl⟩⟩
  -- the words below the block, and behind it up to the epilogue, are kept
  have hbelow : ∀ a, a + 4 ≤ b.addr → (grownMem m₁ b k hi').load a = m₁.load a := fun a ha =>
    load_congr fun y _ hy => grownMem_apply (by omega) (by omega)
  have hbehind : ∀ a, b.addr + k ≤ a → a + 4 ≤ hi' - 4 →
      (grownMem m₁ b k hi').load a = m₁.load a := fun a ha ha' =>
    load_congr fun y hy hy' => grownMem_apply (by omega) (by omega)
  have hheader : ∀ c ∈ L ++ [u], (grownMem m₁ b k hi').load c.addr = c.tag := by
    intro c hc
    rcases List.mem_append.1 hc with hc | hc
    · obtain ⟨-, hcs, hc16⟩ := h.left.bounds hc
      rw [hbelow _ (by omega), h.rep.header c (by simp [hc])]
    · rw [List.mem_singleton.1 hc, grownMem]
      show ByteMem.load _ b.addr = u.tag
      rw [load_store_of_disjoint,
        load_store_same (Blk.tag_lt (show k + 4 ≤ 2 ^ 32 by omega))]
  have hepilogue : (grownMem m₁ b k hi').load (hi' - 4) = epilogue true :=
    load_store_same (by omega)
  have hlistL : ∀ x ∈ fl₁, ∃ c ∈ L, c.used = false ∧ c.addr = x := by simpa using h.free
  have hlist : FreeList (grownMem m₁ b k hi') lo fl₁ := by
    refine h.rep.list.congr (hbelow lo hle) ?_
    intro x hx
    obtain ⟨c, hc, -, rfl⟩ := hlistL x hx
    obtain ⟨-, hcs, hc16⟩ := h.left.bounds hc
    exact ⟨hbelow _ (by omega), hbelow _ (by omega)⟩
  constructor
  · intro bs' zu' fl' hheap
    obtain ⟨gs, rfl, hgs⟩ := hLtiles.prefix_of_headers hheap.tiles hheader hheap.header (by omega)
    obtain rfl : fl₁ = fl' := NullList.unique hlist hheap.list
    obtain rfl : zu' = true := by
      have := hheap.epilogue.symm.trans hepilogue
      cases zu'
      · exact absurd this (by decide)
      · rfl
    refine ⟨gs, hgs, fun g hg => ⟨?_, ?_⟩⟩
    · cases hused : g.used with
      | true => rfl
      | false =>
        -- a free block behind the break is not on the list
        obtain ⟨c, hc, -, he⟩ := hlistL _ (hheap.listed g (by simp [hg]) hused)
        have hga := (hgs.mem hg).1
        obtain ⟨-, hcs, hc16⟩ := h.left.bounds hc
        omega
    · obtain ⟨hga, hgz, hg16⟩ := hgs.bounds hg
      rw [← hbehind _ hga (by omega)]
      exact hheap.header g (by simp [hg])
  · rintro ⟨gs, hgs, hread⟩
    refine ⟨L ++ [u] ++ gs, true, fl₁, ⟨⟨h.rep.pos, h.rep.lo_mod, hlt, ?_, ?_, ?_, hepilogue, hlist,
      h.rep.nodup, ?_⟩, ?_, ?_⟩, u, by simp, rfl, rfl, rfl⟩
    · exact tiles_append.2 ⟨_, _, hLtiles, hgs⟩
    · intro c hc
      rcases List.mem_append.1 hc with hc | hc
      · exact hheader c hc
      · obtain ⟨hga, hgz, hg16⟩ := hgs.bounds hc
        rw [hbehind _ hga (by omega), (hread c hc).2]
    · intro c hc hfree
      simp only [List.mem_append, List.mem_singleton] at hc
      rcases hc with (hc | rfl) | hc
      · obtain ⟨-, hcs, hc16⟩ := h.left.bounds hc
        rw [hbelow _ (by rw [Blk.stop]; omega)]
        exact h.rep.footer c (by simp [hc]) hfree
      · cases hfree
      · rw [(hread c hc).1] at hfree
        cases hfree
    · intro x hx
      obtain ⟨c, hc, hfree, he⟩ := hlistL x hx
      exact ⟨c, by simp [hc], hfree, he⟩
    · intro c hc hfree
      simp only [List.mem_append, List.mem_singleton] at hc
      rcases hc with (hc | rfl) | hc
      · exact h.listed c (by simp [hc]) hfree
      · cases hfree
      · rw [(hread c hc).1] at hfree
        cases hfree
    · have hpairs : NoFreePair gs := by
        refine List.isChain_iff_getElem.2 fun i hi => .inl ?_
        exact (hread _ (List.getElem_mem _)).1
      have hall := h.noFreePair (u := u) (b := true) rfl
      refine noFreePair_append.2 ⟨hall, hpairs, ?_⟩
      intro c hc d hd
      exact .inr (hread d (List.mem_of_mem_head? hd)).1

theorem HeapRep.remove_above {bs : List Blk} {x y : Nat} (h : HeapRep m lo hi bs zu fl)
    (hx : x ∈ fl) (hy : hi ≤ y) : removeFreeBlock lo m x y = m y := by
  have hle := h.tiles.le
  refine removeFreeBlock_linksOnly h.list (h.spaced h.free) hx y (.inr (by omega)) ?_
  intro z hz
  obtain ⟨c, hc, -, rfl⟩ := h.free z hz
  obtain ⟨-, hchi, hc16, -⟩ := h.mem hc
  omega

/-- The used block `b` at the end of the heap, with free blocks `N` behind it that have been taken
off the list: what moving the break does to the heap and to the clients' bytes. -/
theorem Heap.grow (h : Heap m lo hi (L ++ b :: N) zu fl) (hused : b.used = true)
    (hN : ∀ c ∈ N, c.used = false) (hun : Unlisted m m₁ lo hi (L ++ b :: N) zu fl fl₁ N)
    (habove : ∀ y, hi ≤ y → m₁ y = m y) (hk : 16 ≤ k) (hkmod : k % 4 = 0) (hlow : hi ≤ b.addr + k)
    (hfit : b.addr + k + 4 ≤ hi') (hge : hi + 4 ≤ hi') (hlt : hi' < 2 ^ 32) :
    (∀ bs' zu' fl', Heap (grownMem m₁ b k hi') lo hi' bs' zu' fl' →
        ReadsUsed m (b.addr + k) (hi' - 4)) ∧
      (ReadsUsed m (b.addr + k) (hi' - 4) →
        ∃ bs' zu' fl', Heap (grownMem m₁ b k hi') lo hi' bs' zu' fl' ∧ Used bs' b.addr k) ∧
      ∀ y, Payload (L ++ b :: N) y → grownMem m₁ b k hi' y = m y := by
  have hbmem : b ∈ L ++ b :: N := by simp
  obtain ⟨a, pu, hL, hrest⟩ := tiles_append.1 h.tiles
  obtain ⟨⟨rfl, rfl, h16, hmod⟩, hNtiles⟩ := hrest
  have hcut : Cut m₁ lo hi L (b :: N) [] zu fl₁ b.addr (hi - 4) b.prevUsed zu := by
    refine Unlisted.cut (by simpa using h) (by simpa using hun) ?_ hL
      ⟨⟨rfl, rfl, h16, hmod⟩, hNtiles⟩
    intro c
    rw [List.mem_cons]
    constructor
    · intro hc
      exact ⟨.inr hc, hN c hc⟩
    · rintro ⟨rfl | hc, hfree⟩
      · rw [hused] at hfree
        cases hfree
      · exact hc
  -- above the old heap the memory has not changed
  have hsame : ReadsUsed m₁ (b.addr + k) (hi' - 4) ↔ ReadsUsed m (b.addr + k) (hi' - 4) := by
    refine exists_congr fun gs => and_congr_right fun hgs => forall₂_congr fun g hg => ?_
    have hga := (hgs.mem hg).1
    have hload : m₁.load g.addr = m.load g.addr :=
      load_congr fun y hy _ => habove y (by omega)
    rw [hload]
  have hgrow := hcut.grow hk hkmod hfit hge hlt
  rw [hsame] at hgrow
  refine ⟨hgrow.1, hgrow.2, ?_⟩
  · intro y hy
    obtain ⟨c, hc, hcused, hcy, hyc⟩ := hy
    have hch := (h.mem hc).2.1
    rw [Blk.stop] at hyc
    rw [grownMem_apply ?_ (by omega), hun.payload y ⟨c, hc, hcused, hcy, by rw [Blk.stop]; omega⟩]
    rcases h.tiles.apart hbmem hc with rfl | hap | hap
    · exact .inr hcy
    · rw [Blk.stop] at hap
      omega
    · rw [Blk.stop] at hap
      omega

end

/-! ## The free space around a block -/

/-- A used block of the heap, the free blocks `P` and `N` next to it, and the rest. -/
structure Around (bs : List Blk) (a n : Nat) (L P : List Blk) (b : Blk) (N R : List Blk) :
    Prop where
  blocks : bs = L ++ (P ++ b :: N ++ R)
  used : b.used = true
  addr : b.addr = a
  size : b.size = n
  before : P = [] ∨ ∃ p, P = [p] ∧ p.used = false
  behind : N = [] ∨ ∃ x, N = [x] ∧ x.used = false
  last : ∀ c ∈ L.getLast?, c.used = true
  head : ∀ c ∈ R.head?, c.used = true

theorem NoFreePair.of_free {l : List Blk} (h : NoFreePair l) (hfree : ∀ c ∈ l, c.used = false) :
    l = [] ∨ ∃ x, l = [x] ∧ x.used = false := by
  match l with
  | [] => exact .inl rfl
  | [x] => exact .inr ⟨x, rfl, hfree x (by simp)⟩
  | x :: y :: l =>
    have hpair := (noFreePair_cons.1 h).1 y rfl
    rw [hfree x (by simp), hfree y (by simp)] at hpair
    simp at hpair

theorem Heap.around {m : ByteMem} {lo hi : Nat} {bs : List Blk} {zu : Bool} {fl : List Nat}
    (h : Heap m lo hi bs zu fl) {a n : Nat} (hu : Used bs a n) :
    ∃ L P b N R, Around bs a n L P b N R := by
  obtain ⟨b, hb, hused, rfl, rfl⟩ := hu
  obtain ⟨L, R, rfl⟩ := List.append_of_mem hb
  obtain ⟨L, P, rfl, hP, hlast⟩ := exists_free_suffix L
  obtain ⟨N, R, rfl, hN, hhead⟩ := exists_free_prefix R
  obtain ⟨hLP, hbNR, -⟩ := noFreePair_append.1 h.coalesced
  have hNR := (noFreePair_cons.1 hbNR).2
  exact ⟨L, P, b, N, R, by simp, hused, rfl, rfl, (noFreePair_append.1 hLP).2.1.of_free hP,
    (noFreePair_append.1 hNR).1.of_free hN, hlast, hhead⟩

section
variable {m : ByteMem} {lo hi a n : Nat} {bs L P N R : List Blk} {b : Blk} {zu : Bool}
    {fl : List Nat}

section
variable (h : Around bs a n L P b N R)
include h

/-- The run of free blocks around the block starts behind a used block, and what stands behind it is
used. -/
theorem Around.tiles (ht : Tiles (lo + 4) true bs (hi - 4) zu) :
    ∃ s e eu, Tiles (lo + 4) true L s true ∧ Tiles s true (P ++ b :: N) e eu ∧
      Tiles e eu R (hi - 4) zu := by
  rw [h.blocks] at ht
  obtain ⟨s, su, hL, hrest⟩ := tiles_append.1 ht
  obtain ⟨e, eu, hseg, hR⟩ := tiles_append.1 hrest
  obtain rfl : su = true := by
    cases hlast : L.getLast? with
    | none =>
      obtain rfl := List.getLast?_eq_none_iff.1 hlast
      exact hL.2.symm
    | some c => exact (hL.flag hlast).trans (h.last c hlast)
  exact ⟨s, e, eu, hL, hseg, hR⟩

theorem Around.free_before : ∀ c ∈ P, c.used = false := by
  rcases h.before with rfl | ⟨p, rfl, hp⟩
  · simp
  · simpa using hp

theorem Around.free_behind : ∀ c ∈ N, c.used = false := by
  rcases h.behind with rfl | ⟨x, rfl, hx⟩
  · simp
  · simpa using hx

theorem Around.lastUsed_iff (ht : Tiles (lo + 4) true bs (hi - 4) zu) : LastUsed bs a ↔ R = [] := by
  obtain ⟨s, e, eu, hL, hseg, hR⟩ := h.tiles ht
  have hb := hseg.mem (b := b) (by simp)
  rw [Blk.stop, h.addr] at hb
  constructor
  · intro hlast
    cases R with
    | nil => rfl
    | cons r R =>
      have hr := hlast r (by rw [h.blocks]; simp) (h.head r rfl)
      have := hR.1.1
      omega
  · rintro rfl c hc hused
    rw [h.blocks] at hc
    simp only [List.mem_append, List.mem_cons, List.append_nil] at hc
    rcases hc with hc | hc | rfl | hc
    · have := hL.bounds hc
      omega
    · rw [h.free_before c hc] at hused
      cases hused
    · exact Nat.le_of_eq h.addr
    · rw [h.free_behind c hc] at hused
      cases hused

/-- A block fits around `a` if it fits between the used blocks on either side. -/
theorem Around.fitsAround_iff {s : KMem} {p e k : Nat} {eu : Bool}
    (hL : Tiles (s.kbrkMin + 4) true L p true) (hseg : Tiles p true (P ++ b :: N) e eu)
    (hR : Tiles e eu R (s.kbrk - 4) zu) (hk : 0 < k) : FitsAround s bs a k ↔ p + k ≤ e := by
  have hb := hseg.mem (b := b) (by simp)
  rw [Blk.stop, h.addr] at hb
  have hLle := hL.le
  have hRle := hR.le
  constructor
  · rintro ⟨x, hlo, hxa, hax, hhi, hx⟩
    have hpx : p ≤ x := by
      cases hlast : L.getLast? with
      | none =>
        obtain rfl := List.getLast?_eq_none_iff.1 hlast
        have := hL.1
        omega
      | some c =>
        obtain ⟨l, rfl⟩ := List.getLast?_eq_some_iff.1 hlast
        obtain ⟨_, _, -, -, hstop, -⟩ := tiles_append.1 hL
        have hca := (hL.mem (b := c) (by simp)).2.2.1
        rw [Blk.stop] at hstop
        have := hx c (by rw [h.blocks]; simp) (h.last c hlast) (by omega)
        rw [Blk.stop] at this
        omega
    have hxe : x + k ≤ e := by
      cases R with
      | nil =>
        have := hR.1
        omega
      | cons r R =>
        have hra := hR.1.1
        have := hx r (by rw [h.blocks]; simp) (h.head r rfl) (by omega)
        rw [Blk.stop] at this
        omega
    omega
  · intro hle
    have hothers : ∀ x, p ≤ x → x + k ≤ e → ∀ c ∈ bs, c.used = true → c.addr ≠ a →
        c.stop ≤ x ∨ x + k ≤ c.addr := by
      intro x hpx hxe c hc hused hne
      rw [h.blocks] at hc
      simp only [List.mem_append, List.mem_cons] at hc
      rcases hc with hc | (hc | rfl | hc) | hc
      · have := (hL.mem hc).2.1
        exact .inl (by omega)
      · rw [h.free_before c hc] at hused
        cases hused
      · exact absurd h.addr hne
      · rw [h.free_behind c hc] at hused
        cases hused
      · have := (hR.mem hc).1
        exact .inr (by omega)
    by_cases hae : a + k ≤ e
    · exact ⟨a, by omega, Nat.le_refl a, by omega, by omega, hothers a (by omega) hae⟩
    · exact ⟨e - k, by omega, by omega, by omega, by omega, hothers _ (by omega) (by omega)⟩

end

end

/-! ## The three outcomes of the critical section -/

section
variable {s : KMem} {bs : List Blk} {zu : Bool} {fl : List Nat} {a n size : Nat}
  (h : Heap s.mem s.kbrkMin s.kbrk bs zu fl) (hu : Used bs a n) (hk : 16 ≤ validSize size)
include h hu hk

/-- **The block is resized** between the used blocks on either side. -/
theorem kreallocBlock_fits (hkmod : validSize size % 4 = 0)
    (hfits : FitsAround s bs a (validSize size)) (hend : ¬ ReachesEnd s bs a (validSize size)) :
    ∃ r m' b bs' zu' fl', kreallocBlock s a size = .ok (r, { s with mem := m' }) ∧ b.addr = a ∧
      b.size = n ∧ Resized s.mem m' s.kbrkMin s.kbrk bs b (validSize size) r bs' zu' fl' := by
  obtain ⟨L, P, b, N, R, har⟩ := h.around hu
  obtain ⟨p, e, eu, hL, hseg, hR⟩ := har.tiles h.tiles
  have hle := (har.fitsAround_iff hL hseg hR (by omega)).1 hfits
  rw [ReachesEnd, har.lastUsed_iff h.tiles] at hend
  obtain ⟨rfl, hused, rfl, rfl, hP, hN, -, hhead⟩ := har
  rw [kreallocBlock_eq h.toHeapRep (by simp) hused]
  generalize validSize size = k at *
  suffices hres : ∃ r m' bs' zu' fl', kreallocChoose s b.addr b.size (Word.add b.addr b.size) _ k =
      .ok (r, { s with mem := m' }) ∧ Resized s.mem m' s.kbrkMin s.kbrk _ b k r bs' zu' fl' by
    obtain ⟨r, m', bs', zu', fl', hrun, hres⟩ := hres
    exact ⟨r, m', b, bs', zu', fl', hrun, rfl, rfl, hres⟩
  by_cases hshrink : k ≤ b.size
  · have happ : L ++ (P ++ b :: N ++ R) = (L ++ P) ++ b :: (N ++ R) := by simp
    rw [happ] at h ⊢
    exact ⟨_, kreallocChoose_shrink hused hk hkmod h hshrink⟩
  rcases hN with rfl | ⟨x, rfl, hx⟩
  · -- nothing free behind the block, so the space is before it
    obtain ⟨r, R, rfl⟩ := List.exists_cons_of_ne_nil fun hnil : R = [] => hend ⟨hnil, by
      subst hnil
      obtain ⟨_, _, -, -, rfl, -⟩ := tiles_append.1 hseg
      have := hR.1
      rw [Blk.stop] at this
      omega⟩
    rcases hP with rfl | ⟨q, rfl, hq⟩
    · obtain ⟨⟨rfl, -⟩, rfl, -⟩ := hseg
      rw [Blk.stop] at hle
      omega
    · have happ : L ++ ([q] ++ [b] ++ r :: R) = L ++ q :: b :: r :: R := by simp
      rw [happ] at h ⊢
      obtain ⟨⟨rfl, -⟩, ⟨hba, -⟩, rfl, -⟩ := hseg
      rw [if_pos (h.prev_free hq), h.addr_prev hq]
      rw [Blk.stop] at hle hba
      exact ⟨_, kreallocChoose_prev hused hk hkmod h hq
        (hhead r rfl) (by omega) (by omega)⟩
  by_cases hnext : k ≤ b.size + x.size
  · have happ : L ++ (P ++ b :: [x] ++ R) = (L ++ P) ++ b :: x :: R := by simp
    rw [happ] at h ⊢
    exact ⟨_, kreallocChoose_next hused hk hkmod h hx (by omega) hnext⟩
  · obtain ⟨r, R, rfl⟩ := List.exists_cons_of_ne_nil fun hnil : R = [] => hend ⟨hnil, by
      subst hnil
      obtain ⟨_, _, -, -, ⟨hxa, -⟩, rfl, -⟩ := tiles_append.1 hseg
      have := hR.1
      rw [Blk.stop] at this hxa
      omega⟩
    rcases hP with rfl | ⟨q, rfl, hq⟩
    · obtain ⟨⟨rfl, -⟩, ⟨hxa, -⟩, rfl, -⟩ := hseg
      rw [Blk.stop] at hle hxa
      omega
    · have happ : L ++ ([q] ++ b :: [x] ++ r :: R) = L ++ q :: b :: x :: r :: R := by simp
      rw [happ] at h ⊢
      obtain ⟨⟨rfl, -⟩, ⟨hba, -⟩, ⟨hxa, -⟩, rfl, -⟩ := hseg
      rw [if_pos (h.prev_free hq), h.addr_prev hq]
      rw [Blk.stop] at hle hba hxa
      exact ⟨_, kreallocChoose_both hused hk hkmod h hq
        hx (by omega) (by omega)⟩

/-- **The block has to move**: the section calls `kmalloc`. -/
theorem kreallocBlock_moves (hfits : ¬ FitsAround s bs a (validSize size))
    (hend : ¬ ReachesEnd s bs a (validSize size)) :
    kreallocBlock s a size = kreallocMove s a (validSize size) := by
  obtain ⟨L, P, b, N, R, har⟩ := h.around hu
  obtain ⟨p, e, eu, hL, hseg, hR⟩ := har.tiles h.tiles
  rw [har.fitsAround_iff hL hseg hR (by omega)] at hfits
  rw [ReachesEnd, har.lastUsed_iff h.tiles] at hend
  obtain ⟨rfl, hused, rfl, rfl, hP, hN, -, hhead⟩ := har
  obtain ⟨hpb, hbe, -⟩ := hseg.bounds (b := b) (by simp)
  have hRle := hR.le
  have hhi := h.hi_lt
  obtain ⟨r, R, rfl⟩ := List.exists_cons_of_ne_nil fun hnil : R = [] => hend ⟨hnil, by
    subst hnil
    have := hR.1
    omega⟩
  rw [kreallocBlock_eq h.toHeapRep (by simp) hused]
  generalize validSize size = k at *
  -- the block before is used, or too small even with the block behind
  have hprev : ∀ q t, prevBlockIsUsed s.mem b.addr = 0 → b.addr + t ≤ e →
      q = (if prevBlockIsUsed s.mem b.addr = 0 then
        Word.sub b.addr (SIZE (s.mem.load (Word.sub b.addr 4))) else 0) →
      Word.add t (SIZE (s.mem.load q)) < k := by
    rintro _ t hflag ht rfl
    rcases hP with rfl | ⟨q, rfl, hq⟩
    · obtain ⟨⟨-, hbp, -⟩, -⟩ := hseg
      rw [(h.read (by simp)).2.2, hbp] at hflag
      cases hflag
    · have h' : Heap s.mem s.kbrkMin s.kbrk (L ++ q :: b :: (N ++ r :: R)) zu fl := by simpa using h
      obtain ⟨⟨rfl, -⟩, ⟨hba, -⟩, -⟩ := hseg
      rw [Blk.stop] at hba
      rw [if_pos hflag, h'.addr_prev hq, (h'.read (by simp)).1, Word.add_eq]
      omega
  have hrs := (h.mem (b := r) (by simp)).2.2.1
  rw [kreallocChoose]
  rw [if_neg (by omega)]
  rcases hN with rfl | ⟨x, rfl, hx⟩
  · have h' : HeapRep s.mem s.kbrkMin s.kbrk ((L ++ P) ++ b :: r :: R) zu fl := by
      simpa using h.toHeapRep
    have hru : blockIsUsed s.mem r.addr = 1 := by
      rw [(h.read (by simp)).2.1, hhead r rfl, Bool.toNat_true]
    rw [h'.nextBlockSize_next, if_neg (by omega), h'.addr_next, hru, if_neg (by omega),
      if_neg (by omega), if_neg (by omega), if_neg fun hc => ?_]
    exact absurd (hprev _ _ hc.1 hbe rfl) (Nat.not_lt.2 hc.2)
  · have h' : HeapRep s.mem s.kbrkMin s.kbrk ((L ++ P) ++ b :: x :: r :: R) zu fl := by
      simpa using h.toHeapRep
    have h'' : HeapRep s.mem s.kbrkMin s.kbrk ((L ++ P ++ [b]) ++ x :: r :: R) zu fl := by
      simpa using h.toHeapRep
    obtain ⟨-, hxhi, hx16, -⟩ := h.mem (b := x) (by simp)
    have hxaddr : x.addr = b.addr + b.size := h'.tiles.next.1
    have hxe : b.addr + (b.size + x.size) ≤ e := by
      have := hseg.bounds (b := x) (by simp)
      omega
    have hsum : Word.add b.size x.size = b.size + x.size := Word.add_eq
    rw [h'.nextBlockSize_next, if_neg (by omega), h'.addr_next, (h.read (by simp)).1, hsum,
      if_neg (by omega), h''.nextBlockSize_next, if_neg (by omega), if_neg fun hc => ?_,
      if_neg fun hc => ?_]
    · exact absurd (hprev _ _ hc.1 hbe rfl) (Nat.not_lt.2 hc.2)
    · exact absurd (hprev _ _ hc.1 hxe rfl) (Nat.not_lt.2 hc.2.2)

/-- **The break is moved**, unless `mem_sbrk` panics. -/
theorem kreallocBlock_grows (hkmod : validSize size % 4 = 0)
    (hend : ReachesEnd s bs a (validSize size))
    (hfit : s.kbrk + validSize size + 2 * 4096 < 2 ^ 32) : ∃ m', kreallocBlock s a size =
        (if s.kbrkMax < grownBrk s a (validSize size) then .error sbrkPanic
        else .ok (a, { s with kbrk := grownBrk s a (validSize size), mem := m' })) ∧
      (∀ bs' zu' fl', Heap m' s.kbrkMin (grownBrk s a (validSize size)) bs' zu' fl' →
        ReadsUsed s.mem (a + validSize size) (grownBrk s a (validSize size) - 4)) ∧
      (ReadsUsed s.mem (a + validSize size) (grownBrk s a (validSize size) - 4) →
        ∃ bs' zu' fl', Heap m' s.kbrkMin (grownBrk s a (validSize size)) bs' zu' fl' ∧
          Used bs' a (validSize size)) ∧
      ∀ y, Payload bs y → m' y = s.mem y := by
  obtain ⟨L, P, b, N, R, har⟩ := h.around hu
  obtain ⟨hlast, hreach⟩ := hend
  obtain rfl := (har.lastUsed_iff h.tiles).1 hlast
  obtain ⟨rfl, hused, rfl, rfl, hP, hN, -, -⟩ := har
  have hblocks : L ++ (P ++ b :: N ++ []) = (L ++ P) ++ b :: N := by simp
  rw [hblocks] at h hu hlast ⊢
  rw [kreallocBlock_eq h.toHeapRep (by simp) hused]
  generalize validSize size = k at *
  obtain ⟨-, hbh, hb16, hbmod, hb4⟩ := h.mem (b := b) (by simp)
  -- the break is a multiple of 4, as the end of the block is
  have hlow : s.kbrk ≤ b.addr + k := by
    have hend4 := h.tiles.size_mod
    have hlo := h.lo_mod
    have hle := h.tiles.le
    omega
  obtain ⟨hroom, hge, hlt⟩ := grownBrk_bounds (by omega) hlow (by omega)
  rw [kreallocChoose]
  rcases hN with rfl | ⟨x, rfl, hx⟩
  · have hstop : b.addr + b.size = s.kbrk - 4 := by
      obtain ⟨_, _, -, -, hstop, -⟩ := tiles_append.1 h.tiles
      exact hstop
    have hincr : Word.sub k b.size = b.addr + k - (s.kbrk - 4) := by
      rw [Word.sub_eq]
      omega
    have hgrown := h.grow hused (by simp) h.unlisted_nil (fun _ _ => rfl) hk
      hkmod hlow hroom hge hlt
    refine ⟨grownMem s.mem b k (grownBrk s b.addr k), ?_, hgrown⟩
    rw [if_neg (by omega), h.nextBlockSize_last, if_pos rfl, hincr,
      kreallocGrow_eq h.toHeapRep (by simp) hkmod (by omega), grownBrk]
    split <;> rfl
  · have hrep : HeapRep s.mem s.kbrkMin s.kbrk ((L ++ P ++ [b]) ++ [x]) zu fl := by
      simpa using h.toHeapRep
    have hxmem : x ∈ L ++ P ++ [b, x] := by simp
    obtain ⟨-, hxh, hx16, -⟩ := h.mem hxmem
    obtain ⟨hxs, hxu, -⟩ := h.read hxmem
    rw [hx, Bool.toNat_false] at hxu
    have hxaddr : x.addr = b.addr + b.size := h.tiles.next.1
    have hstop : x.addr + x.size = s.kbrk - 4 := by
      obtain ⟨_, _, -, -, hstop, -⟩ := tiles_append.1 hrep.tiles
      exact hstop
    have hsum : Word.add b.size x.size = b.size + x.size := Word.add_eq
    have hincr : Word.sub k (b.size + x.size) = b.addr + k - (s.kbrk - 4) := by
      rw [Word.sub_eq]
      omega
    have hun := h.unlisted (h.listed x hxmem hx)
    have hgrown := h.grow hused (by simpa using hx) hun
      (fun y hy => h.remove_above (h.listed x hxmem hx) hy) hk hkmod hlow hroom hge hlt
    refine ⟨_, ?_, hgrown⟩
    rw [if_neg (by omega), h.nextBlockSize_next, if_neg (by omega), h.addr_next, hxs, hsum,
      if_neg (by omega), hrep.nextBlockSize_last, if_pos ⟨hxu, rfl⟩, hincr,
      kreallocGrow_eq (s := { s with mem := removeFreeBlock (memHeapLo s) s.mem x.addr }) hun.rep
        (by simp) hkmod (show s.kbrk + (b.addr + k - (s.kbrk - 4)) + 4096 < 2 ^ 32 by omega),
      grownBrk]
    split <;> rfl

end

end JinxOS
