import JinxOS.Mem.Coalesce

/-!
# `kmalloc` and `kfree`

The invariant that the allocator keeps from call to call is `Heap`: the heap is represented in
memory, every free block is on the free list, and no two free blocks are neighbours.  This file
gives one specification for each function of the allocator over it.

What a client can see of a block list is which blocks are used (`Used`); what it can see of memory
are the bytes in them (`Payload`).  A specification says what becomes of the used blocks and that
the bytes in those which stay are not touched:

* `freeBlock_all` — the call from `kfree`: a used block is given back;
* `Held.take` and `Held.split` — the two ways in which `kmalloc` marks a block used;
* `increaseHeap_eq` — the heap grows by a free block that is large enough, or `mem_sbrk` panics.
-/

namespace JinxOS

open List (mem_append mem_cons)

/-! ## Used blocks -/

/-- There is a used block of size `n` at `a`. -/
def Used (bs : List Blk) (a n : Nat) : Prop := ∃ b ∈ bs, b.used = true ∧ b.addr = a ∧ b.size = n

variable {bs l₁ l₂ l L R : List Blk} {a n lo hi block blockSize keepSize k : Nat}

theorem payload_iff {y : Nat} : Payload bs y ↔ ∃ a n, Used bs a n ∧ a + 4 ≤ y ∧ y < a + n := by
  constructor
  · rintro ⟨b, hb, hused, hy, hy'⟩
    exact ⟨b.addr, b.size, ⟨b, hb, hused, rfl, rfl⟩, hy, hy'⟩
  · rintro ⟨a, n, ⟨b, hb, hused, rfl, rfl⟩, hy, hy'⟩
    exact ⟨b, hb, hused, hy, hy'⟩

theorem used_append : Used (l₁ ++ l₂) a n ↔ Used l₁ a n ∨ Used l₂ a n := by
  simp only [Used, mem_append, or_and_right, exists_or]

theorem used_cons {b : Blk} :
    Used (b :: l) a n ↔ (b.used = true ∧ b.addr = a ∧ b.size = n) ∨ Used l a n := by
  simp only [Used, mem_cons, or_and_right, exists_or, exists_eq_left]

theorem used_of_free (h : ∀ b ∈ l, b.used = false) (a n : Nat) : ¬ Used l a n := by
  rintro ⟨b, hb, hused, -⟩
  rw [h b hb] at hused
  cases hused

theorem used_setPrev {u : Bool} : Used (setPrev u l) a n ↔ Used l a n := by
  cases l with
  | nil => rfl
  | cons b l => rw [setPrev, used_cons, used_cons]

theorem payload_congr (h : ∀ a n, Used l₁ a n ↔ Used l₂ a n) (y : Nat) :
    Payload l₁ y ↔ Payload l₂ y := by
  simp only [payload_iff, h]

/-! ## The invariant -/

/-- No two neighbours are both free. -/
def NoFreePair (bs : List Blk) : Prop := bs.IsChain fun b c => b.used = true ∨ c.used = true

/-- **The heap between two calls of the allocator.** -/
structure Heap (m : ByteMem) (lo hi : Nat) (bs : List Blk) (zu : Bool) (fl : List Nat) : Prop
    extends HeapRep m lo hi bs zu fl where
  /-- Every free block is on the list. -/
  listed : ∀ b ∈ bs, b.used = false → b.addr ∈ fl
  /-- Neighbours have been coalesced. -/
  coalesced : NoFreePair bs

theorem NoFreePair.setPrev {u : Bool} (h : NoFreePair l) : NoFreePair (setPrev u l) := by
  cases l with
  | nil => exact h
  | cons b l => exact List.isChain_cons.2 (List.isChain_cons.1 h)

theorem noFreePair_append : NoFreePair (l₁ ++ l₂) ↔ NoFreePair l₁ ∧ NoFreePair l₂ ∧
      ∀ b ∈ l₁.getLast?, ∀ c ∈ l₂.head?, b.used = true ∨ c.used = true :=
  List.isChain_append

theorem noFreePair_cons {b : Blk} :
    NoFreePair (b :: l) ↔ (∀ c ∈ l.head?, b.used = true ∨ c.used = true) ∧ NoFreePair l :=
  List.isChain_cons

/-! ## Putting a block back

A free block that is not on the list yet is inserted and coalesced with its neighbours.  The free
blocks next to it are cut off the lists on both sides. -/

theorem Tiles.flag {z : Nat} {pu zu : Bool} {b : Blk} (h : Tiles a pu bs z zu)
    (hb : b ∈ bs.getLast?) : zu = b.used := by
  obtain ⟨l, rfl⟩ := List.getLast?_eq_some_iff.1 hb
  obtain ⟨_, _, -, -, -, hflag⟩ := tiles_append.1 h
  exact hflag.symm

theorem exists_free_suffix (l : List Blk) : ∃ l' P, l = l' ++ P ∧ (∀ p ∈ P, p.used = false) ∧
    ∀ b ∈ l'.getLast?, b.used = true := by
  induction l using List.reverseRecOn with
  | nil => exact ⟨[], [], rfl, by simp, by simp⟩
  | append_singleton l b ih =>
    cases hb : b.used with
    | true => exact ⟨l ++ [b], [], by simp, by simp, by simp [hb]⟩
    | false =>
      obtain ⟨l', P, rfl, hP, hlast⟩ := ih
      refine ⟨l', P ++ [b], by simp, ?_, hlast⟩
      intro p hp
      rcases List.mem_append.1 hp with hp | hp
      · exact hP p hp
      · rw [List.mem_singleton.1 hp, hb]

theorem exists_free_prefix (l : List Blk) : ∃ N l', l = N ++ l' ∧ (∀ p ∈ N, p.used = false) ∧
    ∀ b ∈ l'.head?, b.used = true := by
  induction l with
  | nil => exact ⟨[], [], rfl, by simp, by simp⟩
  | cons b l ih =>
    cases hb : b.used with
    | true => exact ⟨[], b :: l, rfl, by simp, by simp [hb]⟩
    | false =>
      obtain ⟨N, l', rfl, hN, hhead⟩ := ih
      refine ⟨b :: N, l', rfl, ?_, hhead⟩
      rintro p hp
      rcases List.mem_cons.1 hp with rfl | hp
      · exact hb
      · exact hN p hp

/-- The heap after a free block `f` between `L` and `R` has been put back. -/
structure PutBack (m m' : ByteMem) (lo hi : Nat) (L R : List Blk) (f : Blk) (bs' : List Blk)
    (zu : Bool) (fl' : List Nat) : Prop where
  heap : Heap m' lo hi bs' zu fl'
  used : ∀ a n, Used bs' a n ↔ Used (L ++ R) a n
  room : ∃ c ∈ bs', c.used = false ∧ f.size ≤ c.size
  payload : ∀ y, Payload (L ++ R) y → m' y = m y
  clear : KeepsClear (L ++ f :: R) lo m m'

/-- **`insert_free_block` and `coalesce_free_block`** put a free block back. -/
theorem HeapRep.putBack {m : ByteMem} {f : Blk} {zu : Bool} {fl : List Nat}
    (h : HeapRep m lo hi (L ++ f :: R) zu fl) (hf : f.used = false) (hnew : f.addr ∉ fl)
    (hlisted : ∀ b ∈ L ++ R, b.used = false → b.addr ∈ fl) (hL : NoFreePair L) (hR : NoFreePair R) :
    ∃ m' bs' fl', coalesceFreeBlock lo (insertFreeBlock lo m f.addr) f.addr = .ok m' ∧
      PutBack m m' lo hi L R f bs' zu fl' := by
  obtain ⟨hins, hpay⟩ := h.insert (by simp) hf hnew
  have hclear := h.insert_clear (by simp) hf
  obtain ⟨L, P, rfl, hP, hLlast⟩ := exists_free_suffix L
  obtain ⟨N, R, rfl, hN, hRhead⟩ := exists_free_prefix R
  have hblocks : L ++ P ++ f :: (N ++ R) = L ++ (P ++ f :: N ++ R) := by simp
  rw [hblocks] at hins hpay hclear
  have hall : ∀ c ∈ P ++ f :: N, c.used = false := by
    intro c hc
    simp only [mem_append, mem_cons] at hc
    rcases hc with hc | rfl | hc
    · exact hP c hc
    · exact hf
    · exact hN c hc
  obtain ⟨s, su, hLt, htail⟩ := tiles_append.1 hins.tiles
  obtain ⟨e, eu, hseg, hRt⟩ := tiles_append.1 htail
  -- what stands before the free blocks is used, and they are free
  obtain rfl : su = true := by
    cases hlast : L.getLast? with
    | none =>
      obtain rfl := List.getLast?_eq_none_iff.1 hlast
      exact hLt.2.symm
    | some b => exact (hLt.flag hlast).trans (hLlast b hlast)
  obtain rfl : eu = false := by
    have hlast := List.getLast?_eq_some_getLast (show P ++ f :: N ≠ [] by simp)
    exact (hseg.flag hlast).trans (hall _ (List.mem_of_mem_getLast? hlast))
  obtain ⟨m', fl', hrun, hco⟩ := coalesceFreeBlock_eq hins hLt hseg hRt hRhead fun c hc => by
    refine ⟨hall c hc, ?_⟩
    simp only [mem_append, mem_cons] at hc ⊢
    rcases hc with hc | rfl | hc
    · exact .inr (hlisted c (by simp [hc]) (hP c hc))
    · exact .inl rfl
    · exact .inr (hlisted c (by simp [hc]) (hN c hc))
  have hused : ∀ a n, Used (L ++ ⟨s, e - s, false, true⟩ :: R) a n ↔ Used (L ++ R) a n := by
    intro a n
    simp [used_append, used_cons]
  have hused' : ∀ a n, Used (L ++ R) a n ↔ Used (L ++ P ++ (N ++ R)) a n := by
    intro a n
    simp [used_append, used_of_free hP, used_of_free hN]
  refine ⟨m', _, fl', hrun, ⟨⟨hco.rep, ?_, ?_⟩, ?_, ?_, ?_, ?_⟩⟩
  · intro b hb hfree
    rw [hco.mem]
    by_cases hbs : b.addr = s
    · exact .inl hbs
    · have hb' : b ∈ L ++ R := by
        simp only [mem_append, mem_cons] at hb ⊢
        rcases hb with hb | rfl | hb
        · exact .inl hb
        · exact absurd rfl hbs
        · exact .inr hb
      refine .inr ⟨List.mem_cons_of_mem _ (hlisted b ?_ hfree), ?_⟩
      · simp only [mem_append] at hb' ⊢
        tauto
      · intro c hc he
        have hbmem : b ∈ L ++ (P ++ f :: N ++ R) := by
          simp only [mem_append] at hb' ⊢
          tauto
        have hcmem : c ∈ L ++ (P ++ f :: N ++ R) :=
          List.mem_append_right _ (List.mem_append_left _ hc)
        obtain rfl := hins.tiles.eq_of_addr hbmem hcmem he
        have hbseg := hseg.bounds hc
        rcases List.mem_append.1 hb' with hb' | hb'
        · have := hLt.bounds hb'
          omega
        · have := hRt.bounds hb'
          omega
  · refine noFreePair_append.2 ⟨(noFreePair_append.1 hL).1, ?_, fun b hb c _ =>
      .inl (hLlast b hb)⟩
    exact noFreePair_cons.2 ⟨fun c hc => .inr (hRhead c hc), (noFreePair_append.1 hR).2.1⟩
  · intro a n
    rw [hused, hused']
  · refine ⟨⟨s, e - s, false, true⟩, by simp, rfl, ?_⟩
    have hfs := hseg.bounds (b := f) (by simp)
    show f.size ≤ e - s
    omega
  · intro y hy
    have hy' : Payload (L ++ R) y := (payload_congr hused' y).2 hy
    rw [hco.payload y hy', hpay y]
    obtain ⟨b, hb, hy⟩ := hy'
    refine ⟨b, ?_, hy⟩
    simp only [mem_append] at hb ⊢
    tauto
  · rw [hblocks]
    exact hclear.trans hco.clear

/-! ## `free_block` -/

/-- The header that `free_block` writes into the surplus. -/
def surplusTag (m : ByteMem) (block blockSize keepSize : Nat) : Nat :=
  if 0 < keepSize then Word.sub blockSize keepSize ||| 2
  else blockSize ||| prevBlockIsUsed m block

theorem surplusTag_lt {m : ByteMem} (h : blockSize < 2 ^ 32) :
    surplusTag m block blockSize keepSize < 2 ^ 32 := by
  rw [surplusTag]
  split
  · exact Nat.or_lt_two_pow (Word.sub_lt _ _) (by omega)
  · exact Nat.or_lt_two_pow h (lt_of_le_of_lt Nat.and_le_right (by omega))

/-- The stores of `free_block`: header and footer of the surplus, and the flag behind it. -/
theorem freeBlock_stores (m : ByteMem) (lo : Nat) (hfit : block + blockSize + 4 < 2 ^ 32)
    (hkeep : keepSize + 16 ≤ blockSize) : ∃ m1, freeBlock lo m block blockSize keepSize =
        coalesceFreeBlock lo (insertFreeBlock lo m1 (block + keepSize)) (block + keepSize) ∧
      (∀ y, y < block + keepSize ∨ block + blockSize + 4 ≤ y → m1 y = m y) ∧
      m1.load (block + keepSize) = surplusTag m block blockSize keepSize ∧
      m1.load (block + blockSize - 4) = surplusTag m block blockSize keepSize ∧
      m1.load (block + blockSize) = (m.load (block + blockSize) ||| 2) ^^^ 2 := by
  have ht : surplusTag m block blockSize keepSize < 2 ^ 32 := surplusTag_lt (by omega)
  have hn : m.load (block + blockSize) ||| 2 < 2 ^ 32 := Nat.or_lt_two_pow (m.load_lt _) (by omega)
  have hn' : (m.load (block + blockSize) ||| 2) ^^^ 2 < 2 ^ 32 := Nat.xor_lt_two_pow hn (by omega)
  have hfoot : Word.add block (Word.sub blockSize 4) = block + blockSize - 4 := by
    rw [Word.sub_eq, Word.add_eq]
    omega
  have hhead : (if 0 < keepSize then m.store (block + keepSize) (Word.sub blockSize keepSize ||| 2)
      else m.store (block + keepSize) (blockSize ||| prevBlockIsUsed m block)) =
      m.store (block + keepSize) (surplusTag m block blockSize keepSize) := by
    rw [surplusTag]
    split <;> rfl
  refine ⟨_, by rw [freeBlock, Word.add_eq, hfoot, Word.add_eq, hhead], ?_, ?_, ?_, ?_⟩
  · intro y hy
    rw [store_apply, store_apply,
      store_apply, store_apply]
  · rw [load_store_of_disjoint, load_store_of_disjoint,
      load_store_of_disjoint, load_store_same ht]
  · rw [load_store_of_disjoint, load_store_of_disjoint,
      load_store_same (ByteMem.load_lt _ _), load_store_same ht]
  · have hkept : ∀ v w, ((m.store (block + keepSize) v).store (block + blockSize - 4) w).load
        (block + blockSize) = m.load (block + blockSize) := by
      intro v w
      rw [load_store_of_disjoint, load_store_of_disjoint]
    rw [hkept, load_store_same hn, load_store_same hn']

theorem HeapRep.used_not_listed {m : ByteMem} {zu : Bool} {fl : List Nat}
    (h : HeapRep m lo hi bs zu fl) {b : Blk} (hb : b ∈ bs) (hused : b.used = true) :
    b.addr ∉ fl := by
  intro hfl
  obtain ⟨c, hc, hfree, he⟩ := h.free _ hfl
  obtain rfl := h.tiles.eq_of_addr hc hb he
  rw [hused] at hfree
  cases hfree

/-- **`free_block` as `kfree` calls it**: the used block `b` is given back. -/
theorem freeBlock_all {m : ByteMem} {b : Blk} {zu : Bool} {fl : List Nat}
    (h : Heap m lo hi (L ++ b :: R) zu fl) (hused : b.used = true) :
    ∃ m' bs' zu' fl', freeBlock lo m b.addr b.size 0 = .ok m' ∧ Heap m' lo hi bs' zu' fl' ∧
      (∀ a n, Used bs' a n ↔ Used (L ++ R) a n) ∧ (∀ y, Payload (L ++ R) y → m' y = m y) ∧
      ∀ w, w % 4 = 0 → lo + 4 ≤ w → (∀ c ∈ L ++ b :: R, w ≠ c.addr + 4 ∧ w ≠ c.addr + 8) →
        w = b.addr ∨ (w + 4 ≤ b.addr ∨ b.stop ≤ w) ∧ blockIsUsed m w = 0 →
        blockIsUsed m' w = 0 := by
  have hbmem : b ∈ L ++ b :: R := by simp
  obtain ⟨-, hbhi, hbsize, hbmod, hbaddr⟩ := h.mem hbmem
  have hhi := h.hi_lt
  obtain ⟨s, su, hL, hrest⟩ := tiles_append.1 h.tiles
  obtain ⟨⟨rfl, rfl, -, -⟩, hR⟩ := hrest
  obtain ⟨m1, hrun, hout, hhdr, hftr, hnext⟩ := freeBlock_stores m lo
    (show b.addr + b.size + 4 < 2 ^ 32 by omega) (by omega)
  rw [Nat.add_zero] at hrun hhdr
  let f : Blk := { b with used := false }
  have htag : surplusTag m b.addr b.size 0 = f.tag := by
    rw [surplusTag, if_neg (by omega), (h.read hbmem).2.2,
      Word.or_flag hbmod (by have := Bool.toNat_lt b.prevUsed; omega)]
    simp [f, Blk.tag]
  have hnt : m.load (b.addr + b.size) = nextTag b.used R := by
    have hrep := h.toHeapRep
    rw [List.append_cons] at hrep
    exact hrep.next hR
  rw [htag] at hhdr hftr
  rw [hnt, nextTag_or_two hR, nextTag_xor_two hR] at hnext
  have hfree : ∀ x ∈ fl, ∃ c ∈ L ++ R, c.used = false ∧ c.addr = x := by
    intro x hx
    obtain ⟨c, hc, hcfree, rfl⟩ := h.free x hx
    have hcb : c ≠ b := by
      rintro rfl
      rw [hused] at hcfree
      cases hcfree
    exact ⟨c, by simpa [hcb] using hc, hcfree, rfl⟩
  have hrep : HeapRep m1 lo hi (L ++ f :: setPrev false R) (endPrev false zu R) fl := by
    have hold : HeapRep m lo hi (L ++ ([b] ++ R)) zu fl := h.toHeapRep
    have hf : Tiles b.addr b.prevUsed [f] b.stop false := ⟨⟨rfl, rfl, hbsize, hbmod⟩, rfl, rfl⟩
    refine hold.retile hL hf hR hfree hout ?_ ?_ hnext
    · intro c hc
      rw [List.mem_singleton.1 hc]
      exact hhdr
    · intro c hc _
      rw [List.mem_singleton.1 hc]
      have hf : SIZE f.tag = f.size := Blk.SIZE_tag hbmod (show b.size + 4 ≤ 2 ^ 32 by omega)
      exact (congrArg SIZE hftr).trans hf
  have hnew : b.addr ∉ fl := h.used_not_listed hbmem hused
  have hlisted : ∀ c ∈ L ++ setPrev false R, c.used = false → c.addr ∈ fl := by
    intro c hc hcfree
    rcases List.mem_append.1 hc with hc | hc
    · exact h.listed c (by simp [hc]) hcfree
    · obtain ⟨d, hd, haddr, -, hdu⟩ := of_mem_setPrev hc
      rw [haddr]
      exact h.listed d (by simp [hd]) (hdu ▸ hcfree)
  obtain ⟨hLpair, hRpair, -⟩ := noFreePair_append.1 h.coalesced
  obtain ⟨m', bs', fl', hrun', hput⟩ := hrep.putBack rfl hnew hlisted hLpair
    (noFreePair_cons.1 hRpair).2.setPrev
  have hsame : ∀ a n, Used (L ++ setPrev false R) a n ↔ Used (L ++ R) a n := fun a n => by
    rw [used_append, used_setPrev, used_append]
  refine ⟨m', bs', _, fl', hrun.trans hrun', hput.heap, ?_, ?_, ?_⟩
  · intro a n
    rw [hput.used, hsame]
  · intro y hy
    rw [hput.payload y ((payload_congr hsame y).2 hy), hout y (hy.outside hL hR)]
  · intro w hw hlo hlinks hclear
    refine KeepsClear.mono hput.clear ?_ w hw hlo hlinks ?_
    · intro c hc
      simp only [mem_append, mem_cons] at hc
      rcases hc with hc | rfl | hc
      · exact ⟨c, by simp [hc], rfl⟩
      · exact ⟨b, by simp, rfl⟩
      · obtain ⟨d, hd, haddr, -⟩ := of_mem_setPrev hc
        exact ⟨d, by simp [hd], haddr.symm⟩
    · -- the stores of `free_block` before the block is inserted
      rcases hclear with rfl | ⟨hout', hclear⟩
      · rw [blockIsUsed, hhdr]
        exact Blk.tag_and_one hbmod
      by_cases hnextw : w = b.addr + b.size
      · subst hnextw
        rw [blockIsUsed, hnt, nextTag_flag hR] at hclear
        rw [blockIsUsed, hnext]
        exact hclear
      · rw [Blk.stop] at hout'
        have hload : m1.load w = m.load w :=
          load_congr fun y hy hy' => hout y (by omega)
        rw [blockIsUsed, hload]
        exact hclear

/-! ## Making a used block

The blocks are `L ++ (seg ++ R)`, and `seg` occupies `[s, e)`.  Nothing of `seg` is on the list, so
that its bytes can be used for a new block. -/

/-- The blocks `seg` between `L` and `R` are not on the list; all free blocks of `L` and `R` are. -/
structure Cut (m : ByteMem) (lo hi : Nat) (L seg R : List Blk) (zu : Bool) (fl : List Nat)
    (s e : Nat) (pu eu : Bool) : Prop where
  rep : HeapRep m lo hi (L ++ (seg ++ R)) zu fl
  left : Tiles (lo + 4) true L s pu
  right : Tiles e eu R (hi - 4) zu
  free : ∀ x ∈ fl, ∃ b ∈ L ++ R, b.used = false ∧ b.addr = x
  listed : ∀ c ∈ L ++ R, c.used = false → c.addr ∈ fl
  pairs : NoFreePair L
  pairs' : NoFreePair R

/-- The heap after the bytes from `s` on have become a used block of size `n`.  `m₀` is the memory
in which its header has been written. -/
structure Filled (m m₀ m' : ByteMem) (lo hi : Nat) (L R : List Blk) (s n : Nat) (bs' : List Blk)
    (zu' : Bool) (fl' : List Nat) : Prop where
  heap : Heap m' lo hi bs' zu' fl'
  used : ∀ a k, Used bs' a k ↔ Used (L ++ R) a k ∨ a = s ∧ k = n
  payload : ∀ y, Payload (L ++ R) y → m' y = m y
  /-- The payload of the block is what it was when the header was written. -/
  kept : ∀ y, s + 4 ≤ y → y < s + n → m' y = m₀ y

theorem used_insert {R' : List Blk} {u : Blk} (hu : u.used = true)
    (hR : ∀ a k, Used R' a k ↔ Used R a k) (a k : Nat) :
    Used (L ++ u :: R') a k ↔ Used (L ++ R) a k ∨ a = u.addr ∧ k = u.size := by
  simp only [used_append, used_cons, hR, hu, true_and]
  constructor
  · rintro (h | ⟨rfl, rfl⟩ | h)
    · exact .inl (.inl h)
    · exact .inr ⟨rfl, rfl⟩
    · exact .inl (.inr h)
  · rintro ((h | h) | ⟨rfl, rfl⟩)
    · exact .inl h
    · exact .inr (.inr h)
    · exact .inr (.inl ⟨rfl, rfl⟩)

section
variable {m : ByteMem} {lo hi s e : Nat} {L seg R : List Blk} {zu pu eu : Bool} {fl : List Nat}

section
variable (h : Cut m lo hi L seg R zu fl s e pu eu)
include h

theorem Cut.noFreePair {u : Blk} {b : Bool}
    (hu : u.used = true) : NoFreePair (L ++ u :: setPrev b R) := by
  refine noFreePair_append.2 ⟨h.pairs, noFreePair_cons.2 ⟨fun _ _ => .inl hu, h.pairs'.setPrev⟩, ?_⟩
  rintro c - d hd
  obtain rfl : u = d := by simpa using hd
  exact .inr hu

theorem Cut.listed_setPrev {b : Bool} : ∀ c ∈ L ++ setPrev b R, c.used = false → c.addr ∈ fl := by
  intro c hc hfree
  rcases List.mem_append.1 hc with hc | hc
  · exact h.listed c (List.mem_append_left _ hc) hfree
  · obtain ⟨d, hd, haddr, -, hdu⟩ := of_mem_setPrev hc
    rw [haddr]
    exact h.listed d (List.mem_append_right _ hd) (hdu ▸ hfree)

theorem Cut.next : m.load e = nextTag eu R := by
  have hrep := h.rep
  rw [← List.append_assoc] at hrep
  exact hrep.next h.right

/-- **All of `seg` becomes one used block.** -/
theorem Cut.take (m0 : ByteMem) (hout : ∀ y, y < s ∨ e ≤ y → m0 y = m y)
    (hheader : m0.load s = (⟨s, e - s, true, pu⟩ : Blk).tag) (hsize : s + 16 ≤ e)
    (hmod : (e - s) % 4 = 0) :
    ∃ bs' zu' fl', Filled m m0 (m0.store e (m0.load e ||| 2)) lo hi L R s (e - s) bs' zu' fl' := by
  let u : Blk := ⟨s, e - s, true, pu⟩
  have hstop : u.stop = e := by
    simp only [u, Blk.stop]
    omega
  have hnt : m0.load e ||| 2 = nextTag true R := by
    rw [load_congr fun y hy _ => hout y (.inr hy), h.next,
      nextTag_or_two h.right]
  have hnlt : nextTag true R < 2 ^ 32 := by
    rw [← hnt]
    exact Nat.or_lt_two_pow (m0.load_lt _) (by omega)
  rw [hnt]
  have hout' : ∀ y, y < s ∨ e + 4 ≤ y → m0.store e (nextTag true R) y = m y := by
    intro y hy
    rw [store_apply, hout y (by omega)]
  have hrep : HeapRep (m0.store e (nextTag true R)) lo hi (L ++ ([u] ++ setPrev true R))
      (endPrev true zu R) fl := by
    have hu : Tiles s pu [u] e true := ⟨⟨rfl, rfl, (by omega : 16 ≤ e - s), hmod⟩, hstop, rfl⟩
    refine h.rep.retile h.left hu h.right h.free hout' ?_ ?_ (load_store_same hnlt)
    · intro c hc
      rw [List.mem_singleton.1 hc]
      show ByteMem.load _ s = u.tag
      rw [load_store_of_disjoint, hheader]
    · intro c hc hcfree
      rw [List.mem_singleton.1 hc] at hcfree
      cases hcfree
  refine ⟨_, _, fl, ⟨⟨hrep, ?_, h.noFreePair rfl⟩, used_insert rfl fun _ _ => used_setPrev,
    fun y hy => hout' y (hy.outside h.left h.right), ?_⟩⟩
  · intro c hc hcfree
    refine h.listed_setPrev (b := true) c ?_ hcfree
    simp only [mem_append, List.mem_singleton] at hc ⊢
    rcases hc with hc | rfl | hc
    · exact .inl hc
    · cases hcfree
    · exact .inr hc
  · intro y hy hy'
    exact store_apply

/-- **The first `k` bytes of `seg` become a used block**, and the rest goes back to the list. -/
theorem Cut.split (m0 : ByteMem)
    (hout : ∀ y, y < s ∨ e ≤ y → m0 y = m y) (hheader : m0.load s = (⟨s, k, true, pu⟩ : Blk).tag)
    (hk : 16 ≤ k) (hkmod : k % 4 = 0) (hle : s + k + 16 ≤ e) (hmod : (e - s) % 4 = 0) :
    ∃ m' bs' zu' fl', freeBlock lo m0 s (e - s) k = .ok m' ∧
      Filled m m0 m' lo hi L R s k bs' zu' fl' := by
  have heh := h.right.le
  have hhi := h.rep.hi_lt
  let u : Blk := ⟨s, k, true, pu⟩
  let f : Blk := ⟨s + k, e - s - k, false, true⟩
  have hfstop : f.stop = e := by
    simp only [f, Blk.stop]
    omega
  obtain ⟨m2, hrun, hout2, hhdr, hftr, hnext⟩ := freeBlock_stores m0 lo
    (show s + (e - s) + 4 < 2 ^ 32 by omega) (show k + 16 ≤ e - s by omega)
  have hst : surplusTag m0 s (e - s) k = f.tag := by
    rw [surplusTag, if_pos (by omega), Word.sub_eq,
      Word.or_flag (by omega) (by omega)]
    simp [f, Blk.tag]
  have hse : s + (e - s) = e := by omega
  rw [hst] at hhdr hftr
  rw [hse] at hout2 hftr hnext
  have hbehind : m0.load e = m.load e := load_congr fun y hy _ => hout y (.inr hy)
  rw [hbehind, h.next, nextTag_or_two h.right, nextTag_xor_two h.right] at hnext
  have hout' : ∀ y, y < s ∨ e + 4 ≤ y → m2 y = m y := by
    intro y hy
    rw [hout2 y (by omega), hout y (by omega)]
  have hrep : HeapRep m2 lo hi (L ++ ([u, f] ++ setPrev false R)) (endPrev false zu R) fl := by
    have huf : Tiles s pu [u, f] e false :=
      ⟨⟨rfl, rfl, hk, hkmod⟩, ⟨rfl, rfl, (by omega : 16 ≤ e - s - k),
        (by omega : (e - s - k) % 4 = 0)⟩, hfstop, rfl⟩
    refine h.rep.retile h.left huf h.right h.free hout' ?_ ?_ hnext
    · intro c hc
      rcases List.mem_cons.1 hc with rfl | hc
      · show m2.load s = u.tag
        rw [load_congr fun y _ hy => hout2 y (by omega), hheader]
      · rw [List.mem_singleton.1 hc]
        exact hhdr
    · intro c hc hcfree
      rcases List.mem_cons.1 hc with rfl | hc
      · cases hcfree
      · rw [List.mem_singleton.1 hc, hfstop, hftr]
        exact Blk.SIZE_tag (by omega : (e - s - k) % 4 = 0) (by omega : e - s - k + 4 ≤ 2 ^ 32)
  have hrep' : HeapRep m2 lo hi ((L ++ [u]) ++ f :: setPrev false R) (endPrev false zu R) fl := by
    simpa using hrep
  have hnew : f.addr ∉ fl := by
    intro hx
    obtain ⟨c, hc, -, he⟩ := h.free _ hx
    rcases List.mem_append.1 hc with hc | hc
    · have := h.left.bounds hc
      simp only [f] at he
      omega
    · have := h.right.bounds hc
      simp only [f] at he
      omega
  have hlisted : ∀ c ∈ L ++ [u] ++ setPrev false R, c.used = false → c.addr ∈ fl := by
    intro c hc hcfree
    refine h.listed_setPrev (b := false) c ?_ hcfree
    simp only [mem_append, List.mem_singleton] at hc ⊢
    rcases hc with (hc | rfl) | hc
    · exact .inl hc
    · cases hcfree
    · exact .inr hc
  have hLu : NoFreePair (L ++ [u]) := by
    refine noFreePair_append.2 ⟨h.pairs, List.isChain_singleton u, ?_⟩
    rintro c - d hd
    obtain rfl : u = d := by simpa using hd
    exact .inr rfl
  obtain ⟨m', bs', fl', hrun', hput⟩ := hrep'.putBack rfl hnew hlisted hLu h.pairs'.setPrev
  have hused : ∀ a n, Used (L ++ [u] ++ setPrev false R) a n ↔
      Used (L ++ R) a n ∨ a = s ∧ n = k := fun a n => by
    rw [List.append_assoc, List.singleton_append]
    exact used_insert rfl (fun _ _ => used_setPrev) a n
  refine ⟨m', bs', _, fl', hrun.trans hrun', ⟨hput.heap, ?_, ?_, ?_⟩⟩
  · intro a n
    rw [hput.used, hused]
  · intro y hy
    have hy' : Payload (L ++ [u] ++ setPrev false R) y := by
      obtain ⟨a, n, hu, hya, hyn⟩ := payload_iff.1 hy
      exact payload_iff.2 ⟨a, n, (hused a n).2 (.inl hu), hya, hyn⟩
    rw [hput.payload y hy', hout' y (hy.outside h.left h.right)]
  · intro y hy hy'
    rw [hput.payload y (payload_iff.2 ⟨s, k, (hused s k).2 (.inr ⟨rfl, rfl⟩), hy, hy'⟩),
      hout2 y (.inl hy')]

end

end

/-! ## Taking a block

`kmalloc` has found the free block `b` between `L` and `R` and has taken it off the list. -/

/-- The heap while `kmalloc` holds the free block `b`. -/
structure Held (m : ByteMem) (lo hi : Nat) (L : List Blk) (b : Blk) (R : List Blk) (zu : Bool)
    (fl : List Nat) : Prop where
  rep : HeapRep m lo hi (L ++ b :: R) zu fl
  free : b.used = false
  absent : b.addr ∉ fl
  listed : ∀ c ∈ L ++ R, c.used = false → c.addr ∈ fl
  coalesced : NoFreePair (L ++ b :: R)

/-- The heap after `kmalloc` has made a used block of size `n` of `b`. -/
structure Carved (m m' : ByteMem) (lo hi : Nat) (L : List Blk) (b : Blk) (R bs' : List Blk)
    (zu' : Bool) (fl' : List Nat) (n : Nat) : Prop where
  heap : Heap m' lo hi bs' zu' fl'
  used : ∀ a k, Used bs' a k ↔ Used (L ++ R) a k ∨ a = b.addr ∧ k = n
  payload : ∀ y, Payload (L ++ R) y → m' y = m y

section
variable {m : ByteMem} {lo hi : Nat} {L R : List Blk} {b : Blk} {zu : Bool} {fl : List Nat}

theorem Heap.held (h : Heap m lo hi (L ++ b :: R) zu fl) (hfree : b.used = false) :
    Held (removeFreeBlock lo m b.addr) lo hi L b R zu (fl.erase b.addr) := by
  refine ⟨(h.remove (h.listed b (by simp) hfree)).1, hfree, ?_, ?_, h.coalesced⟩
  · rw [h.nodup.mem_erase_iff]
    exact fun hx => hx.1 rfl
  · intro c hc hcfree
    exact (List.mem_erase_of_ne (h.tiles.addr_ne hc)).2 (h.listed c (mem_middle hc) hcfree)

theorem Held.cut (h : Held m lo hi L b R zu fl) :
    Cut m lo hi L [b] R zu fl b.addr b.stop b.prevUsed b.used := by
  obtain ⟨s, su, hL, hrest⟩ := tiles_append.1 h.rep.tiles
  obtain ⟨⟨rfl, rfl, -, -⟩, hR⟩ := hrest
  obtain ⟨hLpair, hbRpair, -⟩ := noFreePair_append.1 h.coalesced
  refine ⟨h.rep, hL, hR, ?_, h.listed, hLpair, (noFreePair_cons.1 hbRpair).2⟩
  intro x hx
  obtain ⟨c, hc, hcfree, rfl⟩ := h.rep.free x hx
  have hcb : c ≠ b := by
    rintro rfl
    exact h.absent hx
  exact ⟨c, by simpa [hcb] using hc, hcfree, rfl⟩

/-- **The whole block is used.** -/
theorem Held.take (h : Held m lo hi L b R zu fl) : ∃ bs' zu' fl', Carved m
      ((m.store b.addr (m.load b.addr ||| (1 ||| prevBlockIsUsed m b.addr))).store b.stop
        (m.load b.stop ||| 2)) lo hi L b R bs' zu' fl' b.size := by
  have hbmem : b ∈ L ++ b :: R := by simp
  obtain ⟨-, hbhi, hbsize, hbmod, -⟩ := h.rep.mem hbmem
  have hhi := h.rep.hi_lt
  have hstop : b.stop - b.addr = b.size := by
    rw [Blk.stop]
    omega
  have htag : m.load b.addr ||| (1 ||| prevBlockIsUsed m b.addr) =
      (⟨b.addr, b.size, true, b.prevUsed⟩ : Blk).tag := by
    rw [(h.rep.read hbmem).2.2, h.rep.header b hbmem, Blk.tag,
      Word.or_flags hbmod b.flags_lt (by cases b.prevUsed <;> decide), h.free, Blk.tag]
    cases b.prevUsed <;> rfl
  have hut : (⟨b.addr, b.size, true, b.prevUsed⟩ : Blk).tag < 2 ^ 32 :=
    Blk.tag_lt (show b.size + 4 ≤ 2 ^ 32 by omega)
  obtain ⟨bs', zu', fl', hfill⟩ := h.cut.take
    (m.store b.addr (⟨b.addr, b.size, true, b.prevUsed⟩ : Blk).tag)
    (fun y hy => store_apply (by rw [Blk.stop] at hy; omega))
    (by rw [hstop]; exact load_store_same hut) (by rw [Blk.stop]; omega)
    (by rw [hstop]; exact hbmod)
  rw [hstop, load_store_of_disjoint (by rw [Blk.stop]; omega)] at hfill
  rw [htag]
  exact ⟨bs', zu', fl', hfill.heap, hfill.used, hfill.payload⟩

/-- **The block is split**: its first `k` bytes are used, and the rest goes back to the list. -/
theorem Held.split (h : Held m lo hi L b R zu fl) (hk : 16 ≤ k) (hkmod : k % 4 = 0)
    (hle : k + 16 ≤ b.size) :
    ∃ m' bs' zu' fl', freeBlock lo (m.store b.addr (k ||| 1 ||| prevBlockIsUsed m b.addr)) b.addr
        b.size k = .ok m' ∧ Carved m m' lo hi L b R bs' zu' fl' k := by
  have hbmem : b ∈ L ++ b :: R := by simp
  obtain ⟨-, hbhi, hbsize, hbmod, -⟩ := h.rep.mem hbmem
  have hhi := h.rep.hi_lt
  have hstop : b.stop - b.addr = b.size := by
    rw [Blk.stop]
    omega
  have htag : k ||| 1 ||| prevBlockIsUsed m b.addr = (⟨b.addr, k, true, b.prevUsed⟩ : Blk).tag := by
    rw [(h.rep.read hbmem).2.2]
    exact Blk.tag_of_flags hkmod _ _
  have hut : (⟨b.addr, k, true, b.prevUsed⟩ : Blk).tag < 2 ^ 32 :=
    Blk.tag_lt (show k + 4 ≤ 2 ^ 32 by omega)
  obtain ⟨m', bs', zu', fl', hrun, hfill⟩ := h.cut.split
    (m.store b.addr (⟨b.addr, k, true, b.prevUsed⟩ : Blk).tag)
    (fun y hy => store_apply (by rw [Blk.stop] at hy; omega))
    (load_store_same hut) hk hkmod (by rw [Blk.stop]; omega) (by rw [hstop]; exact hbmod)
  rw [hstop, ← htag] at hrun
  exact ⟨m', bs', zu', fl', hrun, hfill.heap, hfill.used, hfill.payload⟩

end

end JinxOS
