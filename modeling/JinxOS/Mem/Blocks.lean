import JinxOS.Mem.FreeList

/-!
# The heap as a list of blocks

The abstract view of the allocator's heap: a list of blocks that tile an interval of addresses
(`Tiles`), each with its size and its two flags, and a free list.  `HeapRep m lo hi bs zu fl` says
that memory `m` represents the blocks `bs` and the free list `fl` between `lo` and `hi`: headers,
footers, the epilogue word and the links are what the blocks say.

`HeapRep` allows two free blocks side by side and free blocks that are not on the list, because
the allocator passes through such states; what it establishes at the end of a call is added in
`JinxOS.Mem.Kmalloc`.

All changes to the blocks go through one lemma, `HeapRep.retile`: a run of adjacent blocks is
replaced by another run over the same addresses, and the header behind it gets the new
`PREV_BLOCK_USED` flag.  Changes to the list only are `HeapRep.relink`.
-/

namespace JinxOS

/-! ## Blocks -/

/-- A block of the heap. -/
structure Blk where
  /-- The address of its header. -/
  addr : Nat
  /-- Its size, header included. -/
  size : Nat
  used : Bool
  /-- `PREV_BLOCK_USED`. -/
  prevUsed : Bool
  deriving DecidableEq, Repr

/-- The address behind a block. -/
def Blk.stop (b : Blk) : Nat := b.addr + b.size

theorem Blk.stop_mk (a n : Nat) (u p : Bool) : (⟨a, n, u, p⟩ : Blk).stop = a + n := rfl

/-- The header word of a block. -/
def Blk.tag (b : Blk) : Nat := b.size + (b.used.toNat + 2 * b.prevUsed.toNat)

/-- The epilogue word, a used block of size zero. -/
def epilogue (prevUsed : Bool) : Nat := 1 + 2 * prevUsed.toNat

/-- The blocks lie one behind the other from `a` to `z`, with sizes that are multiples of 4 and at
least `MIN_BLOCK_SIZE`; the first one has the flag `pu` for its predecessor, each other one the
`BLOCK_USED` flag of the block before it, and `zu` is the flag for what stands at `z`. -/
def Tiles : Nat → Bool → List Blk → Nat → Bool → Prop
  | a, pu, [], z, zu => a = z ∧ pu = zu
  | a, pu, b :: bs, z, zu =>
    (b.addr = a ∧ b.prevUsed = pu ∧ 16 ≤ b.size ∧ b.size % 4 = 0) ∧ Tiles b.stop b.used bs z zu

variable {m m' m₁ m₂ : ByteMem} {a c e lo hi s z x y n : Nat} {bs bs' l₁ l₂ L R seg seg' : List Blk}
  {b : Blk} {pu cu eu zu u : Bool} {fl fl' N : List Nat}

theorem tiles_append : ∀ {a : Nat} {pu : Bool}, Tiles a pu (l₁ ++ l₂) z zu ↔
      ∃ c cu, Tiles a pu l₁ c cu ∧ Tiles c cu l₂ z zu := by
  induction l₁ with
  | nil =>
    intro a pu
    constructor
    · intro h
      exact ⟨a, pu, ⟨rfl, rfl⟩, h⟩
    · rintro ⟨c, cu, ⟨rfl, rfl⟩, h⟩
      exact h
  | cons b l₁ ih =>
    intro a pu
    rw [List.cons_append, Tiles, ih]
    simp only [Tiles, and_assoc, exists_and_left]

theorem Tiles.le : ∀ {a : Nat} {pu : Bool}, Tiles a pu bs z zu → a ≤ z := by
  induction bs with
  | nil => intro a pu h; exact Nat.le_of_eq h.1
  | cons b bs ih =>
    intro a pu h
    have := ih h.2
    have hb := h.1.1
    rw [Blk.stop] at this
    omega

theorem Tiles.mem : ∀ {a : Nat} {pu : Bool}, Tiles a pu bs z zu → b ∈ bs →
      a ≤ b.addr ∧ b.stop ≤ z ∧ 16 ≤ b.size ∧ b.size % 4 = 0 ∧ b.addr % 4 = a % 4 := by
  induction bs with
  | nil => intro a pu _ hb; simp at hb
  | cons c bs ih =>
    intro a pu h hb
    obtain ⟨⟨haddr, -, hsize, hmod⟩, hrest⟩ := h
    rcases List.mem_cons.1 hb with rfl | hb
    · exact ⟨by omega, hrest.le, hsize, hmod, by omega⟩
    · obtain ⟨h1, h2, h3, h4, h5⟩ := ih hrest hb
      rw [Blk.stop] at h1 h5
      exact ⟨by omega, h2, h3, h4, by omega⟩

theorem Tiles.bounds (h : Tiles a pu bs z zu) (hb : b ∈ bs) :
    a ≤ b.addr ∧ b.addr + b.size ≤ z ∧ 16 ≤ b.size := by
  obtain ⟨ha, hz, h16, -⟩ := h.mem hb
  exact ⟨ha, hz, h16⟩

theorem Tiles.size_mod : ∀ {a : Nat} {pu : Bool}, Tiles a pu bs z zu → (z - a) % 4 = 0 := by
  induction bs with
  | nil => intro a pu h; rw [h.1, Nat.sub_self]
  | cons b bs ih =>
    rintro a pu ⟨⟨haddr, -, -, hmod⟩, hrest⟩
    have hle := hrest.le
    have := ih hrest
    rw [Blk.stop] at this hle
    omega

theorem Tiles.sum_sizes :
    ∀ {a : Nat} {pu : Bool}, Tiles a pu bs z zu → a + (bs.map Blk.size).sum = z := by
  induction bs with
  | nil => exact fun h => h.1
  | cons b bs ih =>
    rintro a pu ⟨⟨rfl, -⟩, hrest⟩
    rw [List.map_cons, List.sum_cons, ← Nat.add_assoc]
    exact ih hrest

theorem Tiles.unique {z' : Nat} {zu' : Bool} :
    ∀ {a : Nat} {pu : Bool}, Tiles a pu bs z zu → Tiles a pu bs z' zu' → z = z' ∧ zu = zu' := by
  induction bs with
  | nil =>
    rintro a pu ⟨rfl, rfl⟩ ⟨rfl, rfl⟩
    exact ⟨rfl, rfl⟩
  | cons b bs ih => exact fun h h' => ih h.2 h'.2

theorem Tiles.rest (h : Tiles a pu (l₁ ++ l₂) z zu) (h1 : Tiles a pu l₁ c cu) :
    Tiles c cu l₂ z zu := by
  obtain ⟨c', cu', h1', h2⟩ := tiles_append.1 h
  obtain ⟨rfl, rfl⟩ := h1.unique h1'
  exact h2

theorem Tiles.next {c : Blk} (h : Tiles a pu (l₁ ++ b :: c :: l₂) z zu) :
    c.addr = b.stop ∧ c.prevUsed = b.used := by
  obtain ⟨_, _, -, -, hc, -⟩ := tiles_append.1 h
  exact ⟨hc.1, hc.2.1⟩

theorem Tiles.length_le : ∀ {a : Nat} {pu : Bool}, Tiles a pu bs z zu → a + 16 * bs.length ≤ z := by
  induction bs with
  | nil => intro a pu h; exact h.le
  | cons b bs ih =>
    rintro a pu ⟨⟨haddr, -, hsize, -⟩, hrest⟩
    have := ih hrest
    rw [Blk.stop] at this
    rw [List.length_cons]
    omega

theorem Tiles.pairwise :
    ∀ {a : Nat} {pu : Bool}, Tiles a pu bs z zu → bs.Pairwise fun b c => b.stop ≤ c.addr := by
  induction bs with
  | nil => intro a pu _; exact List.Pairwise.nil
  | cons b bs ih =>
    intro a pu h
    exact List.pairwise_cons.2 ⟨fun c hc => (h.2.mem hc).1, ih h.2⟩

theorem Tiles.apart {c : Blk} (h : Tiles a pu bs z zu) (hb : b ∈ bs) (hc : c ∈ bs) :
    b = c ∨ b.stop ≤ c.addr ∨ c.stop ≤ b.addr := by
  induction bs generalizing a pu with
  | nil => simp at hb
  | cons d bs ih =>
    have hd := (List.pairwise_cons.1 h.pairwise).1
    rcases List.mem_cons.1 hb with rfl | hb'
    · rcases List.mem_cons.1 hc with rfl | hc'
      · exact .inl rfl
      · exact .inr (.inl (hd c hc'))
    · rcases List.mem_cons.1 hc with rfl | hc'
      · exact .inr (.inr (hd b hb'))
      · exact ih h.2 hb' hc'

theorem Tiles.eq_of_addr {c : Blk} (h : Tiles a pu bs z zu) (hb : b ∈ bs) (hc : c ∈ bs)
    (he : b.addr = c.addr) : b = c := by
  have hbs := (h.mem hb).2.2.1
  have hcs := (h.mem hc).2.2.1
  rcases h.apart hb hc with heq | hlt | hlt
  · exact heq
  · rw [Blk.stop] at hlt; omega
  · rw [Blk.stop] at hlt; omega

theorem mem_middle {c : Blk} (hc : c ∈ L ++ R) : c ∈ L ++ b :: R :=
  ((List.sublist_cons_self b R).append_left L).mem hc

theorem Tiles.addr_ne {c : Blk} (h : Tiles a pu (L ++ b :: R) z zu) (hc : c ∈ L ++ R) :
    c.addr ≠ b.addr := by
  have hbs := (h.mem (b := b) (by simp)).2.2.1
  obtain ⟨hL, hR, hLR⟩ := List.pairwise_append.1 h.pairwise
  rcases List.mem_append.1 hc with hc | hc
  · have hcs := (h.mem (b := c) (by simp [hc])).2.2.1
    have hcb := hLR c hc b (by simp)
    rw [Blk.stop] at hcb
    omega
  · have hbc := (List.pairwise_cons.1 hR).1 c hc
    rw [Blk.stop] at hbc
    omega

/-! ### Changing the flag for the predecessor -/

/-- Set the `PREV_BLOCK_USED` flag of the first block. -/
def setPrev (u : Bool) : List Blk → List Blk
  | [] => []
  | b :: bs => { b with prevUsed := u } :: bs

/-- The flag of the epilogue after `setPrev`: the epilogue is what follows an empty list. -/
def endPrev (u zu : Bool) : List Blk → Bool
  | [] => u
  | _ :: _ => zu

/-- The header word that follows, with the given flag for the predecessor. -/
def nextTag (u : Bool) : List Blk → Nat
  | [] => epilogue u
  | b :: _ => { b with prevUsed := u : Blk }.tag

theorem Tiles.setPrev (h : Tiles c cu bs z zu) : Tiles c u (setPrev u bs) z (endPrev u zu bs) := by
  cases bs with
  | nil => exact ⟨h.1, rfl⟩
  | cons b bs => exact ⟨⟨h.1.1, rfl, h.1.2.2⟩, h.2⟩

theorem Tiles.setPrev_self (h : Tiles c cu bs z zu) :
    JinxOS.setPrev cu bs = bs ∧ endPrev cu zu bs = zu := by
  cases bs with
  | nil => exact ⟨rfl, h.2⟩
  | cons b bs =>
    obtain ⟨⟨-, hpu, -⟩, -⟩ := h
    subst hpu
    exact ⟨rfl, rfl⟩

theorem mem_setPrev (hb : b ∈ bs) :
    ∃ b' ∈ setPrev u bs, b'.addr = b.addr ∧ b'.size = b.size ∧ b'.used = b.used := by
  cases bs with
  | nil => simp at hb
  | cons c bs =>
    rcases List.mem_cons.1 hb with rfl | hb
    · exact ⟨_, List.mem_cons_self, rfl, rfl, rfl⟩
    · exact ⟨b, List.mem_cons_of_mem _ hb, rfl, rfl, rfl⟩

theorem of_mem_setPrev {b' : Blk} (hb : b' ∈ setPrev u bs) :
    ∃ b ∈ bs, b'.addr = b.addr ∧ b'.size = b.size ∧ b'.used = b.used := by
  cases bs with
  | nil => simp [setPrev] at hb
  | cons c bs =>
    rcases List.mem_cons.1 hb with rfl | hb
    · exact ⟨c, List.mem_cons_self, rfl, rfl, rfl⟩
    · exact ⟨b', List.mem_cons_of_mem _ hb, rfl, rfl, rfl⟩

/-! ## Header words -/

theorem Blk.flags_lt (b : Blk) : b.used.toNat + 2 * b.prevUsed.toNat < 4 := by
  have hu := Bool.toNat_lt b.used
  have hp := Bool.toNat_lt b.prevUsed
  omega

theorem SIZE_eq {r : Nat} (hn : n % 4 = 0) (hr : r < 4) (h : n + r < 2 ^ 32) :
    SIZE (n + r) = n := by
  rw [SIZE, show 0xFFFFFFFC = 2 ^ 32 - 2 ^ 2 from rfl, Word.and_mask h (by decide)]
  omega

theorem Blk.SIZE_tag (hmod : b.size % 4 = 0) (h : b.size + 4 ≤ 2 ^ 32) : SIZE b.tag = b.size :=
  SIZE_eq hmod b.flags_lt (by have := b.flags_lt; omega)

theorem Blk.tag_lt (h : b.size + 4 ≤ 2 ^ 32) : b.tag < 2 ^ 32 := by
  have := b.flags_lt
  rw [Blk.tag]
  omega

section
variable (hmod : b.size % 4 = 0)
include hmod

theorem Blk.tag_and_one : b.tag &&& 1 = b.used.toNat := by
  rw [Blk.tag, Word.and_flags hmod b.flags_lt (by omega)]
  cases b.used <;> cases b.prevUsed <;> rfl

theorem Blk.tag_or_two : b.tag ||| 2 = { b with prevUsed := true : Blk }.tag := by
  rw [Blk.tag, Word.or_flags hmod b.flags_lt (by omega), Blk.tag]
  cases b.used <;> cases b.prevUsed <;> rfl

theorem Blk.tag_xor_two (hprev : b.prevUsed = true) :
    b.tag ^^^ 2 = { b with prevUsed := false : Blk }.tag := by
  rw [Blk.tag, Word.xor_flags hmod b.flags_lt (by omega), Blk.tag, hprev]
  cases b.used <;> rfl

theorem Blk.tag_and_two : b.tag &&& 2 = 2 * b.prevUsed.toNat := by
  rw [Blk.tag, Word.and_flags hmod b.flags_lt (by omega)]
  cases b.used <;> cases b.prevUsed <;> rfl

end

theorem Blk.tag_of_flags {k : Nat} (hmod : k % 4 = 0) (a : Nat) (pu : Bool) :
    k ||| 1 ||| 2 * pu.toNat = (⟨a, k, true, pu⟩ : Blk).tag := by
  rw [Word.or_flag hmod (by omega), Word.or_flags hmod (by omega) (by cases pu <;> decide), Blk.tag]
  cases pu <;> rfl

/-! ## Memory that represents a heap -/

/-- Memory `m` holds the heap `[lo, hi)` with the blocks `bs`, the flag `zu` in its epilogue, and
the free list `fl`. -/
structure HeapRep (m : ByteMem) (lo hi : Nat) (bs : List Blk) (zu : Bool) (fl : List Nat) :
    Prop where
  pos : 0 < lo
  lo_mod : lo % 4 = 0
  hi_lt : hi < 2 ^ 32
  /-- The blocks tile the heap between the head of the free list and the epilogue. -/
  tiles : Tiles (lo + 4) true bs (hi - 4) zu
  header : ∀ b ∈ bs, m.load b.addr = b.tag
  footer : ∀ b ∈ bs, b.used = false → SIZE (m.load (b.stop - 4)) = b.size
  epilogue : m.load (hi - 4) = JinxOS.epilogue zu
  list : FreeList m lo fl
  nodup : fl.Nodup
  free : ∀ x ∈ fl, ∃ b ∈ bs, b.used = false ∧ b.addr = x

theorem HeapRep.mem (h : HeapRep m lo hi bs zu fl) (hb : b ∈ bs) :
    lo + 4 ≤ b.addr ∧ b.addr + b.size + 4 ≤ hi ∧ 16 ≤ b.size ∧ b.size % 4 = 0 ∧
      b.addr % 4 = 0 := by
  obtain ⟨h1, h2, h3⟩ := h.tiles.bounds hb
  obtain ⟨-, -, -, h4, h5⟩ := h.tiles.mem hb
  have hlo := h.lo_mod
  exact ⟨h1, by omega, h3, h4, by omega⟩

theorem HeapRep.read (h : HeapRep m lo hi bs zu fl) (hb : b ∈ bs) :
    SIZE (m.load b.addr) = b.size ∧ blockIsUsed m b.addr = b.used.toNat ∧
      prevBlockIsUsed m b.addr = 2 * b.prevUsed.toNat := by
  obtain ⟨-, hstop, -, hmod, -⟩ := h.mem hb
  have hhi := h.hi_lt
  rw [blockIsUsed, prevBlockIsUsed, h.header b hb]
  exact ⟨Blk.SIZE_tag hmod (by omega), Blk.tag_and_one hmod, Blk.tag_and_two hmod⟩

/-- Free blocks are far enough apart for the functions on the free list. -/
theorem HeapRep.spaced (h : HeapRep m lo hi bs zu fl)
    (hN : ∀ x ∈ N, ∃ b ∈ bs, b.used = false ∧ b.addr = x) : Spaced lo N := by
  have hhi := h.hi_lt
  refine ⟨h.lo_mod, ?_, ?_, ?_, ?_⟩
  · rintro x hx
    obtain ⟨b, hb, -, rfl⟩ := hN x hx
    exact (h.mem hb).2.2.2.2
  · rintro x hx
    obtain ⟨b, hb, -, rfl⟩ := hN x hx
    exact (h.mem hb).1
  · rintro x hx
    obtain ⟨b, hb, -, rfl⟩ := hN x hx
    obtain ⟨-, h2, h3, -⟩ := h.mem hb
    omega
  · rintro x hx y hy hne
    obtain ⟨b, hb, -, rfl⟩ := hN x hx
    obtain ⟨c, hc, -, rfl⟩ := hN y hy
    have hbs := (h.mem hb).2.2.1
    have hcs := (h.mem hc).2.2.1
    rcases h.tiles.apart hb hc with rfl | hlt | hlt
    · exact absurd rfl hne
    · rw [Blk.stop] at hlt; omega
    · rw [Blk.stop] at hlt; omega

/-- The bytes behind the headers of used blocks, which belong to the clients. -/
def Payload (bs : List Blk) (y : Nat) : Prop :=
  ∃ b ∈ bs, b.used = true ∧ b.addr + 4 ≤ y ∧ y < b.stop

section
variable (h : HeapRep m lo hi bs zu fl)
include h

section
variable (hlinks : LinksOnly lo N m m') (hN : ∀ x ∈ N, ∃ b ∈ bs, b.used = false ∧ b.addr = x)
include hlinks hN

theorem LinksOnly.payload : ∀ y, Payload bs y → m' y = m y := by
  rintro y ⟨b, hb, hused, hy, hy'⟩
  have hba := (h.mem hb).1
  refine hlinks y (.inr (by omega)) ?_
  intro x hx
  obtain ⟨c, hc, hfree, rfl⟩ := hN x hx
  have hcs := (h.mem hc).2.2.1
  rcases h.tiles.apart hb hc with rfl | hlt | hlt
  · rw [hused] at hfree; cases hfree
  · left; omega
  · rw [Blk.stop] at hlt; right; omega

/-- **Only the links change.**  If two memories differ in links of free blocks only, the blocks
stay as they are. -/
theorem HeapRep.relink (hlist : FreeList m' lo fl')
    (hnodup : fl'.Nodup) (hfl : ∀ x ∈ fl', x ∈ N) : HeapRep m' lo hi bs zu fl' := by
  -- a word that is neither the head pointer nor a link of a free block is kept
  have hkeep : ∀ a, lo + 4 ≤ a →
      (∀ c ∈ bs, c.used = false → a + 4 ≤ c.addr + 4 ∨ c.addr + 12 ≤ a) → m'.load a = m.load a := by
    intro a ha hc
    refine load_congr fun y hy hy' => hlinks y (.inr (by omega)) ?_
    intro x hx
    obtain ⟨c, hcm, hcf, rfl⟩ := hN x hx
    have := hc c hcm hcf
    omega
  refine ⟨h.pos, h.lo_mod, h.hi_lt, h.tiles, ?_, ?_, ?_, hlist, hnodup, fun x hx => hN x (hfl x hx)⟩
  · intro b hb
    rw [hkeep b.addr (h.mem hb).1 ?_, h.header b hb]
    intro c hc _
    have hcs := (h.mem hc).2.2.1
    have hbs := (h.mem hb).2.2.1
    rcases h.tiles.apart hb hc with rfl | hlt | hlt
    · omega
    · rw [Blk.stop] at hlt; omega
    · rw [Blk.stop] at hlt; omega
  · intro b hb hfree
    obtain ⟨hba, -, hbs, -⟩ := h.mem hb
    rw [hkeep (b.stop - 4) (by rw [Blk.stop]; omega) ?_, h.footer b hb hfree]
    intro c hc _
    have hcs := (h.mem hc).2.2.1
    rcases h.tiles.apart hb hc with rfl | hlt | hlt
    · rw [Blk.stop]; omega
    · rw [Blk.stop] at hlt ⊢; omega
    · rw [Blk.stop] at hlt ⊢; omega
  · rw [hkeep (hi - 4) h.tiles.le ?_, h.epilogue]
    intro c hc _
    obtain ⟨-, hch, hcs, -⟩ := h.mem hc
    omega

end

theorem HeapRep.insert (hb : b ∈ bs) (hfree : b.used = false)
    (hnew : b.addr ∉ fl) : HeapRep (insertFreeBlock lo m b.addr) lo hi bs zu (b.addr :: fl) ∧
      ∀ y, Payload bs y → insertFreeBlock lo m b.addr y = m y := by
  have hN : ∀ x ∈ b.addr :: fl, ∃ b ∈ bs, b.used = false ∧ b.addr = x := by
    intro x hx
    rcases List.mem_cons.1 hx with rfl | hx
    · exact ⟨b, hb, hfree, rfl⟩
    · exact h.free x hx
  have hsp := h.spaced hN
  have hlinks := insertFreeBlock_linksOnly h.list hsp
  exact ⟨h.relink hlinks hN (h.list.insert hsp hnew h.nodup) (List.nodup_cons.2 ⟨hnew, h.nodup⟩)
    fun _ hx => hx, hlinks.payload h hN⟩

theorem HeapRep.remove (hx : x ∈ fl) : HeapRep (removeFreeBlock lo m x) lo hi bs zu (fl.erase x) ∧
      ∀ y, Payload bs y → removeFreeBlock lo m x y = m y := by
  have hsp := h.spaced h.free
  have hlinks := removeFreeBlock_linksOnly h.list hsp hx
  exact ⟨h.relink hlinks h.free (h.list.remove hsp h.nodup hx) (h.nodup.erase x)
    fun _ hy => List.mem_of_mem_erase hy, hlinks.payload h h.free⟩

end

/-! ### Flags that stay clear

A word that was the header of a block keeps its place inside a larger free block.  What matters
about such a word is that it does not read as the header of a used block. -/

/-- Where `m` has no `BLOCK_USED` flag, `m'` has none, in all words but the head pointer and the
links of the blocks. -/
def KeepsClear (bs : List Blk) (lo : Nat) (m m' : ByteMem) : Prop :=
  ∀ w, w % 4 = 0 → lo + 4 ≤ w → (∀ c ∈ bs, w ≠ c.addr + 4 ∧ w ≠ c.addr + 8) →
    blockIsUsed m w = 0 → blockIsUsed m' w = 0

theorem KeepsClear.refl (bs : List Blk) (lo : Nat) (m : ByteMem) : KeepsClear bs lo m m :=
  fun _ _ _ _ h => h

theorem KeepsClear.trans (h1 : KeepsClear bs lo m m₁) (h2 : KeepsClear bs lo m₁ m₂) :
    KeepsClear bs lo m m₂ :=
  fun w hw hlo hlinks h => h2 w hw hlo hlinks (h1 w hw hlo hlinks h)

theorem KeepsClear.mono (h : KeepsClear bs lo m m') (hsub : ∀ c ∈ bs, ∃ d ∈ bs', d.addr = c.addr) :
    KeepsClear bs' lo m m' := by
  intro w hw hlo hlinks
  refine h w hw hlo fun c hc => ?_
  obtain ⟨d, hd, he⟩ := hsub c hc
  exact he ▸ hlinks d hd

theorem KeepsClear.store {v : Nat} (m : ByteMem) (ha : a % 4 = 0) (hv : v < 2 ^ 32)
    (hflag : v &&& 1 = 0) : KeepsClear bs lo m (m.store a v) := by
  intro w hw _ _ h
  rw [blockIsUsed, load_store ha hw hv]
  split
  · exact hflag
  · exact h

theorem LinksOnly.keepsClear (h : HeapRep m lo hi bs zu fl) (hlinks : LinksOnly lo N m m')
    (hN : ∀ x ∈ N, ∃ b ∈ bs, b.used = false ∧ b.addr = x) : KeepsClear bs lo m m' := by
  intro w hw hlo hne hclear
  have hload : m'.load w = m.load w := by
    refine load_congr fun y hy hy' => hlinks y (.inr (by omega)) fun x hx => ?_
    obtain ⟨b, hb, -, rfl⟩ := hN x hx
    have hmod := (h.mem hb).2.2.2.2
    have := hne b hb
    omega
  rw [blockIsUsed, hload]
  exact hclear

theorem HeapRep.insert_clear (h : HeapRep m lo hi bs zu fl) (hb : b ∈ bs) (hfree : b.used = false) :
    KeepsClear bs lo m (insertFreeBlock lo m b.addr) := by
  have hN : ∀ x ∈ b.addr :: fl, ∃ b ∈ bs, b.used = false ∧ b.addr = x := by
    intro x hx
    rcases List.mem_cons.1 hx with rfl | hx
    · exact ⟨b, hb, hfree, rfl⟩
    · exact h.free x hx
  exact (insertFreeBlock_linksOnly h.list (h.spaced hN)).keepsClear h hN

theorem HeapRep.remove_clear (h : HeapRep m lo hi bs zu fl) (hx : x ∈ fl) :
    KeepsClear bs lo m (removeFreeBlock lo m x) :=
  (removeFreeBlock_linksOnly h.list (h.spaced h.free) hx).keepsClear h h.free

/-- Clients own nothing between `L` and `R`, nor the header at the start of `R`. -/
theorem Payload.outside {su : Bool} (h : Payload (L ++ R) y) (hL : Tiles a pu L s su)
    (hR : Tiles e eu R z zu) : y < s ∨ e + 4 ≤ y := by
  obtain ⟨b, hb, -, hy, hy'⟩ := h
  rcases List.mem_append.1 hb with hb | hb
  · have := (hL.mem hb).2.1
    omega
  · have := (hR.mem hb).1
    omega

theorem HeapRep.next (h : HeapRep m lo hi (L ++ R) zu fl) (hR : Tiles e eu R (hi - 4) zu) :
    m.load e = nextTag eu R := by
  cases R with
  | nil =>
    obtain ⟨rfl, rfl⟩ := hR
    exact h.epilogue
  | cons c R =>
    obtain ⟨⟨rfl, rfl, -⟩, -⟩ := hR
    exact h.header c (by simp)

theorem nextTag_and_one (hR : Tiles e eu R z zu) (hused : ∀ r ∈ R.head?, r.used = true) :
    nextTag u R &&& 1 = 1 := by
  cases R with
  | nil => cases u <;> rfl
  | cons c R =>
    have hand : { c with prevUsed := u : Blk }.tag &&& 1 = c.used.toNat :=
      Blk.tag_and_one hR.1.2.2.2
    rw [nextTag, hand, hused c rfl, Bool.toNat_true]

/-- The flag of a header does not depend on the flag for its predecessor. -/
theorem nextTag_flag {u' : Bool} (hR : Tiles e eu R z zu) :
    nextTag u R &&& 1 = nextTag u' R &&& 1 := by
  cases R with
  | nil => cases u <;> cases u' <;> rfl
  | cons c R =>
    have hand : ∀ v : Bool, { c with prevUsed := v : Blk }.tag &&& 1 = c.used.toNat := fun v =>
      Blk.tag_and_one hR.1.2.2.2
    rw [nextTag, nextTag, hand, hand]

theorem nextTag_or_two (hR : Tiles e eu R z zu) : nextTag u R ||| 2 = nextTag true R := by
  cases R with
  | nil => cases u <;> rfl
  | cons c R => exact Blk.tag_or_two hR.1.2.2.2

theorem nextTag_xor_two (hR : Tiles e eu R z zu) : nextTag true R ^^^ 2 = nextTag false R := by
  cases R with
  | nil => rfl
  | cons c R => exact Blk.tag_xor_two hR.1.2.2.2 rfl

/-! ## Replacing a run of blocks

The blocks are `L ++ (seg ++ R)`, and `seg` occupies `[s, e)`. -/

/-- The list is the same in memories that agree on the head pointer and the links. -/
theorem FreeList.congr (h : FreeList m lo fl) (hlo : m'.load lo = m.load lo)
    (hlinks : ∀ x ∈ fl, m'.load (x + 4) = m.load (x + 4) ∧ m'.load (x + 8) = m.load (x + 8)) :
    FreeList m' lo fl := by
  rw [FreeList, hlo]
  refine NullList.congr h ?_ ?_
  · intro x hx
    rw [nextOf, nextOf, (hlinks x hx).1]
  · intro x hx
    rw [prevOf, prevOf, (hlinks x (List.mem_of_mem_tail hx)).2]

/-- The blocks behind a run, after the flag of the first one has been rewritten. -/
theorem header_setPrev (hR : Tiles e eu R z zu) (hheader : ∀ b ∈ R, m.load b.addr = b.tag)
    (hout : ∀ y, e + 4 ≤ y → m' y = m y) (hnext : m'.load e = nextTag u R) :
    ∀ b ∈ setPrev u R, m'.load b.addr = b.tag := by
  cases R with
  | nil => intro b hb; simp [setPrev] at hb
  | cons c R =>
    obtain ⟨⟨haddr, -, hsize, -⟩, hrest⟩ := hR
    intro b hb
    rcases List.mem_cons.1 hb with rfl | hb
    · exact haddr ▸ hnext
    · have hba := (hrest.mem hb).1
      rw [Blk.stop] at hba
      rw [load_congr fun y hy _ => hout y (by omega)]
      exact hheader b (List.mem_cons_of_mem _ hb)

theorem footer_setPrev (hR : Tiles e eu R z zu)
    (hfooter : ∀ b ∈ R, b.used = false → SIZE (m.load (b.stop - 4)) = b.size)
    (hout : ∀ y, e + 4 ≤ y → m' y = m y) :
    ∀ b ∈ setPrev u R, b.used = false → SIZE (m'.load (b.stop - 4)) = b.size := by
  -- the footer does not depend on the flag
  have hkeep : ∀ b ∈ R, b.used = false → SIZE (m'.load (b.stop - 4)) = b.size := by
    intro b hb hfree
    obtain ⟨hba, -, hbs, -⟩ := hR.mem hb
    rw [load_congr fun y hy _ => hout y (by rw [Blk.stop] at hy; omega)]
    exact hfooter b hb hfree
  cases R with
  | nil => intro b hb; simp [setPrev] at hb
  | cons c R =>
    intro b hb
    rcases List.mem_cons.1 hb with rfl | hb
    · exact hkeep c List.mem_cons_self
    · exact hkeep b (List.mem_cons_of_mem _ hb)

/-- **Some blocks are replaced.**  The blocks `seg` are replaced by `seg'` over the same addresses.
The memory may change between the start of the first one and the end of the header behind the
last one; the new headers and footers are there, and none of `seg` was on the free list. -/
theorem HeapRep.retile {eu' : Bool} (h : HeapRep m lo hi (L ++ (seg ++ R)) zu fl)
    (hL : Tiles (lo + 4) true L s pu) (hseg' : Tiles s pu seg' e eu')
    (hR : Tiles e eu R (hi - 4) zu) (hfl : ∀ x ∈ fl, ∃ b ∈ L ++ R, b.used = false ∧ b.addr = x)
    (hout : ∀ y, y < s ∨ e + 4 ≤ y → m' y = m y) (hheader : ∀ b ∈ seg', m'.load b.addr = b.tag)
    (hfooter : ∀ b ∈ seg', b.used = false → SIZE (m'.load (b.stop - 4)) = b.size)
    (hnext : m'.load e = nextTag eu' R) :
    HeapRep m' lo hi (L ++ (seg' ++ setPrev eu' R)) (endPrev eu' zu R) fl := by
  have hinL : ∀ b ∈ L, b ∈ L ++ (seg ++ R) := fun b hb => List.mem_append_left _ hb
  have hinR : ∀ b ∈ R, b ∈ L ++ (seg ++ R) := fun b hb =>
    List.mem_append_right _ (List.mem_append_right _ hb)
  have hbefore : ∀ a, a + 4 ≤ s → m'.load a = m.load a := fun a ha =>
    load_congr fun y _ _ => hout y (.inl (by omega))
  have hbehind : ∀ a, e + 4 ≤ a → m'.load a = m.load a := fun a ha =>
    load_congr fun y _ _ => hout y (.inr (by omega))
  have hls := hL.le
  have hsplit : ∀ b ∈ L ++ (seg' ++ setPrev eu' R), b ∈ L ∨ b ∈ seg' ∨ b ∈ setPrev eu' R :=
    fun b hb => by simpa using hb
  refine ⟨h.pos, h.lo_mod, h.hi_lt, ?_, ?_, ?_, ?_, ?_, h.nodup, ?_⟩
  · exact tiles_append.2 ⟨s, pu, hL, tiles_append.2 ⟨e, eu', hseg', hR.setPrev⟩⟩
  · intro b hb
    rcases hsplit b hb with hb | hb | hb
    · obtain ⟨-, hstop, hsize, -⟩ := hL.mem hb
      rw [hbefore b.addr (by rw [Blk.stop] at hstop; omega)]
      exact h.header b (hinL b hb)
    · exact hheader b hb
    · exact header_setPrev hR (fun c hc => h.header c (hinR c hc)) (fun y hy => hout y (.inr hy))
        hnext b hb
  · intro b hb hfree
    rcases hsplit b hb with hb | hb | hb
    · obtain ⟨-, hstop, hsize, -⟩ := hL.mem hb
      rw [hbefore (b.stop - 4) (by rw [Blk.stop] at hstop ⊢; omega)]
      exact h.footer b (hinL b hb) hfree
    · exact hfooter b hb hfree
    · exact footer_setPrev hR (fun c hc => h.footer c (hinR c hc))
        (fun y hy => hout y (.inr hy)) b hb hfree
  · cases R with
    | nil =>
      obtain ⟨rfl, -⟩ := hR
      exact hnext
    | cons c R =>
      have hc := hR.mem List.mem_cons_self
      rw [hbehind (hi - 4) (by rw [Blk.stop] at hc; omega)]
      exact h.epilogue
  · refine h.list.congr (hbefore lo hls) ?_
    intro x hx
    obtain ⟨b, hb, -, rfl⟩ := hfl x hx
    rcases List.mem_append.1 hb with hb | hb
    · obtain ⟨-, hstop, hsize, -⟩ := hL.mem hb
      rw [Blk.stop] at hstop
      exact ⟨hbefore _ (by omega), hbefore _ (by omega)⟩
    · have hba := (hR.mem hb).1
      exact ⟨hbehind _ (by omega), hbehind _ (by omega)⟩
  · intro x hx
    obtain ⟨b, hb, hfree, rfl⟩ := hfl x hx
    rcases List.mem_append.1 hb with hb | hb
    · exact ⟨b, List.mem_append_left _ hb, hfree, rfl⟩
    · obtain ⟨b', hb', haddr, -, hused⟩ := mem_setPrev hb
      exact ⟨b', List.mem_append_right _ (List.mem_append_right _ hb'), hused.trans hfree, haddr⟩

/-! ## Growing the heap -/

/-- **A block is added at the end.**  Its header takes the place of the old epilogue. -/
theorem HeapRep.extend (h : HeapRep m lo hi bs zu fl) (hn : 16 ≤ n) (hmod : n % 4 = 0)
    (hfit : hi + n < 2 ^ 32) (hout : ∀ y, y < hi - 4 → m' y = m y)
    (hheader : m'.load (hi - 4) = n + 2 * zu.toNat) (hfooter : SIZE (m'.load (hi + n - 8)) = n)
    (hepilogue : m'.load (hi + n - 4) = JinxOS.epilogue false) :
    HeapRep m' lo (hi + n) (bs ++ [⟨hi - 4, n, false, zu⟩]) false fl := by
  have hle := h.tiles.le
  have hkeep : ∀ a, a + 4 ≤ hi - 4 → m'.load a = m.load a := fun a ha =>
    load_congr fun y _ _ => hout y (by omega)
  have hstop : (⟨hi - 4, n, false, zu⟩ : Blk).stop = hi + n - 4 := by
    simp only [Blk.stop]
    omega
  refine ⟨h.pos, h.lo_mod, hfit, ?_, ?_, ?_, hepilogue, ?_, h.nodup, ?_⟩
  · exact tiles_append.2 ⟨_, _, h.tiles, ⟨rfl, rfl, hn, hmod⟩, hstop, rfl⟩
  · intro b hb
    rcases List.mem_append.1 hb with hb | hb
    · obtain ⟨-, hbhi, hbs, -⟩ := h.mem hb
      rw [hkeep b.addr (by omega), h.header b hb]
    · rw [List.mem_singleton.1 hb, hheader]
      simp [Blk.tag]
  · intro b hb hfree
    rcases List.mem_append.1 hb with hb | hb
    · obtain ⟨-, hbhi, hbs, -⟩ := h.mem hb
      rw [hkeep (b.stop - 4) (by rw [Blk.stop]; omega), h.footer b hb hfree]
    · rw [List.mem_singleton.1 hb, hstop, show hi + n - 4 - 4 = hi + n - 8 by omega, hfooter]
  · refine h.list.congr (hkeep lo hle) ?_
    intro x hx
    obtain ⟨b, hb, -, rfl⟩ := h.free x hx
    obtain ⟨-, hbhi, hbs, -⟩ := h.mem hb
    exact ⟨hkeep _ (by omega), hkeep _ (by omega)⟩
  · intro x hx
    obtain ⟨b, hb, hfree, he⟩ := h.free x hx
    exact ⟨b, List.mem_append_left _ hb, hfree, he⟩

end JinxOS
