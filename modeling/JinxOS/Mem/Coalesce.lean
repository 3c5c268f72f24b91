import JinxOS.Mem.Blocks

/-!
# Coalescing

`coalesce_free_block` takes the free neighbours of a block off the free list, first those before it
and then those behind it, and puts one block over all of them back on the list.  The two loops are
proved for any number of free neighbours: nothing in the code relies on there being at most one on
each side, and the invariant of the allocator that says so is only used by its callers.

The blocks are written `L ++ (P ++ b :: N ++ R)`: the free blocks `P` before `b` and `N` behind it
occupy, together with `b`, the addresses `[s, e)`; what stands before `s` and at `e` is used.
-/

namespace JinxOS

open List (mem_append append_assoc mem_cons_self mem_cons)

/-! ## Taking blocks off the list -/

/-- From `m` to `m'` the blocks `X` have left the free list, and nothing else has changed. -/
structure Unlisted (m m' : ByteMem) (lo hi : Nat) (bs : List Blk) (zu : Bool) (fl fl' : List Nat)
    (X : List Blk) : Prop where
  rep : HeapRep m' lo hi bs zu fl'
  mem : ∀ x, x ∈ fl' ↔ x ∈ fl ∧ ∀ c ∈ X, x ≠ c.addr
  payload : ∀ y, Payload bs y → m' y = m y
  clear : KeepsClear bs lo m m'

section
variable {m m₁ m₂ : ByteMem} {lo hi : Nat} {bs : List Blk} {zu : Bool} {fl fl₁ fl₂ : List Nat}

theorem HeapRep.unlisted_nil (h : HeapRep m lo hi bs zu fl) :
    Unlisted m m lo hi bs zu fl fl [] :=
  ⟨h, by simp, fun _ _ => rfl, KeepsClear.refl bs lo m⟩

theorem HeapRep.unlisted (h : HeapRep m lo hi bs zu fl) {b : Blk} (hb : b.addr ∈ fl) :
    Unlisted m (removeFreeBlock lo m b.addr) lo hi bs zu fl (fl.erase b.addr) [b] := by
  obtain ⟨hrep, hpay⟩ := h.remove hb
  refine ⟨hrep, ?_, hpay, h.remove_clear hb⟩
  intro x
  rw [h.nodup.mem_erase_iff]
  simp [and_comm]

theorem Unlisted.trans {X Y : List Blk} (h1 : Unlisted m m₁ lo hi bs zu fl fl₁ X)
    (h2 : Unlisted m₁ m₂ lo hi bs zu fl₁ fl₂ Y) :
    Unlisted m m₂ lo hi bs zu fl fl₂ (X ++ Y) := by
  refine ⟨h2.rep, ?_, fun y hy => (h2.payload y hy).trans (h1.payload y hy),
    h1.clear.trans h2.clear⟩
  intro x
  rw [h2.mem, h1.mem]
  simp only [mem_append, and_assoc, or_imp, forall_and]

theorem Unlisted.congr {X Y : List Blk} (h : Unlisted m m₁ lo hi bs zu fl fl₁ X)
    (hXY : ∀ c, c ∈ X ↔ c ∈ Y) : Unlisted m m₁ lo hi bs zu fl fl₁ Y :=
  ⟨h.rep, fun x => by simp only [h.mem, hXY], h.payload, h.clear⟩

end

/-! ## The loops -/

section
variable {lo hi : Nat} {zu : Bool} {L : List Blk}

/-- **The backward loop** takes the free blocks `P` before its cursor off the list and stops at
their start. -/
theorem coalescePrev_eq {s : Nat} (hL : Tiles (lo + 4) true L s true) (P : List Blk) :
    ∀ {m : ByteMem} {c : Blk} {Q : List Blk} {fl : List Nat} {fuel newSize : Nat},
      HeapRep m lo hi (L ++ (P ++ c :: Q)) zu fl → (∀ p ∈ P, p.used = false ∧ p.addr ∈ fl) →
      P.length < fuel → newSize + (c.addr - s) < 2 ^ 32 →
      ∃ m' fl', coalescePrev lo fuel m c.addr newSize = .ok (m', s, newSize + (c.addr - s)) ∧
        Unlisted m m' lo hi (L ++ (P ++ c :: Q)) zu fl fl' P := by
  induction P using List.reverseRecOn with
  | nil =>
    intro m c Q fl fuel newSize h _ hfuel _
    obtain ⟨fuel, rfl⟩ := Nat.exists_eq_add_of_lt hfuel
    obtain ⟨⟨rfl, hpu, -⟩, -⟩ := h.tiles.rest hL
    have hread := (h.read (b := c) (by simp)).2.2
    refine ⟨m, fl, ?_, h.unlisted_nil⟩
    rw [coalescePrev, hread, hpu, if_neg (by simp)]
    simp
  | append_singleton P p ih =>
    intro m c Q fl fuel newSize h hfree hfuel hsize
    obtain ⟨fuel, rfl⟩ := Nat.exists_eq_succ_of_ne_zero (Nat.ne_zero_of_lt hfuel)
    rw [append_assoc, List.singleton_append] at h ⊢
    rw [List.length_append, List.length_singleton] at hfuel
    obtain ⟨hpfree, hpfl⟩ := hfree p (by simp)
    have hcmem : c ∈ L ++ (P ++ p :: c :: Q) := by simp
    have hpmem : p ∈ L ++ (P ++ p :: c :: Q) := by simp
    -- the cursor's block knows that `p` is free, and the word before it is the footer of `p`
    have htiles := h.tiles
    rw [← append_assoc] at htiles
    obtain ⟨hcaddr, hcprev⟩ := htiles.next
    have hsp : s ≤ p.addr := ((h.tiles.rest hL).mem (by simp)).1
    have hfooter := h.footer p hpmem hpfree
    obtain ⟨-, hphi, hpsize, -⟩ := h.mem hpmem
    have hhi := h.hi_lt
    rw [Blk.stop] at hcaddr hfooter
    have hsub4 : Word.sub c.addr 4 = p.addr + p.size - 4 := by
      rw [Word.sub_eq, hcaddr]
    have hsub : Word.sub c.addr p.size = p.addr := by
      rw [Word.sub_eq]
      omega
    have hadd : Word.add newSize p.size = newSize + p.size := Word.add_eq
    have hstep := h.unlisted hpfl
    have hrest : ∀ q ∈ P, q.used = false ∧ q.addr ∈ fl.erase p.addr := by
      intro q hq
      refine ⟨(hfree q (by simp [hq])).1, (hstep.mem _).2 ⟨(hfree q (by simp [hq])).2, ?_⟩⟩
      rintro r hr
      obtain rfl : r = p := by simpa using hr
      have hqr := (List.pairwise_append.1 (h.tiles.rest hL).pairwise).2.2 q hq r (by simp)
      have hqs := ((h.tiles.rest hL).mem (b := q) (by simp [hq])).2.2.1
      rw [Blk.stop] at hqr
      omega
    obtain ⟨m', fl', hrun, hun⟩ := ih hstep.rep hrest (by omega : P.length < fuel)
      (by omega : newSize + p.size + (p.addr - s) < 2 ^ 32)
    refine ⟨m', fl', ?_, (hstep.trans hun).congr (by simp [or_comm])⟩
    rw [coalescePrev, (h.read hcmem).2.2, hcprev, hpfree, Bool.toNat_false, Nat.mul_zero,
      if_pos rfl]
    simp only [hsub4, hfooter, hsub, hadd, hrun]
    have : newSize + p.size + (p.addr - s) = newSize + (c.addr - s) := by omega
    rw [this]

/-- **The forward loop** takes the free blocks `N` at its cursor off the list and stops at their
end. -/
theorem coalesceNext_eq {e : Nat} {R : List Blk} {eu : Bool} (hR : Tiles e eu R (hi - 4) zu)
    (hused : ∀ r ∈ R.head?, r.used = true) (N : List Blk) :
    ∀ {m : ByteMem} {L : List Blk} {cursor : Nat} {cu : Bool} {fl : List Nat} {fuel newSize : Nat},
      HeapRep m lo hi (L ++ (N ++ R)) zu fl → Tiles cursor cu N e eu →
      (∀ p ∈ N, p.used = false ∧ p.addr ∈ fl) → N.length < fuel →
      newSize + (e - cursor) < 2 ^ 32 →
      ∃ m' fl', coalesceNext lo fuel m cursor newSize = .ok (m', e, newSize + (e - cursor)) ∧
        Unlisted m m' lo hi (L ++ (N ++ R)) zu fl fl' N := by
  induction N with
  | nil =>
    intro m L cursor cu fl fuel newSize h hN _ hfuel _
    obtain ⟨fuel, rfl⟩ := Nat.exists_eq_add_of_lt hfuel
    obtain ⟨rfl, rfl⟩ := hN
    refine ⟨m, fl, ?_, h.unlisted_nil⟩
    have hnext : m.load cursor = nextTag cu R := HeapRep.next h hR
    rw [coalesceNext, blockIsUsed, hnext, nextTag_and_one hR hused, if_neg (by omega)]
    simp
  | cons n N ih =>
    intro m L cursor cu fl fuel newSize h hN hfree hfuel hsize
    obtain ⟨fuel, rfl⟩ := Nat.exists_eq_succ_of_ne_zero (Nat.ne_zero_of_lt hfuel)
    rw [List.length_cons] at hfuel
    obtain ⟨⟨rfl, -, -⟩, hN'⟩ := hN
    have hnmem : n ∈ L ++ (n :: N ++ R) := by simp
    obtain ⟨hnfree, hnfl⟩ := hfree n mem_cons_self
    obtain ⟨hnsize, hnused, -⟩ := h.read hnmem
    obtain ⟨-, hnhi, -⟩ := h.mem hnmem
    have hhi := h.hi_lt
    have hle := hN'.le
    rw [Blk.stop] at hle
    have hstep := h.unlisted hnfl
    have hrest : ∀ q ∈ N, q.used = false ∧ q.addr ∈ fl.erase n.addr := by
      intro q hq
      refine ⟨(hfree q (by simp [hq])).1, (hstep.mem _).2 ⟨(hfree q (by simp [hq])).2, ?_⟩⟩
      rintro r hr
      obtain rfl : r = n := by simpa using hr
      have hq := (hN'.mem hq).1
      have hsize := (h.mem hnmem).2.2.1
      rw [Blk.stop] at hq
      omega
    have hrep : HeapRep (removeFreeBlock lo m n.addr) lo hi ((L ++ [n]) ++ (N ++ R)) zu
        (fl.erase n.addr) := by
      simpa using hstep.rep
    obtain ⟨m', fl', hrun, hun⟩ := ih hrep hN' hrest (by omega : N.length < fuel)
      (by rw [Blk.stop]; omega : newSize + n.size + (e - n.stop) < 2 ^ 32)
    have hun' : Unlisted (removeFreeBlock lo m n.addr) m' lo hi (L ++ (n :: N ++ R)) zu
        (fl.erase n.addr) fl' N := by
      simpa using hun
    refine ⟨m', fl', ?_, hstep.trans hun'⟩
    rw [Blk.stop] at hrun
    rw [coalesceNext, hnused, hnfree, Bool.toNat_false, if_pos rfl]
    simp only [hnsize]
    rw [Word.add_eq, Word.add_eq, hrun]
    have : newSize + n.size + (e - (n.addr + n.size)) = newSize + (e - n.addr) := by omega
    rw [this]

end

/-! ## The function -/

/-- `coalesce_free_block` on the blocks `seg` between `s` and `e`: they have become one block. -/
structure Coalesced (m m' : ByteMem) (lo hi : Nat) (L seg R : List Blk) (zu : Bool) (s e : Nat)
    (fl fl' : List Nat) : Prop where
  rep : HeapRep m' lo hi (L ++ (⟨s, e - s, false, true⟩ :: R)) zu fl'
  mem : ∀ x, x ∈ fl' ↔ x = s ∨ x ∈ fl ∧ ∀ c ∈ seg, x ≠ c.addr
  payload : ∀ y, Payload (L ++ R) y → m' y = m y
  clear : KeepsClear (L ++ (seg ++ R)) lo m m'

/-- The last part of `coalesce_free_block`: with all of `seg` off the list, one header and one
footer make a single block of it. -/
theorem HeapRep.merge {m : ByteMem} {lo hi s e : Nat} {L seg R : List Blk} {zu : Bool}
    {fl : List Nat} (h : HeapRep m lo hi (L ++ (seg ++ R)) zu fl)
    (hL : Tiles (lo + 4) true L s true) (hseg : Tiles s true seg e false) (hne : seg ≠ [])
    (hR : Tiles e false R (hi - 4) zu) (hfl : ∀ x ∈ fl, ∀ c ∈ seg, x ≠ c.addr) :
    Coalesced m
      (insertFreeBlock lo ((m.store s ((e - s) ||| 2)).store (Word.sub e 4) ((e - s) ||| 2)) s)
      lo hi L seg R zu s e fl (s :: fl) := by
  obtain ⟨c, t, rfl⟩ := List.exists_cons_of_ne_nil hne
  obtain ⟨hsa, hse, hcs⟩ := hseg.bounds mem_cons_self
  have hcaddr : c.addr = s := hseg.1.1
  have heh := hR.le
  have hhi := h.hi_lt
  have hsmod : s % 4 = 0 := by
    have := (h.mem (b := c) (by simp)).2.2.2.2
    omega
  have hemod : (e - s) % 4 = 0 := hseg.size_mod
  have htag : (e - s) ||| 2 = e - s + 2 := Word.or_flag hemod (by omega)
  rw [Word.sub_eq, htag]
  generalize hm1 : (m.store s (e - s + 2)).store (e - 4) (e - s + 2) = m₁
  have hout : ∀ y, y < s ∨ e ≤ y → m₁ y = m y := by
    intro y hy
    rw [← hm1, store_apply, store_apply]
  have hhdr : m₁.load s = e - s + 2 := by
    rw [← hm1, load_store_of_disjoint, load_store_same (by omega)]
  have hftr : m₁.load (e - 4) = e - s + 2 := by
    rw [← hm1, load_store_same (by omega)]
  let c' : Blk := ⟨s, e - s, false, true⟩
  have hstop : c'.stop = e := by simp only [c', Blk.stop]; omega
  have hc' : Tiles s true [c'] e false := ⟨⟨rfl, rfl, by simp only [c']; omega, hemod⟩, hstop, rfl⟩
  have hfree : ∀ x ∈ fl, ∃ b ∈ L ++ R, b.used = false ∧ b.addr = x := by
    intro x hx
    obtain ⟨b, hb, hfree, rfl⟩ := h.free x hx
    refine ⟨b, ?_, hfree, rfl⟩
    simp only [mem_append] at hb ⊢
    rcases hb with hb | hb | hb
    · exact .inl hb
    · exact absurd rfl (hfl b.addr hx b hb)
    · exact .inr hb
  have hnext : m₁.load e = nextTag false R := by
    rw [← append_assoc] at h
    rw [load_congr fun y hy _ => hout y (.inr hy), h.next hR]
  have hrep : HeapRep m₁ lo hi (L ++ ([c'] ++ setPrev false R)) (endPrev false zu R) fl := by
    refine h.retile hL hc' hR hfree (fun y hy => hout y (by omega)) ?_ ?_ hnext
    · intro b hb
      obtain rfl : b = c' := by simpa using hb
      exact hhdr
    · intro b hb _
      obtain rfl : b = c' := by simpa using hb
      rw [hstop, hftr]
      exact SIZE_eq hemod (by omega) (by omega)
  obtain ⟨hsp, hep⟩ := hR.setPrev_self
  rw [hsp, hep, List.singleton_append] at hrep
  obtain ⟨hins, hpay⟩ := hrep.insert (b := c') (by simp) rfl
    (fun hs => hfl s hs c mem_cons_self hcaddr.symm)
  refine ⟨hins, ?_, ?_, ?_⟩
  · intro x
    rw [mem_cons]
    exact or_congr_right ⟨fun hx => ⟨hx, hfl x hx⟩, fun hx => hx.1⟩
  · intro y hy
    have hout := hout y (by have := hy.outside hL hR; omega)
    obtain ⟨b, hb, hy⟩ := hy
    rw [hpay y ⟨b, mem_middle hb, hy⟩, hout]
  · have hflag : (e - s + 2) &&& 1 = 0 := Word.and_flags hemod (by omega) (by omega)
    have hstores : KeepsClear (L ++ (c :: t ++ R)) lo m m₁ := by
      rw [← hm1]
      exact (KeepsClear.store m hsmod (by omega) hflag).trans
        (KeepsClear.store _ (by omega) (by omega) hflag)
    refine hstores.trans ((hrep.insert_clear (b := c') (by simp) rfl).mono ?_)
    intro d hd
    simp only [mem_append, mem_cons] at hd
    rcases hd with hd | rfl | hd
    · exact ⟨d, by simp [hd], rfl⟩
    · exact ⟨c, by simp, hcaddr⟩
    · exact ⟨d, by simp [hd], rfl⟩

section
variable {m : ByteMem} {lo hi s e : Nat} {L P N R : List Blk} {b : Blk} {zu : Bool} {fl : List Nat}

theorem coalesceFreeBlock_loops (h : HeapRep m lo hi (L ++ (P ++ b :: N ++ R)) zu fl)
    (hL : Tiles (lo + 4) true L s true) (hseg : Tiles s true (P ++ b :: N) e false)
    (hR : Tiles e false R (hi - 4) zu) (hused : ∀ r ∈ R.head?, r.used = true)
    (hfree : ∀ c ∈ P ++ b :: N, c.used = false ∧ c.addr ∈ fl) :
    ∃ m₂ fl₂, coalesceFreeBlock lo m b.addr =
        (if e - s = b.size then .ok m₂
        else .ok (insertFreeBlock lo (((removeFreeBlock lo m₂ b.addr).store s ((e - s) ||| 2)).store
          (Word.sub e 4) ((e - s) ||| 2)) s)) ∧
      Unlisted m m₂ lo hi (L ++ (P ++ b :: N ++ R)) zu fl fl₂ (P ++ N) := by
  have hbmem : b ∈ L ++ (P ++ b :: N ++ R) := by simp
  obtain ⟨hsb, hbe, hbs⟩ := hseg.bounds (b := b) (by simp)
  have heh := hR.le
  have hhi := h.hi_lt
  have hlen := hseg.length_le
  rw [List.length_append, List.length_cons] at hlen
  -- the backward loop
  have h0 : HeapRep m lo hi (L ++ (P ++ b :: (N ++ R))) zu fl := by simpa using h
  obtain ⟨m₁, fl₁, hrun1, hun1⟩ := coalescePrev_eq hL P h0
    (fun p hp => hfree p (by simp [hp])) (by rw [loopFuel]; omega : P.length < loopFuel)
    (by omega : b.size + (b.addr - s) < 2 ^ 32)
  -- the forward loop, over a heap in which `P` is off the list already
  have h1 : HeapRep m₁ lo hi ((L ++ (P ++ [b])) ++ (N ++ R)) zu fl₁ := by simpa using hun1.rep
  obtain ⟨c, cu, hP, hbN⟩ := tiles_append.1 hseg
  have hN : Tiles b.stop b.used N e false := hbN.2
  have hNfree : ∀ q ∈ N, q.used = false ∧ q.addr ∈ fl₁ := by
    intro q hq
    obtain ⟨hqfree, hqfl⟩ := hfree q (by simp [hq])
    refine ⟨hqfree, (hun1.mem _).2 ⟨hqfl, ?_⟩⟩
    intro p hp he
    have hpq := (List.pairwise_append.1 hseg.pairwise).2.2 p hp q (by simp [hq])
    have hps := (hP.mem hp).2.2.1
    rw [Blk.stop] at hpq
    omega
  have hNlen : N.length < loopFuel := by rw [loopFuel]; omega
  obtain ⟨m₂, fl₂, hrun2, hun2⟩ := coalesceNext_eq hR hused N h1 hN hNfree hNlen
    (by rw [Blk.stop]; omega : b.size + (b.addr - s) + (e - b.stop) < 2 ^ 32)
  have htotal : b.size + (b.addr - s) + (e - b.stop) = e - s := by rw [Blk.stop]; omega
  rw [htotal, Blk.stop] at hrun2
  refine ⟨m₂, fl₂, ?_, ?_⟩
  · rw [coalesceFreeBlock, (h.read hbmem).1, hrun1]
    simp only [bind, Except.bind]
    rw [Word.add_eq, hrun2]
  · have hun1' : Unlisted m m₁ lo hi (L ++ (P ++ b :: N ++ R)) zu fl fl₁ P := by simpa using hun1
    exact hun1'.trans (by simpa using hun2)

/-- No neighbour is free: the block is already all that there is between `s` and `e`. -/
theorem Unlisted.coalesced_single {m₂ : ByteMem} {fl₂ : List Nat}
    (hun : Unlisted m m₂ lo hi (L ++ ([b] ++ R)) zu fl fl₂ [])
    (hseg : Tiles s true [b] e false) (hsize : e - s = b.size) (hbfl : b.addr ∈ fl) :
    Coalesced m m₂ lo hi L [b] R zu s e fl fl₂ := by
  obtain ⟨⟨hbaddr, hbprev, -⟩, -, hbused⟩ := hseg
  have hb : b = ⟨s, e - s, false, true⟩ := by
    rw [hsize, ← hbaddr, ← hbused, ← hbprev]
  have hmem := hun.mem
  simp only [List.not_mem_nil, false_implies, implies_true, and_true] at hmem
  refine ⟨?_, ?_, ?_, hun.clear⟩
  · rw [← hb]
    exact hun.rep
  · intro x
    simp only [hmem, List.mem_singleton, forall_eq]
    constructor
    · intro hx
      by_cases hxs : x = s
      · exact .inl hxs
      · exact .inr ⟨hx, by rw [hbaddr]; exact hxs⟩
    · rintro (rfl | hx)
      · exact hbaddr ▸ hbfl
      · exact hx.1
  · rintro y ⟨d, hd, hy⟩
    exact hun.payload y ⟨d, by simp only [mem_append] at hd ⊢; tauto, hy⟩

/-- Some neighbour is free: `b` is taken off the list too, and the blocks are made one. -/
theorem Unlisted.coalesced_merge {m₂ : ByteMem} {fl₂ : List Nat}
    (hun : Unlisted m m₂ lo hi (L ++ (P ++ b :: N ++ R)) zu fl fl₂ (P ++ N))
    (hL : Tiles (lo + 4) true L s true) (hseg : Tiles s true (P ++ b :: N) e false)
    (hR : Tiles e false R (hi - 4) zu) (hbfl : b.addr ∈ fl) :
    ∃ fl', Coalesced m
      (insertFreeBlock lo (((removeFreeBlock lo m₂ b.addr).store s ((e - s) ||| 2)).store
        (Word.sub e 4) ((e - s) ||| 2)) s) lo hi L (P ++ b :: N) R zu s e fl fl' := by
  have hbfl2 : b.addr ∈ fl₂ := (hun.mem _).2 ⟨hbfl, fun d hd => (hseg.addr_ne hd).symm⟩
  have hun' := (hun.trans (hun.rep.unlisted hbfl2)).congr (Y := P ++ b :: N) fun d => by
    simp only [mem_append, mem_cons, List.not_mem_nil, or_false]
    tauto
  have hmerge := hun'.rep.merge hL hseg (by simp) hR fun x hx => ((hun'.mem x).1 hx).2
  refine ⟨_, ⟨hmerge.rep, ?_, ?_, hun'.clear.trans hmerge.clear⟩⟩
  · intro x
    rw [hmerge.mem, hun'.mem]
    tauto
  · intro y hy
    rw [hmerge.payload y hy]
    obtain ⟨d, hd, hy⟩ := hy
    exact hun'.payload y ⟨d, by simp only [mem_append] at hd ⊢; tauto, hy⟩

/-- **`coalesce_free_block`** makes one block of `b` and of all its free neighbours. -/
theorem coalesceFreeBlock_eq (h : HeapRep m lo hi (L ++ (P ++ b :: N ++ R)) zu fl)
    (hL : Tiles (lo + 4) true L s true) (hseg : Tiles s true (P ++ b :: N) e false)
    (hR : Tiles e false R (hi - 4) zu) (hused : ∀ r ∈ R.head?, r.used = true)
    (hfree : ∀ c ∈ P ++ b :: N, c.used = false ∧ c.addr ∈ fl) :
    ∃ m' fl', coalesceFreeBlock lo m b.addr = .ok m' ∧
      Coalesced m m' lo hi L (P ++ b :: N) R zu s e fl fl' := by
  have hbfl := (hfree b (by simp)).2
  obtain ⟨m₂, fl₂, hrun, hun⟩ := coalesceFreeBlock_loops h hL hseg hR hused hfree
  rw [hrun]
  by_cases hsame : e - s = b.size
  · have hPN : P = [] ∧ N = [] := by
      obtain ⟨c, cu, hP, hbN⟩ := tiles_append.1 hseg
      have hN : Tiles b.stop b.used N e false := hbN.2
      have hc : b.addr = c := hbN.1.1
      have hPlen := hP.length_le
      have hNlen := hN.length_le
      rw [Blk.stop] at hNlen
      exact ⟨List.length_eq_zero_iff.1 (by omega), List.length_eq_zero_iff.1 (by omega)⟩
    obtain ⟨rfl, rfl⟩ := hPN
    exact ⟨m₂, fl₂, if_pos hsame, hun.coalesced_single hseg hsame hbfl⟩
  · obtain ⟨fl', hmerged⟩ := hun.coalesced_merge hL hseg hR hbfl
    exact ⟨_, fl', if_neg hsame, hmerged⟩

end

end JinxOS
