import JinxOS.Lib.Linked
import JinxOS.Mem.Mm

/-!
# The free list in memory

`insert_free_block`, `remove_free_block` and `find_free_block` work on a doubly linked list whose
links are words of the heap itself: `next` at offset 4 and `prev` at offset 8 of a block, the head
pointer in the first word of the heap.  `FreeList m lo fl` says that the list in memory `m` is
`fl`.  The `prev` field of the head is never written by `insert_free_block`, and `FreeList` leaves
it open, as `NullList` does.

The three functions do what their names say (`FreeList.insert`, `FreeList.remove`,
`FreeList.find`), provided the nodes involved are `Spaced`: aligned, above the head pointer, and
far enough apart for their link words not to overlap.  They write the head pointer and link words
of nodes only, which is `LinksOnly`.
-/

namespace JinxOS

open List (mem_of_mem_head? mem_cons_self mem_cons_of_mem mem_of_mem_tail append_of_mem append_assoc
    mem_append mem_cons nodup_middle)

/-! ## Words at aligned addresses -/

variable {m : ByteMem} {w n x lo : Nat} {fl l₁ l₂ : List Nat}

theorem load_store {a v : Nat} (ha : a % 4 = 0) (hw : w % 4 = 0) (hv : v < 2 ^ 32) :
    (m.store a v).load w = if w = a then v else m.load w := by
  split
  · subst w; exact load_store_same hv
  · exact load_store_of_disjoint

/-! ## The list and its nodes -/

/-- The pointer stored in a word. -/
def toPtr (n : Nat) : Option Nat := if n = 0 then none else some n

@[simp] theorem toPtr_zero : toPtr 0 = none := rfl

theorem toPtr_pos (h : 0 < n) : toPtr n = some n := if_neg (by omega)

theorem toPtr_eq_some : toPtr n = some x ↔ n = x ∧ 0 < x := by
  rw [toPtr]
  split
  · simp; omega
  · simp; omega

/-- The `next` field of a block. -/
def nextOf (m : ByteMem) (x : Nat) : Option Nat := toPtr (m.load (x + 4))

/-- The `prev` field of a block. -/
def prevOf (m : ByteMem) (x : Nat) : Option Nat := toPtr (m.load (x + 8))

/-- Following `next` from `FREE_LIST_HEAD` visits exactly the blocks of `fl`, in order, and ends in
`NULL`, and `prev` of every entry but the head is its predecessor. -/
def FreeList (m : ByteMem) (lo : Nat) (fl : List Nat) : Prop :=
  NullList (nextOf m) (prevOf m) (toPtr (m.load lo)) fl

/-- Blocks whose link words do not get in each other's way, nor in the way of the list head. -/
structure Spaced (lo : Nat) (N : List Nat) : Prop where
  lo_mod : lo % 4 = 0
  mod : ∀ x ∈ N, x % 4 = 0
  above : ∀ x ∈ N, lo + 4 ≤ x
  fits : ∀ x ∈ N, x + 12 < 2 ^ 32
  apart : ∀ x ∈ N, ∀ y ∈ N, x ≠ y → x + 12 ≤ y ∨ y + 12 ≤ x

/-- The two memories differ at most in the head pointer and in the link words of `N`. -/
def LinksOnly (lo : Nat) (N : List Nat) (m m' : ByteMem) : Prop :=
  ∀ y, (y < lo ∨ lo + 4 ≤ y) → (∀ x ∈ N, y < x + 4 ∨ x + 12 ≤ y) → m' y = m y

/-! ## `insert_free_block` -/

section
variable (h : FreeList m lo fl)
include h

theorem FreeList.head_mem (h0 : m.load lo ≠ 0) : m.load lo ∈ fl ∧ fl.head? = some (m.load lo) := by
  have hhead := h.head_eq
  rw [toPtr_pos (Nat.pos_of_ne_zero h0)] at hhead
  exact ⟨mem_of_mem_head? hhead.symm, hhead.symm⟩

theorem insertFreeBlock_linksOnly (hsp : Spaced lo (x :: fl)) :
    LinksOnly lo (x :: fl) m (insertFreeBlock lo m x) := by
  intro y hlo hN
  have hx := hN x mem_cons_self
  have hxf := hsp.fits x mem_cons_self
  rw [insertFreeBlock, Word.add_eq]
  split
  · rw [store_apply, store_apply]
  · obtain ⟨hmem, -⟩ := h.head_mem ‹_›
    have hh := hN _ (mem_cons_of_mem _ hmem)
    have hhf := hsp.fits _ (mem_cons_of_mem _ hmem)
    rw [Word.add_eq, store_apply, store_apply,
      store_apply]

theorem insertFreeBlock_load (hsp : Spaced lo (x :: fl)) (hw : w % 4 = 0) :
    (insertFreeBlock lo m x).load w =
      if w = lo then x
      else if m.load lo ≠ 0 ∧ w = m.load lo + 8 then x
      else if w = x + 4 then m.load lo else m.load w := by
  have hxf := hsp.fits x mem_cons_self
  have hxm := hsp.mod x mem_cons_self
  have hlo := hsp.lo_mod
  have hlt := m.load_lt lo
  rw [insertFreeBlock, Word.add_eq]
  split
  · rename_i h0
    rw [load_store hlo hw (by omega), load_store (by omega) hw hlt]
    simp [h0]
  · rename_i h0
    obtain ⟨hmem, -⟩ := h.head_mem h0
    have hhf := hsp.fits _ (mem_cons_of_mem _ hmem)
    have hhm := hsp.mod _ (mem_cons_of_mem _ hmem)
    rw [Word.add_eq, load_store hlo hw (by omega), load_store (by omega) hw (by omega),
      load_store (by omega) hw hlt]
    simp [h0]

/-- **`insert_free_block` pushes a block.** -/
theorem FreeList.insert (hsp : Spaced lo (x :: fl)) (hx : x ∉ fl)
    (hnd : fl.Nodup) : FreeList (insertFreeBlock lo m x) lo (x :: fl) := by
  have hxa := hsp.above x mem_cons_self
  have hxm := hsp.mod x mem_cons_self
  have hlo := hsp.lo_mod
  have hload := fun w => insertFreeBlock_load (w := w) h hsp
  -- the old head, if there is one, is a block other than `x`
  have hhead : m.load lo ≠ 0 → m.load lo ∈ fl ∧ m.load lo ≠ x := fun h0 =>
    ⟨(h.head_mem h0).1, fun he => hx (he ▸ (h.head_mem h0).1)⟩
  have hapart : m.load lo ≠ 0 → m.load lo + 12 ≤ x ∨ x + 12 ≤ m.load lo := fun h0 =>
    hsp.apart _ (mem_cons_of_mem _ (hhead h0).1) x mem_cons_self (hhead h0).2
  have hnew : toPtr ((insertFreeBlock lo m x).load lo) = some x := by
    rw [hload lo hlo, if_pos rfl, toPtr_pos (by omega)]
  rw [FreeList, hnew]
  refine NullList.push h ?_ ?_ ?_ ?_
  · rw [nextOf, hload (x + 4) (by omega), if_neg (by omega), if_neg (by omega), if_pos rfl]
  · intro y hy
    have hy0 := h.head_eq.trans hy
    obtain ⟨hy0, hpos⟩ := toPtr_eq_some.1 hy0
    have hym := hsp.mod y (mem_cons_of_mem _ (mem_of_mem_head? hy))
    have hya := hsp.above y (mem_cons_of_mem _ (mem_of_mem_head? hy))
    rw [prevOf, hload (y + 8) (by omega), if_neg (by omega), if_pos (by omega),
      toPtr_pos (by omega)]
  · intro y hy
    have hym := hsp.mod y (mem_cons_of_mem _ hy)
    have hya := hsp.above y (mem_cons_of_mem _ hy)
    have hyx : y ≠ x := fun he => hx (he ▸ hy)
    have hxy := hsp.apart y (mem_cons_of_mem _ hy) x mem_cons_self hyx
    have hyh : m.load lo ≠ 0 → y + 4 ≠ m.load lo + 8 := by
      intro h0 he
      have := hsp.apart y (mem_cons_of_mem _ hy) _ (mem_cons_of_mem _ (hhead h0).1)
      omega
    rw [nextOf, nextOf, hload (y + 4) (by omega), if_neg (by omega),
      if_neg (fun hc => hyh hc.1 hc.2), if_neg (by omega)]
  · intro y hy
    have hyl := mem_of_mem_tail hy
    have hym := hsp.mod y (mem_cons_of_mem _ hyl)
    have hya := hsp.above y (mem_cons_of_mem _ hyl)
    have hyx : y ≠ x := fun he => hx (he ▸ hyl)
    have hxy := hsp.apart y (mem_cons_of_mem _ hyl) x mem_cons_self hyx
    have hyh : m.load lo ≠ 0 → y ≠ m.load lo := by
      rintro h0 rfl
      obtain ⟨t, rfl⟩ := List.head?_eq_some_iff.1 (h.head_mem h0).2
      exact (List.nodup_cons.1 hnd).1 hy
    rw [prevOf, prevOf, hload (y + 8) (by omega), if_neg (by omega), if_neg (by omega),
      if_neg (by omega)]

/-! ## `remove_free_block` -/

/-- The successor that `remove_free_block` reads is a block of the list. -/
theorem FreeList.next_mem (hx : x ∈ fl) (h0 : m.load (x + 4) ≠ 0) : m.load (x + 4) ∈ fl := by
  obtain ⟨l₁, l₂, rfl⟩ := append_of_mem hx
  have hn : nextOf m x = l₂.head? := NullList.next_eq h
  rw [nextOf, toPtr_pos (Nat.pos_of_ne_zero h0)] at hn
  exact List.mem_append_right _ (mem_cons_of_mem _ (mem_of_mem_head? hn.symm))

/-- Unless the block is the head, the predecessor that `remove_free_block` reads is the block
before it in the list. -/
theorem FreeList.prev_split (hx : x ∈ fl) (hne : m.load lo ≠ x) :
    ∃ l₁ l₂, fl = l₁ ++ m.load (x + 8) :: x :: l₂ := by
  obtain ⟨l₁, l₂, rfl⟩ := append_of_mem hx
  rcases List.eq_nil_or_concat l₁ with rfl | ⟨l, p, rfl⟩
  · have hhead := h.head_eq
    rw [List.nil_append, List.head?_cons, toPtr_eq_some] at hhead
    exact absurd hhead.1 hne
  · rw [List.concat_eq_append, append_assoc, List.singleton_append] at h ⊢
    have hp : prevOf m x = some p := NullList.prev_eq h
    exact ⟨l, l₂, by rw [(toPtr_eq_some.1 hp).1]⟩

theorem FreeList.prev_mem (hx : x ∈ fl) (hne : m.load lo ≠ x) : m.load (x + 8) ∈ fl := by
  obtain ⟨l₁, l₂, hfl⟩ := h.prev_split hx hne
  rw [hfl]
  simp

end

/-- The memory after the first store of `remove_free_block`, which goes to the `prev` field of the
successor, if there is one. -/
def relinkNext (m : ByteMem) (x : Nat) : ByteMem :=
  if m.load (x + 4) = 0 then m else m.store (Word.add (m.load (x + 4)) 8) (m.load (x + 8))

theorem removeFreeBlock_eq (hx : x + 12 < 2 ^ 32) : removeFreeBlock lo m x =
      if x = (relinkNext m x).load lo then (relinkNext m x).store lo (m.load (x + 4))
      else (relinkNext m x).store (Word.add (m.load (x + 8)) 4) (m.load (x + 4)) := by
  have hx8 : Word.add x 8 = x + 8 := Word.add_eq
  rw [removeFreeBlock, Word.add_eq, hx8]
  rfl

section
variable (h : FreeList m lo fl) (hsp : Spaced lo fl) (hx : x ∈ fl)
include h hsp hx

theorem relinkNext_load (hw : w % 4 = 0) : (relinkNext m x).load w =
      if m.load (x + 4) ≠ 0 ∧ w = m.load (x + 4) + 8 then m.load (x + 8) else m.load w := by
  rw [relinkNext]
  split
  · rename_i h0
    simp [h0]
  · rename_i h0
    have hnm := hsp.mod _ (h.next_mem hx h0)
    have hnf := hsp.fits _ (h.next_mem hx h0)
    rw [Word.add_eq, load_store (by omega) hw (m.load_lt _)]
    simp [h0]

theorem relinkNext_head : (relinkNext m x).load lo = m.load lo := by
  rw [relinkNext_load h hsp hx hsp.lo_mod, if_neg]
  rintro ⟨h0, he⟩
  have := hsp.above _ (h.next_mem hx h0)
  omega

theorem removeFreeBlock_load (hw : w % 4 = 0) : (removeFreeBlock lo m x).load w =
      if m.load lo = x ∧ w = lo ∨ m.load lo ≠ x ∧ w = m.load (x + 8) + 4 then m.load (x + 4)
      else if m.load (x + 4) ≠ 0 ∧ w = m.load (x + 4) + 8 then m.load (x + 8)
      else m.load w := by
  have hxf := hsp.fits x hx
  have hnlt := m.load_lt (x + 4)
  rw [removeFreeBlock_eq hxf, relinkNext_head h hsp hx]
  by_cases hhead : m.load lo = x
  · rw [if_pos hhead.symm, load_store hsp.lo_mod hw hnlt, relinkNext_load h hsp hx hw]
    simp [hhead]
  · have hpm := hsp.mod _ (h.prev_mem hx hhead)
    have hpf := hsp.fits _ (h.prev_mem hx hhead)
    rw [if_neg (Ne.symm hhead), Word.add_eq, load_store (by omega) hw hnlt,
      relinkNext_load h hsp hx hw]
    simp [hhead]

theorem removeFreeBlock_linksOnly : LinksOnly lo fl m (removeFreeBlock lo m x) := by
  intro y hlo hN
  have hfirst : relinkNext m x y = m y := by
    rw [relinkNext]
    split
    · rfl
    · have hmem := h.next_mem hx ‹_›
      have hnf := hsp.fits _ hmem
      have hny := hN _ hmem
      rw [Word.add_eq, store_apply]
  rw [removeFreeBlock_eq (hsp.fits x hx), relinkNext_head h hsp hx]
  by_cases hhead : m.load lo = x
  · rw [if_pos hhead.symm, store_apply, hfirst]
  · have hmem := h.prev_mem hx hhead
    have hpf := hsp.fits _ hmem
    have hpy := hN _ hmem
    rw [if_neg (Ne.symm hhead), Word.add_eq, store_apply, hfirst]

end

/-- A link word of one block is a link word of another only if it is the same field of the same
block. -/
theorem Spaced.word_ne {y : Nat} {N : List Nat} (hsp : Spaced lo N) (hx : x ∈ N) (hy : y ∈ N) :
    x + 4 ≠ y + 8 ∧ x + 8 ≠ y + 4 ∧ x + 4 ≠ lo ∧ x + 8 ≠ lo := by
  have hxa := hsp.above x hx
  by_cases hxy : x = y
  · omega
  · have := hsp.apart x hx y hy hxy
    omega

/-- The first two nodes of what follows a removed block, seen from the block itself. -/
theorem FreeList.next_word (h : FreeList m lo (l₁ ++ x :: l₂)) (hn : n ∈ l₂.head?) :
    m.load (x + 4) = n ∧ 0 < n := by
  have hnext : nextOf m x = l₂.head? := NullList.next_eq h
  rw [Option.mem_def.1 hn] at hnext
  exact toPtr_eq_some.1 hnext

theorem FreeList.remove_head {t : List Nat} (h : FreeList m lo (x :: t)) (hsp : Spaced lo (x :: t))
    (hnd : (x :: t).Nodup) : FreeList (removeFreeBlock lo m x) lo t := by
  have hx : x ∈ x :: t := mem_cons_self
  have hload := fun w => removeFreeBlock_load (w := w) h hsp hx
  have hhead : m.load lo = x := (toPtr_eq_some.1 h.head_eq).1
  have hlo := hload lo hsp.lo_mod
  rw [if_pos (.inl ⟨hhead, rfl⟩)] at hlo
  rw [FreeList, hlo]
  -- the list goes on with what `next` says, and only its first `prev` is rewritten
  refine (NullList.next_head h).congr ?_ ?_
  · intro y hy
    have hyl : y ∈ x :: t := mem_cons_of_mem _ hy
    have hym := hsp.mod y hyl
    have hya := hsp.above y hyl
    have hyn := fun h0 => (hsp.word_ne hyl (h.next_mem hx h0)).1
    rw [nextOf, hload (y + 4) (by omega), if_neg (by omega), if_neg fun hc => hyn hc.1 hc.2, nextOf]
  · intro y hy
    have hyl : y ∈ x :: t := mem_cons_of_mem _ (mem_of_mem_tail hy)
    have hym := hsp.mod y hyl
    have hya := hsp.above y hyl
    have hyn : ¬ (m.load (x + 4) ≠ 0 ∧ y + 8 = m.load (x + 4) + 8) := by
      rintro ⟨-, he⟩
      obtain ⟨z, t, rfl⟩ := List.exists_cons_of_ne_nil (List.ne_nil_of_mem (mem_of_mem_tail hy))
      have hsplit : FreeList m lo ([] ++ x :: z :: t) := h
      have hz := (hsplit.next_word rfl).1
      have hyz : y ≠ z := fun he => (List.nodup_cons.1 (List.nodup_cons.1 hnd).2).1 (he ▸ hy)
      omega
    rw [prevOf, hload (y + 8) (by omega), if_neg (by omega), if_neg hyn, prevOf]

theorem FreeList.remove_inner {p : Nat} (h : FreeList m lo (l₁ ++ p :: x :: l₂))
    (hsp : Spaced lo (l₁ ++ p :: x :: l₂)) (hnd : (l₁ ++ p :: x :: l₂).Nodup) :
    FreeList (removeFreeBlock lo m x) lo (l₁ ++ p :: l₂) := by
  have hx : x ∈ l₁ ++ p :: x :: l₂ := by simp
  have hp : p ∈ l₁ ++ p :: x :: l₂ := by simp
  have hpa := hsp.above p hp
  have hpm := hsp.mod p hp
  have hsub : ∀ y ∈ l₁ ++ p :: l₂, y ∈ l₁ ++ p :: x :: l₂ := by
    intro y hy
    simp only [mem_append, mem_cons] at hy ⊢
    tauto
  have hprev : m.load (x + 8) = p := (toPtr_eq_some.1 (NullList.prev_eq h : prevOf m x = some p)).1
  have hnext : nextOf m x = l₂.head? := by
    rw [List.append_cons] at h
    exact NullList.next_eq h
  have hnd1 : (l₁ ++ p :: l₂).Nodup :=
    hnd.sublist ((List.sublist_cons_self x l₂).cons_cons p |>.append_left l₁)
  have hhead : m.load lo ≠ x := by
    intro he
    have hh := h.head_eq
    rw [he, toPtr_pos (by have := hsp.above x hx; omega)] at hh
    cases l₁ with
    | nil =>
      obtain rfl : x = p := by simpa using hh
      simp at hnd
    | cons a l₁ =>
      obtain rfl : x = a := by simpa using hh
      simp at hnd
  have hload := fun w => removeFreeBlock_load (w := w) h hsp hx
  simp only [hhead, hprev, false_and, ne_eq, not_false_eq_true, true_and, false_or] at hload
  have hwordn := fun y (hy : y ∈ l₁ ++ p :: l₂) h0 => hsp.word_ne (hsub y hy) (h.next_mem hx h0)
  have hlo : (removeFreeBlock lo m x).load lo = m.load lo := by
    rw [hload lo hsp.lo_mod, if_neg (by omega),
      if_neg fun hc => (hsp.word_ne (h.next_mem hx hc.1) hp).2.2.2 hc.2.symm]
  rw [FreeList, hlo]
  refine NullList.remove h ?_ ?_ ?_ ?_
  · rw [nextOf, hload (p + 4) (by omega), if_pos rfl, ← hnext, nextOf]
  · intro n hn
    rw [Option.mem_def.1 hn] at hnext
    obtain ⟨hxn, hn0⟩ := toPtr_eq_some.1 hnext
    have hnl : n ∈ l₁ ++ p :: l₂ :=
      List.mem_append_right _ (mem_cons_of_mem _ (mem_of_mem_head? hn))
    have hnm := hsp.mod n (hsub n hnl)
    rw [prevOf, hload (n + 8) (by omega), if_neg (hsp.word_ne (hsub n hnl) hp).2.1,
      if_pos ⟨by omega, by omega⟩, toPtr_pos (by omega)]
  · intro y hy
    have hyl : y ∈ l₁ ++ p :: l₂ := by
      simp only [mem_append, mem_cons] at hy ⊢
      tauto
    have hym := hsp.mod y (hsub y hyl)
    have hyp : y ≠ p := by
      rintro rfl
      rw [nodup_middle] at hnd1
      exact (List.nodup_cons.1 hnd1).1 hy
    rw [nextOf, hload (y + 4) (by omega), if_neg (by omega),
      if_neg fun hc => (hwordn y hyl hc.1).1 hc.2, nextOf]
  · intro y hy
    have hyl : y ∈ l₁ ++ p :: l₂ := by
      simp only [mem_append, mem_cons] at hy ⊢
      have := mem_of_mem_tail (a := y) (l := l₂)
      tauto
    have hym := hsp.mod y (hsub y hyl)
    have hyn : ¬ (m.load (x + 4) ≠ 0 ∧ y + 8 = m.load (x + 4) + 8) := by
      rintro ⟨h0, he⟩
      obtain ⟨n, t, rfl⟩ : ∃ n t, l₂ = n :: t := by
        rw [nextOf, toPtr_pos (by omega)] at hnext
        exact ⟨_, List.head?_eq_some_iff.1 hnext.symm⟩
      have hxn : m.load (x + 4) = n := (toPtr_eq_some.1 hnext).1
      obtain rfl : y = n := by omega
      rw [List.append_cons, nodup_middle, append_assoc] at hnd1
      exact (List.nodup_cons.1 hnd1).1 (by simpa using hy)
    rw [prevOf, hload (y + 8) (by omega), if_neg (hsp.word_ne (hsub y hyl) hp).2.1, if_neg hyn,
      prevOf]

/-- **`remove_free_block` takes a block out of the list.** -/
theorem FreeList.remove (h : FreeList m lo fl) (hsp : Spaced lo fl) (hnd : fl.Nodup) (hx : x ∈ fl) :
    FreeList (removeFreeBlock lo m x) lo (fl.erase x) := by
  obtain ⟨l₁, l₂, rfl⟩ := append_of_mem hx
  have herase : (l₁ ++ x :: l₂).erase x = l₁ ++ l₂ := by
    rw [nodup_middle, List.nodup_cons] at hnd
    rw [List.erase_append_right _ fun hx1 => hnd.1 (List.mem_append_left _ hx1),
      List.erase_cons_head]
  rw [herase]
  rcases List.eq_nil_or_concat l₁ with rfl | ⟨l, p, rfl⟩
  · exact h.remove_head hsp hnd
  · simp only [List.concat_eq_append, append_assoc, List.singleton_append] at h hsp hnd ⊢
    exact h.remove_inner hsp hnd

/-! ## `find_free_block` -/

/-- **`find_free_block` is first fit**: it returns the first block of the list that is large
enough, and the null pointer if there is none.  A list has fewer nodes than there are addresses,
so the walk never runs out of budget. -/
theorem FreeList.find {size : Nat} :
    ∀ {fl : List Nat} {fuel fb : Nat}, NullList (nextOf m) (prevOf m) (toPtr fb) fl →
      (∀ x ∈ fl, x + 12 < 2 ^ 32) → fl.length < fuel →
      findFreeBlock m size fuel fb =
        .ok ((fl.find? fun x => decide (size ≤ SIZE (m.load x))).getD 0)
  | [], fuel + 1, fb, h, _, _ => by
    have h0 : fb = 0 := by
      by_contra hne
      have := h.head_eq
      rw [toPtr, if_neg hne] at this
      simp at this
    simp [findFreeBlock, h0]
  | x :: fl, fuel + 1, fb, h, hfits, hlen => by
    obtain ⟨rfl, hpos⟩ := toPtr_eq_some.1 h.head_eq
    have hxf := hfits fb mem_cons_self
    rw [findFreeBlock, if_neg (by omega), List.find?_cons]
    by_cases hs : size ≤ SIZE (m.load fb)
    · simp [hs]
    · rw [if_neg hs, Word.add_eq, FreeList.find (NullList.next_head h)
        (fun y hy => hfits y (mem_cons_of_mem _ hy)) (by simpa using hlen)]
      simp [hs]

end JinxOS
