import JinxOS.Klib.Array
import JinxOS.Lib.Memory

/-!
# Dynamic arrays in memory

The code of `klib/array.c` once more, with the bytes of the block at `v`.  `Klib/Array.lean` gives
the block by its values; here an element is the word that is read at `v + 4 * i`, and the elements
are moved by `memcpy`, byte by byte.  `memmove` is nothing but `memcpy`.  That is right where
`array_remove` uses it, because it moves the elements down: every byte is read before the loop
writes there.

`kmalloc` is given by what it returns, which is any block that does not overlap the one of the
array, or the null pointer; for no bytes it is the null pointer.  `kmalloc` and `kfree` do not
change the block that the array uses, and may change all other memory.

`ArrayRep` says what is known of an array whose elements are given, some of which may not be known:
those that `array_setsize` adds are not initialised.
-/

namespace JinxOS

/-! ## The code -/

/-- `struct array`, and memory. -/
structure ArrayMem where
  /-- Memory. -/
  mem : ByteMem
  v : Nat
  num : Nat
  max : Nat

/-- What the heap does in a call. -/
structure HeapCall where
  /-- What `kmalloc` returns, if the number of bytes is not 0. -/
  ptr : Nat
  /-- What is in the memory that the array does not use after `kmalloc`, and after `kfree`. -/
  other : ByteMem

/-- The `n` bytes at `p` are kept. -/
def keepBlock (m other : ByteMem) (p n : Nat) : ByteMem :=
  fun x => if p ≤ x ∧ x < p + n then m x else other x

namespace ArrayMem

/-- `array_create`, with `array_init`. -/
def arrayCreate (m : ByteMem) : ArrayMem := ⟨m, 0, 0, 0⟩

/-- `&a->v[index]`, which is read or written. -/
def slot (a : ArrayMem) (index : Nat) : Except Fault Nat :=
  if a.v = 0 then .error .nullDeref else .ok (Word.add a.v (Word.mul index 4))

/-- `array_get`. -/
def arrayGet (a : ArrayMem) (index : Nat) : Except Fault Nat := do
  assert "index < a->num" (decide (index < a.num))
  let p ← a.slot index
  .ok (a.mem.load p)

/-- `array_set`. -/
def arraySet (a : ArrayMem) (index val : Nat) : Except Fault ArrayMem := do
  assert "index < a->num" (decide (index < a.num))
  let p ← a.slot index
  .ok { a with mem := a.mem.store p val }

/-- The blocks that `kmalloc` may return. -/
def BlockFree (a : ArrayMem) (p bytes : Nat) : Prop :=
  p + bytes ≤ 2 ^ 32 ∧ (p + bytes ≤ a.v ∨ a.v + 4 * a.max ≤ p)

instance (a : ArrayMem) (p bytes : Nat) : Decidable (a.BlockFree p bytes) :=
  inferInstanceAs (Decidable (_ ∧ _))

/-- `kmalloc`: the pointer, and memory.  It does not return if there is no such block. -/
def kmalloc (a : ArrayMem) (h : HeapCall) (bytes : Nat) : Except Fault (Nat × ByteMem) :=
  if bytes = 0 ∨ h.ptr = 0 then .ok (0, a.mem)
  else if a.BlockFree h.ptr bytes then .ok (h.ptr, keepBlock a.mem h.other a.v (4 * a.max))
  else .error (.panic "kmalloc")

/-- `array_setsize`: the error number, and the array. -/
def arraySetsize (a : ArrayMem) (h : HeapCall) (num : Nat) : Except Fault (Nat × ArrayMem) :=
  if a.max < num then do
    let newmax ← newMax num loopFuel a.max
    let (newptr, mem) ← a.kmalloc h (Word.mul newmax 4)
    if newptr = 0 then .ok (enomem, a)
    else
      let mem := mem.memcpy newptr a.v (Word.mul a.num 4)
      let mem := keepBlock mem h.other newptr (Word.mul newmax 4)
      .ok (0, ⟨mem, newptr, num, newmax⟩)
  else .ok (0, { a with num := num })

/-- `array_add`: the error number, the index, which is stored for the caller if there is no error,
and the array. -/
def arrayAdd (a : ArrayMem) (h : HeapCall) (val : Nat) : Except Fault (Nat × Nat × ArrayMem) := do
  let index := a.num
  let (ret, a) ← a.arraySetsize h (Word.add index 1)
  if ret ≠ 0 then .ok (ret, index, a)
  else do
    let p ← a.slot index
    .ok (0, index, { a with mem := a.mem.store p val })

/-- `array_remove`. -/
def arrayRemove (a : ArrayMem) (index : Nat) : Except Fault ArrayMem := do
  assert "a->num <= a->max" (decide (a.num ≤ a.max))
  assert "index < a->num" (decide (index < a.num))
  let numToMove := Word.sub a.num (Word.add index 1)
  let dst := Word.add a.v (Word.mul index 4)
  let src := Word.add dst 4
  .ok { a with
    mem := a.mem.memcpy dst src (Word.mul numToMove 4)
    num := Word.sub a.num 1 }

end ArrayMem

/-! ## Elements -/

/-- The array has these elements; those that are not known are `none`. -/
structure ArrayRep (a : ArrayMem) (xs : List (Option Nat)) : Prop where
  num : a.num = xs.length
  num_le : a.num ≤ a.max
  pow : Doubling a.max
  /-- The number of bytes of the block does not wrap around. -/
  le : a.max ≤ 2 ^ 29
  block : a.max ≠ 0 → a.v ≠ 0
  fits : a.v + 4 * a.max ≤ 2 ^ 32
  elems : ∀ i x, xs[i]? = some (some x) → a.mem.load (a.v + 4 * i) = x

section
variable {a : ArrayMem} {xs : List (Option Nat)} {h : HeapCall} {i x num : Nat}

theorem ArrayRep.create (m : ByteMem) : ArrayRep (.arrayCreate m) [] :=
  ⟨rfl, le_rfl, .inl rfl, Nat.zero_le _, fun hne => absurd rfl hne, Nat.zero_le _, by simp⟩

theorem lt_of_known (hx : xs[i]? = some (some x)) : i < xs.length :=
  (List.getElem?_eq_some_iff.1 hx).1

theorem ArrayRep.slot_eq (hr : ArrayRep a xs) (hi : i < a.max) : a.slot i = .ok (a.v + 4 * i) := by
  have hfits := hr.fits
  rw [ArrayMem.slot, if_neg (hr.block (by omega)), Word.mul_eq, Word.add_eq,
    Nat.mul_comm]

theorem ArrayRep.get_eq (hr : ArrayRep a xs) (hi : i < xs.length) :
    a.arrayGet i = .ok (a.mem.load (a.v + 4 * i)) := by
  have hlt : i < a.num := hr.num ▸ hi
  rw [ArrayMem.arrayGet, decide_eq_true hlt, assert_true, ok_bind,
    hr.slot_eq (lt_of_lt_of_le hlt hr.num_le), ok_bind]

theorem ArrayRep.store (hr : ArrayRep a xs) (hx : x < 2 ^ 32) (i : Nat) :
    ArrayRep { a with mem := a.mem.store (a.v + 4 * i) x } (xs.set i (some x)) := by
  refine ⟨hr.num.trans (List.length_set).symm, hr.num_le, hr.pow, hr.le, hr.block, hr.fits, ?_⟩
  intro j y hy
  dsimp only
  by_cases hij : i = j
  · subst hij
    rw [List.getElem?_set_self (List.length_set ▸ lt_of_known hy)] at hy
    cases hy
    exact load_store_same hx
  · rw [List.getElem?_set_ne hij] at hy
    rw [load_store_of_disjoint]
    exact hr.elems j y hy

theorem ArrayRep.set_eq (hr : ArrayRep a xs) (hi : i < xs.length) (x : Nat) :
    a.arraySet i x = .ok { a with mem := a.mem.store (a.v + 4 * i) x } := by
  have hlt : i < a.num := hr.num ▸ hi
  rw [ArrayMem.arraySet, decide_eq_true hlt, assert_true, ok_bind,
    hr.slot_eq (lt_of_lt_of_le hlt hr.num_le), ok_bind]

/-! ### `array_setsize` -/

/-- The elements after a change of the size. -/
def resized (xs : List (Option Nat)) (num : Nat) : List (Option Nat) :=
  xs.take num ++ List.replicate (num - xs.length) none

theorem length_resized (xs : List (Option Nat)) (num : Nat) : (resized xs num).length = num := by
  rw [resized, List.length_append, List.length_take, List.length_replicate]
  omega

theorem resized_known (hx : (resized xs num)[i]? = some (some x)) : xs[i]? = some (some x) := by
  rw [resized, List.getElem?_append] at hx
  split at hx
  · rw [List.getElem?_take] at hx
    split at hx
    · exact hx
    · cases hx
  · rw [List.getElem?_replicate] at hx
    split at hx <;> cases hx

theorem ArrayRep.load_copy (hr : ArrayRep a xs) {p n : Nat} {other other' : ByteMem}
    (hfree : a.BlockFree p n) (hn : 4 * a.max ≤ n) (hi : i < a.num) :
    (keepBlock ((keepBlock a.mem other a.v (4 * a.max)).memcpy p a.v (4 * a.num)) other' p n).load
      (p + 4 * i) = a.mem.load (a.v + 4 * i) := by
  obtain ⟨hp, hapart⟩ := hfree
  have hle := hr.num_le
  have hfits := hr.fits
  have hbyte : ∀ j, j < 4 →
      keepBlock ((keepBlock a.mem other a.v (4 * a.max)).memcpy p a.v (4 * a.num)) other' p n
        (p + 4 * i + j) = a.mem (a.v + 4 * i + j) := by
    intro j hj
    rw [keepBlock, if_pos (by omega), ByteMem.memcpy_apply _ (by omega) (by omega) (by omega),
      if_pos (by omega), keepBlock, if_pos (by omega)]
    congr 1
    omega
  exact ByteMem.load_of_bytes hbyte

/-- **`array_setsize` keeps the elements**, or there is no memory, or it does not return. -/
theorem ArrayRep.setsize (hr : ArrayRep a xs) {r : Nat} {a' : ArrayMem}
    (hrun : a.arraySetsize h num = .ok (r, a')) :
    (r = enomem ∧ a' = a) ∨
      (r = 0 ∧ ArrayRep a' (resized xs num)) := by
  have hle := hr.num_le
  rw [ArrayMem.arraySetsize] at hrun
  by_cases hroom : a.max < num
  · rw [if_pos hroom] at hrun
    obtain ⟨m, hnew, hrun⟩ := of_bind hrun
    obtain ⟨⟨p, mem⟩, halloc, hrun⟩ := of_bind hrun
    obtain ⟨hpow, hnum⟩ : Doubling m ∧ num ≤ m := by
      by_cases hsize : num ≤ 2 ^ 31
      · obtain ⟨m', hnew', hpow, hnum, -⟩ := newMax_ends hsize hr.pow (show 31 ≤ loopFuel by decide)
        obtain rfl := Except.ok.inj (hnew'.symm.trans hnew)
        exact ⟨hpow, hnum⟩
      · rw [newMax_diverges (Nat.not_le.1 hsize) hr.pow] at hnew
        cases hnew
    dsimp only at hrun
    rw [ArrayMem.kmalloc] at halloc
    split at halloc
    · cases halloc
      rw [if_pos rfl] at hrun
      cases hrun
      exact .inl ⟨rfl, rfl⟩
    · rename_i hnull
      obtain ⟨hbytes, hptr⟩ := not_or.1 hnull
      obtain ⟨heq, hm⟩ := hpow.bytes hbytes
      split at halloc
      · rename_i hfree
        cases halloc
        rw [if_neg hptr] at hrun
        cases hrun
        rw [heq] at hfree ⊢
        refine .inr ⟨rfl, ⟨(length_resized xs num).symm, hnum, hpow, hm,
          fun _ => hptr, hfree.1, ?_⟩⟩
        intro i x hx
        have hi : i < a.num := hr.num ▸ lt_of_known (resized_known hx)
        rw [Word.mul_eq, Nat.mul_comm a.num 4, hr.load_copy hfree (by omega) hi]
        exact hr.elems i x (resized_known hx)
      · cases halloc
  · rw [if_neg hroom] at hrun
    cases hrun
    exact .inr ⟨rfl, ⟨(length_resized xs num).symm, Nat.not_lt.1 hroom, hr.pow, hr.le,
      hr.block, hr.fits, fun i x hx => hr.elems i x (resized_known hx)⟩⟩

/-! ### `array_add` and `array_remove` -/

/-- **`array_add` appends the value**, or there is no memory, or it does not return. -/
theorem ArrayRep.add (hr : ArrayRep a xs) (hx : x < 2 ^ 32) {r index : Nat} {a' : ArrayMem}
    (hrun : a.arrayAdd h x = .ok (r, index, a')) :
    index = xs.length ∧ ((r = enomem ∧ a' = a) ∨
      (r = 0 ∧ ArrayRep a' (xs ++ [some x]))) := by
  have hle := hr.num_le
  have hmax := hr.le
  rw [ArrayMem.arrayAdd] at hrun
  rw [Word.add_eq] at hrun
  obtain ⟨⟨r1, a1⟩, hset, hrun⟩ := of_bind hrun
  rcases hr.setsize hset with ⟨rfl, rfl⟩ | ⟨rfl, hr1⟩
  · dsimp only at hrun
    rw [if_pos (by decide)] at hrun
    cases hrun
    exact ⟨hr.num, .inl ⟨rfl, rfl⟩⟩
  · have hlen : a1.num = a.num + 1 := hr1.num.trans (length_resized _ _)
    have hroom := hr1.num_le
    dsimp only at hrun
    rw [if_neg (by decide), hr1.slot_eq (by omega), ok_bind] at hrun
    cases hrun
    refine ⟨hr.num, .inr ⟨rfl, ?_⟩⟩
    have hxs : (resized xs (a.num + 1)).set a.num (some x) = xs ++ [some x] := by
      rw [resized, hr.num, List.take_of_length_le (Nat.le_succ _), Nat.add_sub_cancel_left,
        List.set_append_right _ _ le_rfl, Nat.sub_self]
      rfl
    exact hxs ▸ hr1.store hx a.num

theorem load_moveDown {m : ByteMem} {v n i j : Nat} (hfits : v + 4 * n ≤ 2 ^ 32) (hi : i < n)
    (hj : j + 1 < n) :
    (m.memcpy (v + 4 * i) (Word.add (v + 4 * i) 4) (4 * (n - (i + 1)))).load (v + 4 * j) =
      m.load (v + 4 * if j < i then j else j + 1) := by
  by_cases hlast : i + 1 = n
  · -- the last element: there is nothing to move
    rw [show n - (i + 1) = 0 by omega, Nat.mul_zero, ByteMem.memcpy, if_pos (by omega)]
  rw [Word.add_eq]
  have hbyte : ∀ x, m.memcpy (v + 4 * i) (v + 4 * i + 4) (4 * (n - (i + 1))) x =
      if v + 4 * i ≤ x ∧ x < v + 4 * i + 4 * (n - (i + 1)) then
        m (x - (v + 4 * i) + (v + 4 * i + 4))
      else m x := ByteMem.memcpy_apply _ (by omega) (by omega) (by omega)
  by_cases hji : j < i
  · rw [if_pos hji]
    refine load_congr fun x hlo hhi => ?_
    rw [hbyte, if_neg (by omega)]
  · have hmoved : ∀ b, b < 4 → m.memcpy (v + 4 * i) (v + 4 * i + 4) (4 * (n - (i + 1)))
        (v + 4 * j + b) = m (v + 4 * (j + 1) + b) := by
      intro b hb
      rw [hbyte, if_pos (by omega)]
      congr 1
      omega
    rw [if_neg hji]
    exact ByteMem.load_of_bytes hmoved

/-- **`array_remove` takes one element out**: the bytes of the others are moved down. -/
theorem ArrayRep.remove (hr : ArrayRep a xs) (hi : i < xs.length) :
    ∃ a', a.arrayRemove i = .ok a' ∧ ArrayRep a' (xs.eraseIdx i) ∧ a'.max = a.max := by
  have hle := hr.num_le
  have hfits := hr.fits
  have hnum := hr.num
  have hdst : Word.add a.v (Word.mul i 4) = a.v + 4 * i := by
    rw [Word.mul_eq, Word.add_eq, Nat.mul_comm]
  have hmove : Word.mul (Word.sub a.num (Word.add i 1)) 4 = 4 * (a.num - (i + 1)) := by
    rw [Word.add_eq, Word.sub_eq, Word.mul_eq, Nat.mul_comm]
  rw [ArrayMem.arrayRemove, decide_eq_true hle, assert_true, ok_bind,
    decide_eq_true (by omega), assert_true, ok_bind]
  dsimp only
  rw [hdst, hmove, Word.sub_eq]
  have hlen : a.num - 1 = (xs.eraseIdx i).length := by
    rw [List.length_eraseIdx_of_lt hi, hnum]
  refine ⟨_, rfl, ⟨hlen, by dsimp only; omega, hr.pow, hr.le, hr.block, hr.fits, ?_⟩, rfl⟩
  intro j x hx
  have hj := lt_of_known hx
  rw [← hlen] at hj
  rw [List.getElem?_eraseIdx] at hx
  rw [load_moveDown (by omega) (by omega) (by omega)]
  split at hx
  · rw [if_pos ‹_›]
    exact hr.elems j x hx
  · rw [if_neg ‹_›]
    exact hr.elems (j + 1) x hx

end

end JinxOS
