import JinxOS.Cpu

/-!
# Dynamic arrays

The code of `klib/array.c`.  Values are pointers, of any type; `default` is the one that `kmalloc`
fills a block with, which is the null pointer.  `kmalloc` fails only if the number of bytes is 0,
and that it is when the number wraps around.

The block `v` has `max` slots, of which the first `num` are in use: they are `elems`.  The others
hold what was there before.  `KArray.Wf` is what every call keeps.
-/

namespace JinxOS

/-- `struct array`. -/
structure KArray (α : Type) where
  /-- The block at `v`, with the slots beyond `num`. -/
  v : List α
  num : Nat
  max : Nat
  deriving DecidableEq, Repr

section
variable {α : Type}

/-- `array_create`, with `array_init`. -/
def arrayCreate : KArray α := ⟨[], 0, 0⟩

/-- `array_cleanup`. -/
def arrayCleanup (a : KArray α) : Except Fault (KArray α) := do
  assert "a->num == 0" (a.num == 0)
  .ok { a with v := [] }

/-- `array_destroy`. -/
def arrayDestroy (a : KArray α) : Except Fault Unit := do
  let _ ← arrayCleanup a
  .ok ()

/-- `array_num`. -/
def arrayNum (a : KArray α) : Nat := a.num

/-- `array_get`. -/
def arrayGet (a : KArray α) (index : Nat) : Except Fault α := do
  assert "index < a->num" (decide (index < a.num))
  deref a.v[index]?

/-- `array_set`. -/
def arraySet (a : KArray α) (index : Nat) (val : α) : Except Fault (KArray α) := do
  assert "index < a->num" (decide (index < a.num))
  let _ ← deref a.v[index]?
  .ok { a with v := a.v.set index val }

/-- The loop of `array_setsize`, which doubles `newmax`. -/
def newMax (num : Nat) : Nat → Nat → Except Fault Nat
  | 0, _ => .error .diverges
  | fuel + 1, newmax =>
    if newmax < num then newMax num fuel (if newmax = 0 then 4 else Word.mul newmax 2)
    else .ok newmax

/-- `memcpy` of the elements into a new block of the given number of bytes. -/
def moveBlock [Inhabited α] (a : KArray α) (bytes : Nat) : List α :=
  let copied := a.v.take (Word.mul a.num 4 / 4)
  copied ++ List.replicate (bytes / 4 - copied.length) default

/-- `array_setsize`: the error number, and the array. -/
def arraySetsize [Inhabited α] (a : KArray α) (num : Nat) : Except Fault (Nat × KArray α) :=
  if a.max < num then do
    let newmax ← newMax num loopFuel a.max
    if Word.mul newmax 4 = 0 then .ok (enomem, a)
    else .ok (0, ⟨moveBlock a (Word.mul newmax 4), num, newmax⟩)
  else .ok (0, { a with num := num })

/-- `array_add`: the error number, the index, which is stored for the caller if there is no error,
and the array. -/
def arrayAdd [Inhabited α] (a : KArray α) (val : α) : Except Fault (Nat × Nat × KArray α) := do
  let index := a.num
  let (ret, a) ← arraySetsize a (Word.add index 1)
  if ret ≠ 0 then .ok (ret, index, a)
  else do
    let _ ← deref a.v[index]?
    .ok (0, index, { a with v := a.v.set index val })

/-- `array_remove`, with the `memmove` of the elements that follow. -/
def arrayRemove (a : KArray α) (index : Nat) : Except Fault (KArray α) := do
  assert "a->num <= a->max" (decide (a.num ≤ a.max))
  assert "index < a->num" (decide (index < a.num))
  let numToMove := Word.sub a.num (Word.add index 1)
  let moved := (a.v.drop (index + 1)).take (Word.mul numToMove 4 / 4)
  .ok { a with
    v := a.v.take index ++ moved ++ a.v.drop (index + moved.length)
    num := Word.sub a.num 1 }

/-- The elements. -/
def KArray.elems (a : KArray α) : List α := a.v.take a.num

end

/-! ## Well-formed arrays -/

section
variable {α : Type}

/-- What the calls keep. -/
structure KArray.Wf (a : KArray α) : Prop where
  length : a.v.length = a.max
  num_le : a.num ≤ a.max
  /-- There is no block, or the number of its slots is a power of two. -/
  pow : a.max = 0 ∨ ∃ k, a.max = 2 ^ (k + 2)
  le : a.max ≤ 2 ^ 29

variable {a : KArray α} {i : Nat} {x : α}

theorem arrayCreate_wf : (arrayCreate : KArray α).Wf := ⟨rfl, le_rfl, .inl rfl, Nat.zero_le _⟩

theorem KArray.Wf.length_elems (h : a.Wf) : a.elems.length = a.num := by
  rw [KArray.elems, List.length_take, h.length, Nat.min_eq_left h.num_le]

theorem KArray.Wf.num_lt (h : a.Wf) : a.num < 2 ^ 31 :=
  lt_of_le_of_lt (h.num_le.trans h.le) (by decide)

theorem KArray.elems_get (h : a.elems[i]? = some x) : i < a.num ∧ a.v[i]? = some x := by
  rw [KArray.elems, List.getElem?_take] at h
  split at h
  · exact ⟨‹_›, h⟩
  · exact nomatch h

theorem arrayGet_ok (h : a.elems[i]? = some x) : arrayGet a i = .ok x := by
  obtain ⟨hlt, hx⟩ := KArray.elems_get h
  rw [arrayGet, decide_eq_true hlt, assert_true, ok_bind, hx, deref_some]

theorem arraySet_ok {y : α} (h : a.elems[i]? = some y) (x : α) :
    arraySet a i x = .ok { a with v := a.v.set i x } := by
  obtain ⟨hlt, hy⟩ := KArray.elems_get h
  rw [arraySet, decide_eq_true hlt, assert_true, ok_bind, hy, deref_some, ok_bind]

theorem KArray.elems_set (a : KArray α) (i : Nat) (x : α) :
    ({ a with v := a.v.set i x } : KArray α).elems = a.elems.set i x := by
  rw [KArray.elems, KArray.elems, List.take_set]

theorem KArray.Wf.set (h : a.Wf) (i : Nat) (x : α) : ({ a with v := a.v.set i x } : KArray α).Wf :=
  ⟨(List.length_set).trans h.length, h.num_le, h.pow, h.le⟩

/-! ### Doubling

`newmax` is 0 or a power of two from 4 on, and 0 follows on `2 ^ 31`.  So the loop of
`array_setsize` stops at the first power of two that is large enough, or goes round in a circle if
none is. -/

/-- The numbers that the loop goes through. -/
def Doubling (newmax : Nat) : Prop := newmax = 0 ∨ ∃ k, newmax = 2 ^ (k + 2) ∧ k ≤ 29

theorem double_pow {k : Nat} (hk : k + 1 ≤ 29) :
    (if 2 ^ (k + 2) = 0 then 4 else Word.mul (2 ^ (k + 2)) 2) = 2 ^ (k + 1 + 2) := by
  have hlt : 2 ^ (k + 1 + 2) < 2 ^ 32 := Nat.pow_lt_pow_right (by decide) (by omega)
  rw [if_neg (Nat.two_pow_pos _).ne', Word.mul, ← Nat.pow_succ, Nat.mod_eq_of_lt hlt]

theorem newMax_pow {num : Nat} (hnum : num ≤ 2 ^ 31) : ∀ {j k fuel : Nat}, k + j = 29 → j < fuel →
    ∃ i, newMax num fuel (2 ^ (k + 2)) = .ok (2 ^ (i + 2)) ∧ i ≤ 29 ∧ num ≤ 2 ^ (i + 2) ∧
      (i = k ∨ 2 ^ (i + 1) < num)
  | j, k, fuel + 1, hk, hf => by
    rw [newMax]
    by_cases hlt : 2 ^ (k + 2) < num
    · have hj : j ≠ 0 := by
        rintro rfl
        exact Nat.not_lt.2 hnum (show 2 ^ (29 + 2) < num from hk ▸ hlt)
      obtain ⟨j, rfl⟩ := Nat.exists_eq_succ_of_ne_zero hj
      obtain ⟨i, hrun, hi, hle, hleast⟩ :=
        newMax_pow hnum (show k + 1 + j = 29 by omega) (Nat.lt_of_succ_lt_succ hf)
      rw [if_pos hlt, double_pow (by omega)]
      exact ⟨i, hrun, hi, hle, .inr (hleast.elim (fun h => h ▸ hlt) id)⟩
    · rw [if_neg hlt]
      exact ⟨k, rfl, by omega, Nat.not_lt.1 hlt, .inl rfl⟩

/-- **The loop ends** if the size is at most `2 ^ 31`.  It ends at `2 ^ 29` or before if it can. -/
theorem newMax_ends {num newmax fuel : Nat} (hnum : num ≤ 2 ^ 31) (hpow : Doubling newmax)
    (hf : 31 ≤ fuel) : ∃ m, newMax num fuel newmax = .ok m ∧ Doubling m ∧ num ≤ m ∧
      (newmax ≤ 2 ^ 29 → num ≤ 2 ^ 29 → m ≤ 2 ^ 29) := by
  have hsmall : ∀ {i k : Nat}, i = k ∨ 2 ^ (i + 1) < num → 2 ^ (k + 2) ≤ 2 ^ 29 → num ≤ 2 ^ 29 →
      2 ^ (i + 2) ≤ 2 ^ 29 := by
    intro i k hleast hk hle
    rcases hleast with rfl | hleast
    · exact hk
    · have hi := (Nat.pow_lt_pow_iff_right (by decide)).1 (lt_of_lt_of_le hleast hle)
      exact Nat.pow_le_pow_right (by decide) hi
  obtain ⟨fuel, rfl⟩ := Nat.exists_eq_succ_of_ne_zero (show fuel ≠ 0 by omega)
  rcases hpow with rfl | ⟨k, rfl, hk⟩
  · by_cases hzero : num = 0
    · refine ⟨0, ?_, .inl rfl, le_of_eq hzero, fun _ _ => Nat.zero_le _⟩
      rw [newMax, hzero, if_neg (Nat.lt_irrefl 0)]
    · obtain ⟨i, hrun, hi, hle, hleast⟩ :=
        newMax_pow hnum (show 0 + 29 = 29 from rfl) (show 29 < fuel by omega)
      refine ⟨2 ^ (i + 2), ?_, .inr ⟨i, rfl, hi⟩, hle, fun _ => hsmall hleast (by decide)⟩
      rw [newMax, if_pos (Nat.pos_of_ne_zero hzero), if_pos rfl]
      exact hrun
  · obtain ⟨i, hrun, hi, hle, hleast⟩ :=
      newMax_pow hnum (Nat.add_sub_cancel' hk) (show 29 - k < fuel + 1 by omega)
    exact ⟨2 ^ (i + 2), hrun, .inr ⟨i, rfl, hi⟩, hle, hsmall hleast⟩

/-- **The loop does not end** if the size is larger. -/
theorem newMax_diverges {num : Nat} (hnum : 2 ^ 31 < num) :
    ∀ {fuel newmax : Nat}, Doubling newmax → newMax num fuel newmax = .error .diverges
  | 0, _, _ => rfl
  | fuel + 1, newmax, hpow => by
    have hlt : newmax < num := by
      rcases hpow with rfl | ⟨k, rfl, hk⟩
      · omega
      · exact lt_of_le_of_lt (Nat.pow_le_pow_right (by decide) (by omega)) hnum
    rw [newMax, if_pos hlt]
    refine newMax_diverges hnum ?_
    rcases hpow with rfl | ⟨k, rfl, hk⟩
    · exact .inr ⟨0, rfl, by decide⟩
    · by_cases hlast : k = 29
      · subst hlast
        exact .inl (by decide)
      · rw [double_pow (by omega)]
        exact .inr ⟨k + 1, rfl, by omega⟩

/-- The number of bytes of a block: it wraps around to 0, or not at all. -/
theorem Doubling.bytes {m : Nat} (h : Doubling m) (hne : Word.mul m 4 ≠ 0) :
    Word.mul m 4 = 4 * m ∧ m ≤ 2 ^ 29 := by
  rcases h with rfl | ⟨k, rfl, hk⟩
  · exact absurd rfl hne
  · by_cases hsmall : k + 2 ≤ 29
    · have hle : 2 ^ (k + 2) ≤ 2 ^ 29 := Nat.pow_le_pow_right (by decide) hsmall
      exact ⟨by rw [Word.mul_eq, Nat.mul_comm], hle⟩
    · obtain rfl | rfl : k = 28 ∨ k = 29 := by omega
      · exact absurd (by decide) hne
      · exact absurd (by decide) hne

theorem KArray.Wf.doubling (h : a.Wf) : Doubling a.max := by
  rcases h.pow with hzero | ⟨k, hk⟩
  · exact .inl hzero
  · have hle := (Nat.pow_le_pow_iff_right (by decide)).1 (hk ▸ h.le : 2 ^ (k + 2) ≤ 2 ^ 29)
    exact .inr ⟨k, hk, by omega⟩

/-! ### One element less -/

theorem arrayRemove_max {b : KArray α} (hrun : arrayRemove a i = .ok b) : b.max = a.max := by
  obtain ⟨_, -, hrun⟩ := of_bind hrun
  obtain ⟨_, -, hrun⟩ := of_bind hrun
  cases hrun
  rfl

/-- **`array_remove` takes one element out**, and leaves the order of the others. -/
theorem arrayRemove_ok (h : a.Wf) (hi : i < a.num) :
    ∃ b, arrayRemove a i = .ok b ∧ b.Wf ∧ b.elems = a.elems.eraseIdx i := by
  have hle := h.num_le
  have hmax := h.le
  have hlen := h.length
  have hmove : Word.mul (Word.sub a.num (Word.add i 1)) 4 / 4 = a.num - (i + 1) := by
    rw [Word.add_eq, Word.sub_eq, Word.mul_eq,
      Nat.mul_div_cancel _ (by decide)]
  have hmoved : ((a.v.drop (i + 1)).take (a.num - (i + 1))).length = a.num - (i + 1) := by
    rw [List.length_take, List.length_drop]
    omega
  have hremove : arrayRemove a i = .ok { a with
      v := a.v.take i ++ (a.v.drop (i + 1)).take (a.num - (i + 1)) ++ a.v.drop (a.num - 1)
      num := a.num - 1 } := by
    rw [arrayRemove, decide_eq_true hle, assert_true, ok_bind, decide_eq_true hi, assert_true,
      ok_bind]
    dsimp only
    rw [hmove, hmoved, Word.sub_eq,
      show i + (a.num - (i + 1)) = a.num - 1 by omega]
  refine ⟨_, hremove, ⟨?_, Nat.le_trans (Nat.sub_le _ _) hle, h.pow, h.le⟩, ?_⟩
  · rw [List.length_append, List.length_append, hmoved, List.length_take, List.length_drop]
    dsimp only
    omega
  · have hfirst : (a.v.take i ++ (a.v.drop (i + 1)).take (a.num - (i + 1))).length = a.num - 1 := by
      rw [List.length_append, hmoved, List.length_take]
      omega
    calc List.take (a.num - 1) (a.v.take i ++ (a.v.drop (i + 1)).take (a.num - (i + 1)) ++
          a.v.drop (a.num - 1))
        = a.v.take i ++ (a.v.drop (i + 1)).take (a.num - (i + 1)) := List.take_left' hfirst
      _ = (a.v.take a.num).eraseIdx i := by
          rw [List.eraseIdx_eq_take_drop_succ, List.take_take, Nat.min_eq_left (by omega),
            List.drop_take]

variable [Inhabited α]

theorem moveBlock_take (h : a.Wf) {bytes : Nat} (hb : 4 * a.num ≤ bytes) :
    (moveBlock a bytes).length = bytes / 4 ∧ (moveBlock a bytes).take a.num = a.elems := by
  have hnum : Word.mul a.num 4 / 4 = a.num := by
    have := h.num_le.trans h.le
    rw [Word.mul_eq, Nat.mul_div_cancel _ (by decide)]
  have hlen := h.length_elems
  rw [moveBlock, hnum]
  change (a.elems ++ List.replicate (bytes / 4 - a.elems.length) default).length = bytes / 4 ∧
    (a.elems ++ List.replicate (bytes / 4 - a.elems.length) default).take a.num = a.elems
  rw [List.length_append, List.length_replicate, List.take_append_of_le_length (le_of_eq hlen.symm),
    List.take_of_length_le (le_of_eq hlen), hlen]
  exact ⟨by omega, rfl⟩

/-- **`array_setsize`** keeps the elements, or `kmalloc` fails, or it does not return. -/
theorem arraySetsize_cases (h : a.Wf) (num : Nat) :
    (num ≤ 2 ^ 29 ∧ ∃ b : KArray α, arraySetsize a num = .ok (0, b) ∧ b.Wf ∧ b.num = num ∧
      b.v.take a.num = a.elems) ∨
    (2 ^ 29 < num ∧ num ≤ 2 ^ 31 ∧ arraySetsize a num = .ok (enomem, a)) ∨
    (2 ^ 31 < num ∧ arraySetsize a num = .error .diverges) := by
  rw [arraySetsize]
  by_cases hroom : a.max < num
  · rw [if_pos hroom]
    by_cases hnum : num ≤ 2 ^ 31
    · obtain ⟨m, hrun, hpow, hle, hsmall⟩ := newMax_ends hnum h.doubling
        (show 31 ≤ loopFuel by decide)
      rw [hrun, ok_bind]
      by_cases hbytes : Word.mul m 4 = 0
      · have hbig : 2 ^ 29 < num := by
          by_contra hnot
          have hm := hsmall h.le (Nat.not_lt.1 hnot)
          rw [Word.mul_eq] at hbytes
          omega
        rw [if_pos hbytes]
        exact .inr (.inl ⟨hbig, hnum, rfl⟩)
      · obtain ⟨heq, hm⟩ := hpow.bytes hbytes
        obtain ⟨hlen, htake⟩ := moveBlock_take h (show 4 * a.num ≤ Word.mul m 4 by
          have := h.num_le
          omega)
        rw [if_neg hbytes]
        refine .inl ⟨hle.trans hm, _, rfl, ⟨?_, hle, ?_, hm⟩, rfl, htake⟩
        · rw [hlen, heq, Nat.mul_div_cancel_left _ (by decide)]
        · exact hpow.imp id fun ⟨k, hk, _⟩ => ⟨k, hk⟩
    · rw [newMax_diverges (Nat.not_le.1 hnum) h.doubling]
      exact .inr (.inr ⟨Nat.not_le.1 hnum, rfl⟩)
  · rw [if_neg hroom]
    exact .inl ⟨(Nat.not_lt.1 hroom).trans h.le, _, rfl,
      ⟨h.length, Nat.not_lt.1 hroom, h.pow, h.le⟩, rfl, rfl⟩

theorem arraySetsize_le (h : a.Wf) {num : Nat} (hnum : num ≤ a.num) :
    ∃ b : KArray α, arraySetsize a num = .ok (0, b) ∧ b.Wf ∧ b.elems = a.elems.take num := by
  have hle := h.num_le
  have hmax := h.le
  rcases arraySetsize_cases h num with ⟨-, b, hset, hb, hbnum, htake⟩ | ⟨hbig, -⟩ | ⟨hbig, -⟩
  · refine ⟨b, hset, hb, ?_⟩
    rw [KArray.elems, hbnum, ← htake, List.take_take, Nat.min_eq_left hnum]
  · omega
  · omega

/-- **`array_add` appends the value**, or `kmalloc` fails. -/
theorem arrayAdd_cases (h : a.Wf) (x : α) :
    (a.num < 2 ^ 29 ∧ ∃ b : KArray α, arrayAdd a x = .ok (0, a.num, b) ∧ b.Wf ∧
      b.elems = a.elems ++ [x]) ∨
    (a.num = 2 ^ 29 ∧ arrayAdd a x = .ok (enomem, a.num, a)) := by
  have hle := h.num_le.trans h.le
  have hadd : Word.add a.num 1 = a.num + 1 := Word.add_eq
  rcases arraySetsize_cases h (a.num + 1) with
    ⟨hlt, b, hset, hb, hnum, htake⟩ | ⟨hnum, -, hset⟩ | ⟨hbig, -⟩
  · have hroom : a.num < b.v.length := by
      have := hb.num_le
      rw [hb.length]
      omega
    refine .inl ⟨hlt, { b with v := b.v.set a.num x }, ?_, hb.set _ _, ?_⟩
    · rw [arrayAdd]
      rw [hadd, hset, ok_bind]
      dsimp only
      rw [if_neg (by decide), List.getElem?_eq_getElem hroom, deref_some, ok_bind]
    · have hlast : b.elems = a.elems ++ [b.v[a.num]] := by
        rw [KArray.elems, hnum, List.take_add_one, htake, List.getElem?_eq_getElem hroom,
          Option.toList_some]
      rw [KArray.elems_set, hlast, List.set_append_right _ _ (le_of_eq h.length_elems),
        h.length_elems, Nat.sub_self]
      rfl
  · refine .inr ⟨by omega, ?_⟩
    rw [arrayAdd]
    rw [hadd, hset, ok_bind]
    exact if_pos (by decide)
  · omega

end

end JinxOS
