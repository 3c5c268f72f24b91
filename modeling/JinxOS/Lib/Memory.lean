import JinxOS.Lib.Word

/-!
# Byte memory with little-endian words

Memory is a total function from addresses to bytes.  `ByteMem.load` and `ByteMem.store` move one
32-bit word, low byte first; `ByteMem.memset`, `ByteMem.memcpy` and `ByteMem.memcpyDown` are the
byte loops, and `ByteMem.copyWords` the loop that copies words.  The file provides the three facts
that symbolic execution over such a memory uses again and again:

* what was stored is read back (`load_store_same`);
* a store does not disturb a disjoint word (`load_store_of_disjoint`) or byte (`store_apply`);
* a word depends on its four bytes only (`load_congr`), which is how a statement of the form
  "everything outside this region is unchanged" is put to use.

What a copy is for is `ByteMem.moved`, which does not know of a direction.  A loop that begins with
the last byte does that if the target is above the source, and one that begins with the first byte
if it is below; `memcpy_eq_moved_iff` says when the latter does it above the source.
-/

/-- Byte-addressed memory. -/
abbrev ByteMem := Nat → UInt8

namespace ByteMem

open Function (update update_of_ne update_self update_apply)

/-- The little-endian word at `a`. -/
def load (m : ByteMem) (a : Nat) : Nat :=
  (m a).toNat + 2 ^ 8 * (m (a + 1)).toNat + 2 ^ 16 * (m (a + 2)).toNat
    + 2 ^ 24 * (m (a + 3)).toNat

/-- Overwrite the word at `a`. -/
def store (m : ByteMem) (a v : Nat) : ByteMem := fun x =>
  if x = a then UInt8.ofNat v
  else if x = a + 1 then UInt8.ofNat (v / 2 ^ 8)
  else if x = a + 2 then UInt8.ofNat (v / 2 ^ 16)
  else if x = a + 3 then UInt8.ofNat (v / 2 ^ 24)
  else m x

/-- Set the `n` bytes from `a` on to `v`, one after the other.  The pointer is a word. -/
def memset (m : ByteMem) (a : Nat) (v : UInt8) : Nat → ByteMem
  | 0 => m
  | n + 1 => memset (update m a v) (Word.add a 1) v n

/-- Copy `n` bytes from `src` to `dst`, the first one first.  The pointers are words. -/
def memcpy (m : ByteMem) (dst src : Nat) : Nat → ByteMem
  | 0 => m
  | n + 1 => memcpy (update m dst (m src)) (Word.add dst 1) (Word.add src 1) n

/-- Copy the `n` bytes in front of `src` to those in front of `dst`, the last one first.  The
pointers are words. -/
def memcpyDown (m : ByteMem) (dst src : Nat) : Nat → ByteMem
  | 0 => m
  | n + 1 =>
    memcpyDown (update m (Word.sub dst 1) (m (Word.sub src 1))) (Word.sub dst 1)
      (Word.sub src 1) n

/-- The `n` bytes at `src` are at `dst`, and all others are where they were. -/
def moved (m : ByteMem) (dst src n : Nat) : ByteMem := fun x =>
  if dst ≤ x ∧ x < dst + n then m (x - dst + src) else m x

/-- Copy `n` words from `src` to `dst`, the first one first.  The pointers are words. -/
def copyWords (m : ByteMem) (src dst : Nat) : Nat → ByteMem
  | 0 => m
  | n + 1 =>
    let m' := copyWords m src dst n
    m'.store (Word.add dst (Word.mul 4 n)) (m'.load (Word.add src (Word.mul 4 n)))

variable {m m' : ByteMem} {a b v x src dst n : Nat}

theorem load_lt (m : ByteMem) (a : Nat) : m.load a < 2 ^ 32 := by
  have h0 := (m a).toNat_lt
  have h1 := (m (a + 1)).toNat_lt
  have h2 := (m (a + 2)).toNat_lt
  have h3 := (m (a + 3)).toNat_lt
  rw [load]
  omega

theorem load_of_bytes (h : ∀ i, i < 4 → m (a + i) = m' (b + i)) : m.load a = m'.load b := by
  have hfirst : m a = m' b := h 0 (by decide)
  rw [load, load, hfirst, h 1 (by decide), h 2 (by decide), h 3 (by decide)]

theorem load_congr (h : ∀ x, a ≤ x → x < a + 4 → m' x = m x) : m'.load a = m.load a :=
  load_of_bytes fun i hi => h (a + i) (Nat.le_add_right a i) (Nat.add_lt_add_left hi a)

theorem store_apply (h : x < a ∨ a + 4 ≤ x := by omega) : m.store a v x = m x := by
  rw [store, if_neg (by omega), if_neg (by omega), if_neg (by omega), if_neg (by omega)]

theorem load_store_same (hv : v < 2 ^ 32) : (m.store a v).load a = v := by
  have h1 : ¬ a + 1 = a := by omega
  have h2 : ¬ a + 2 = a ∧ ¬ a + 2 = a + 1 := by omega
  have h3 : ¬ a + 3 = a ∧ ¬ a + 3 = a + 1 ∧ ¬ a + 3 = a + 2 := by omega
  simp only [load, store, if_true, if_neg h1, if_neg h2.1, if_neg h2.2, if_neg h3.1,
    if_neg h3.2.1, if_neg h3.2.2, UInt8.toNat_ofNat']
  omega

theorem load_store_of_disjoint (h : b + 4 ≤ a ∨ a + 4 ≤ b := by omega) :
    (m.store a v).load b = m.load b :=
  load_congr fun _ _ _ => store_apply

theorem store_load_apply (m m' : ByteMem) (a b : Nat) {i : Nat} (hi : i < 4) :
    m'.store a (m.load b) (a + i) = m (b + i) := by
  have h0 := (m b).toNat_lt
  have h1 := (m (b + 1)).toNat_lt
  have h2 := (m (b + 2)).toNat_lt
  have h3 := (m (b + 3)).toNat_lt
  apply UInt8.toNat_inj.1
  match i, hi with
  | 0, _ =>
    simp only [store, load, Nat.add_zero, if_true, UInt8.toNat_ofNat']
    omega
  | 1, _ =>
    simp only [store, load, Nat.add_eq_left, Nat.one_ne_zero, if_true, if_false, UInt8.toNat_ofNat']
    omega
  | 2, _ =>
    rw [store, if_neg (by omega), if_neg (by omega), if_pos rfl, load, UInt8.toNat_ofNat']
    omega
  | 3, _ =>
    rw [store, if_neg (by omega), if_neg (by omega), if_neg (by omega), if_pos rfl, load,
      UInt8.toNat_ofNat']
    omega

theorem store_load_self (m : ByteMem) (a : Nat) : m.store a (m.load a) = m := by
  funext x
  by_cases hx : a ≤ x ∧ x < a + 4
  · obtain ⟨i, rfl⟩ := Nat.exists_eq_add_of_le hx.1
    exact store_load_apply m m a a (by omega)
  · exact store_apply

/-- **Copying downwards.**  The loop moves the words even if source and target overlap, because a
word is read before the loop reaches it as a target. -/
theorem copyWords_apply (hle : dst ≤ src) :
    ∀ (n : Nat), src + 4 * n ≤ 2 ^ 32 → ∀ x, m.copyWords src dst n x =
      if dst ≤ x ∧ x < dst + 4 * n then m (x - dst + src) else m x := by
  intro n
  induction n with
  | zero =>
    intro _ x
    rw [copyWords, if_neg (by omega)]
  | succ n ih =>
    intro hfit x
    rw [copyWords, Word.mul_eq, Word.add_eq, Word.add_eq]
    by_cases hx : dst + 4 * n ≤ x ∧ x < dst + 4 * n + 4
    · obtain ⟨i, rfl⟩ := Nat.exists_eq_add_of_le hx.1
      rw [store_load_apply _ _ _ _ (by omega), ih (by omega), if_neg (by omega), if_pos (by omega)]
      congr 1
      omega
    · rw [store_apply, ih (by omega)]
      by_cases hin : dst ≤ x ∧ x < dst + 4 * n
      · rw [if_pos hin, if_pos (by omega)]
      · rw [if_neg hin, if_neg (by omega)]

theorem memcpy_succ (hdst : dst + (n + 1) ≤ 2 ^ 32) (hsrc : src + (n + 1) ≤ 2 ^ 32) :
    m.memcpy dst src (n + 1) = memcpy (update m dst (m src)) (dst + 1) (src + 1) n := by
  cases n with
  | zero => rfl
  | succ n => rw [memcpy, Word.add_eq, Word.add_eq]

theorem memcpy_frame : ∀ (n : Nat) {m : ByteMem} {dst src x : Nat}, dst + n ≤ 2 ^ 32 →
    src + n ≤ 2 ^ 32 → (x < dst ∨ dst + n ≤ x) → m.memcpy dst src n x = m x
  | 0, _, _, _, _, _, _, _ => rfl
  | n + 1, m, dst, src, x, hdst, hsrc, hx => by
    rw [memcpy_succ hdst hsrc, memcpy_frame n (by omega) (by omega) (by omega),
      update_of_ne (by omega)]

/-- **Copying bytes forwards.**  The loop moves the bytes if the target begins before the source,
even if they overlap, or if they do not: no byte is written before it is read. -/
theorem memcpy_apply : ∀ (n : Nat) {m : ByteMem} {dst src : Nat}, dst ≤ src ∨ src + n ≤ dst →
    dst + n ≤ 2 ^ 32 → src + n ≤ 2 ^ 32 → ∀ x, m.memcpy dst src n x =
      if dst ≤ x ∧ x < dst + n then m (x - dst + src) else m x
  | 0, m, dst, src, _, _, _, x => by rw [memcpy, if_neg (by omega)]
  | n + 1, m, dst, src, hapart, hdst, hsrc, x => by
    rw [memcpy_succ hdst hsrc, memcpy_apply n (by omega) (by omega) (by omega)]
    by_cases hx : dst + 1 ≤ x ∧ x < dst + 1 + n
    · rw [if_pos hx, if_pos (by omega), update_of_ne (by omega)]
      congr 1
      omega
    · rw [if_neg hx]
      by_cases hfirst : x = dst
      · rw [hfirst, update_self, if_pos (by omega), Nat.sub_self, Nat.zero_add]
      · rw [update_of_ne hfirst, if_neg (by omega)]

/-- Copying forwards to a higher address: in the end the target has what the source has in the end,
because the loop does not come back to a byte that it has read. -/
theorem memcpy_repeats : ∀ (n : Nat) {m : ByteMem} {dst src : Nat}, src < dst →
    dst + n ≤ 2 ^ 32 → ∀ i, i < n → m.memcpy dst src n (dst + i) = m.memcpy dst src n (src + i)
  | 0, _, _, _, _, _, _, hi => absurd hi (Nat.not_lt_zero _)
  | n + 1, m, dst, src, hlt, hdst, i, hi => by
    rw [memcpy_succ hdst (by omega)]
    cases i with
    | zero =>
      rw [memcpy_frame n (by omega) (by omega) (by omega),
        memcpy_frame n (by omega) (by omega) (by omega), Nat.add_zero, Nat.add_zero,
        update_self, update_of_ne (by omega)]
    | succ i =>
      have hnext : ∀ a, a + (i + 1) = a + 1 + i := fun a => by omega
      rw [hnext, hnext]
      exact memcpy_repeats n (by omega) (by omega) i (by omega)

/-- **When copying forwards moves the bytes**: if the target begins before the source, or if the
part of the source that is overwritten has what is written there anyway. -/
theorem memcpy_eq_moved_iff (hdst : dst + n ≤ 2 ^ 32) (hsrc : src + n ≤ 2 ^ 32) :
    m.memcpy dst src n = m.moved dst src n ↔
      dst ≤ src ∨ ∀ i, dst + i < src + n → m (dst + i) = m (src + i) := by
  rcases Nat.lt_or_ge src dst with hlt | hge
  · have hmoved : ∀ i, i < n → m.moved dst src n (dst + i) = m (src + i) := by
      intro i hi
      rw [moved, if_pos (by omega)]
      congr 1
      omega
    constructor
    · -- a byte of the overlap is read as a source, and written as a target before
      refine fun heq => .inr fun i hi => ?_
      obtain ⟨d, rfl⟩ := Nat.exists_eq_add_of_lt hlt
      have hrep := memcpy_repeats n (m := m) hlt hdst (i + d + 1) (by omega)
      rw [heq, hmoved _ (by omega), show src + (i + d + 1) = src + d + 1 + i by omega,
        hmoved _ (by omega)] at hrep
      exact hrep
    · intro hsame
      have hover := hsame.resolve_left (Nat.not_le.2 hlt)
      have hbytes : ∀ i, i < n → m.memcpy dst src n (dst + i) = m (src + i) := by
        intro i
        induction i using Nat.strong_induction_on with
        | _ i ih =>
          intro hi
          rw [memcpy_repeats n hlt hdst i hi]
          rcases Nat.lt_or_ge (src + i) dst with hfront | hback
          · exact memcpy_frame n hdst hsrc (.inl hfront)
          · obtain ⟨j, hj⟩ := Nat.exists_eq_add_of_le hback
            rw [hj, ih j (by omega) (by omega)]
            exact (hover j (by omega)).symm
      funext x
      by_cases hx : dst ≤ x ∧ x < dst + n
      · obtain ⟨i, rfl⟩ := Nat.exists_eq_add_of_le hx.1
        rw [hbytes i (by omega), hmoved i (by omega)]
      · rw [memcpy_frame n hdst hsrc (by omega), moved, if_neg hx]
  · exact iff_of_true (funext (memcpy_apply n (.inl hge) hdst hsrc)) (.inl hge)

/-- **Copying bytes backwards** to a higher address: no byte is written before it is read. -/
theorem memcpyDown_eq_moved : ∀ (n : Nat) {m : ByteMem} {dst src : Nat}, src ≤ dst →
    dst + n ≤ 2 ^ 32 → m.memcpyDown (Word.add dst n) (Word.add src n) n = m.moved dst src n
  | 0, m, dst, src, _, _ => by
    funext x
    rw [memcpyDown, moved, if_neg (by omega)]
  | n + 1, m, dst, src, hle, hdst => by
    have hlast : ∀ a, a + n < 2 ^ 32 → Word.sub (Word.add a (n + 1)) 1 = Word.add a n := by
      intro a ha
      rw [Word.sub, Word.add, Word.add]
      omega
    rw [memcpyDown, hlast dst (by omega), hlast src (by omega),
      memcpyDown_eq_moved n hle (by omega), Word.add_eq, Word.add_eq]
    funext x
    rw [moved, moved]
    by_cases hx : dst ≤ x ∧ x < dst + n
    · rw [if_pos hx, if_pos (by omega), update_of_ne (by omega)]
    · rw [if_neg hx]
      by_cases hx' : x = dst + n
      · rw [hx', update_self, if_pos (by omega)]
        congr 1
        omega
      · rw [update_of_ne hx', if_neg (by omega)]

/-- The loop sets exactly the bytes of its range, if the range does not wrap around. -/
theorem memset_apply (v : UInt8) (n : Nat) :
    ∀ (m : ByteMem) (a x : Nat), a + n ≤ 2 ^ 32 →
      m.memset a v n x = if a ≤ x ∧ x < a + n then v else m x := by
  induction n with
  | zero => intro m a x _; rw [memset, if_neg (by omega)]
  | succ n ih =>
    intro m a x ha
    have hstep : memset (update m a v) (Word.add a 1) v n x
        = if a + 1 ≤ x ∧ x < a + 1 + n then v else update m a v x := by
      cases n with
      | zero => rw [memset, if_neg (by omega)]
      | succ n =>
        rw [Word.add_eq]
        exact ih _ (a + 1) x (by omega)
    rw [memset, hstep, update_apply]
    by_cases hx : x = a
    · subst hx
      rw [if_neg (by omega), if_pos rfl, if_pos (by omega)]
    · by_cases hr : a ≤ x ∧ x < a + (n + 1)
      · rw [if_pos (by omega), if_pos hr]
      · rw [if_neg (by omega), if_neg hx, if_neg hr]

/-- A range that may wrap around: the pointer comes to the byte at `x` after as many iterations as
it is away. -/
theorem memset_wrap (v : UInt8) : ∀ (n : Nat) (m : ByteMem) {a : Nat} (x : Nat), a < 2 ^ 32 →
    n ≤ 2 ^ 32 → m.memset a v n x = if x < 2 ^ 32 ∧ Word.sub x a < n then v else m x
  | 0, m, a, x, _, _ => by rw [memset, if_neg (by omega)]
  | n + 1, m, a, x, ha, hn => by
    rw [memset, memset_wrap v n _ x (Word.add_lt a 1) (by omega), update_apply]
    by_cases hx : x = a
    · rw [if_pos hx, ite_self, hx, if_pos ⟨ha, by rw [Word.sub]; omega⟩]
    · rw [if_neg hx]
      congr 1
      rw [Word.sub, Word.sub, Word.add, eq_iff_iff]
      omega

theorem memset_of_mem {v : UInt8} (ha : a + n ≤ 2 ^ 32) (h : a ≤ x ∧ x < a + n) :
    m.memset a v n x = v := by
  rw [memset_apply v n m a x ha, if_pos h]

theorem memset_of_not_mem {v : UInt8} (ha : a + n ≤ 2 ^ 32) (h : x < a ∨ a + n ≤ x) :
    m.memset a v n x = m x := by
  rw [memset_apply v n m a x ha, if_neg (by omega)]

end ByteMem

export ByteMem (store_apply load_store_same load_congr load_store_of_disjoint)
