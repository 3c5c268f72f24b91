import JinxOS.Lib.Memory

/-!
# 16-bit words in byte memory

`ByteMem.load16` and `ByteMem.store16` move two bytes, the low one first, and `ByteMem.memsetw` is
the loop that fills an array of them.  As for words of four bytes, all that is used of them later is
that what was stored is read back, and that a store does not disturb what is disjoint from it.
-/

namespace ByteMem

/-- The 16-bit word at `a`. -/
def load16 (m : ByteMem) (a : Nat) : UInt16 := .ofNat ((m a).toNat + 2 ^ 8 * (m (a + 1)).toNat)

/-- Overwrite the 16-bit word at `a`. -/
def store16 (m : ByteMem) (a : Nat) (v : UInt16) : ByteMem := fun x =>
  if x = a then .ofNat v.toNat else if x = a + 1 then .ofNat (v.toNat / 2 ^ 8) else m x

/-- Set `n` 16-bit words from `a` on to `v`, one after the other.  The pointer is a word. -/
def memsetw (m : ByteMem) (a : Nat) (v : UInt16) : Nat → ByteMem
  | 0 => m
  | n + 1 => memsetw (m.store16 a v) (Word.add a 2) v n

variable {m m' : ByteMem} {a b n : Nat} {v : UInt16}

theorem load16_of_bytes (hlow : m a = m' b) (hhigh : m (a + 1) = m' (b + 1)) :
    m.load16 a = m'.load16 b := by
  rw [load16, load16, hlow, hhigh]

theorem load16_store16_same : (m.store16 a v).load16 a = v := by
  have hv := v.toNat_lt
  have hne : ¬ a + 1 = a := Nat.succ_ne_self a
  rw [load16, store16, if_pos rfl, store16, if_neg hne, if_pos rfl, UInt8.toNat_ofNat',
    UInt8.toNat_ofNat']
  refine (congrArg UInt16.ofNat ?_).trans UInt16.ofNat_toNat
  omega

theorem load16_store16_of_disjoint (h : b + 2 ≤ a ∨ a + 2 ≤ b) :
    (m.store16 a v).load16 b = m.load16 b := by
  refine load16_of_bytes ?_ ?_ <;> rw [store16, if_neg (by omega), if_neg (by omega)]

theorem memsetw_succ (hfit : a + 2 * (n + 1) ≤ 2 ^ 32) :
    m.memsetw a v (n + 1) = (m.store16 a v).memsetw (a + 2) v n := by
  cases n with
  | zero => rfl
  | succ n => rw [memsetw, Word.add_eq]

theorem memsetw_frame : ∀ (n : Nat) {m : ByteMem} {a x : Nat}, a + 2 * n ≤ 2 ^ 32 → x < a →
    m.memsetw a v n x = m x
  | 0, _, _, _, _, _ => rfl
  | n + 1, m, a, x, hfit, hx => by
    rw [memsetw_succ hfit, memsetw_frame n (by omega) (by omega), store16, if_neg (by omega),
      if_neg (by omega)]

/-- The loop sets the words of its range, if the range does not wrap around. -/
theorem load16_memsetw : ∀ (n : Nat) {m : ByteMem} {a i : Nat}, a + 2 * n ≤ 2 ^ 32 → i < n →
    (m.memsetw a v n).load16 (a + 2 * i) = v
  | n + 1, m, a, i, hfit, hi => by
    rw [memsetw_succ hfit]
    cases i with
    | zero =>
      have hfirst : ((m.store16 a v).memsetw (a + 2) v n).load16 a = (m.store16 a v).load16 a :=
        load16_of_bytes (memsetw_frame n (by omega) (by omega))
          (memsetw_frame n (by omega) (by omega))
      exact hfirst.trans load16_store16_same
    | succ i =>
      rw [show a + 2 * (i + 1) = a + 2 + 2 * i by omega]
      exact load16_memsetw n (by omega) (Nat.lt_of_succ_lt_succ hi)

end ByteMem
