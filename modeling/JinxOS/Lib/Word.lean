import Mathlib.Data.Nat.Bitwise

/-!
# 32-bit words as natural numbers

A machine word is a `Nat` below `2 ^ 32`.  Addition and subtraction wrap, which is what the
operations `Word.add` and `Word.sub` do; everything a program proof needs about them is that they
do *not* wrap once the operands are in range (`Word.add_eq`, `Word.sub_eq`), so that after one
rewriting step the goal is plain arithmetic for `omega`.  That they are in range is left to `omega`
too, where no proof is given.

The second half is about words that carry flags in their two low bits, the usual trick of an
allocator whose sizes are multiples of four.  Such a word is `n + r` with `n` a multiple of four
and `r < 4`, and each bit operation with a flag constant acts on `r` alone.
-/

namespace Word

/-- Addition of unsigned words. -/
def add (a b : Nat) : Nat := (a + b) % 2 ^ 32

/-- Subtraction of unsigned words. -/
def sub (a b : Nat) : Nat := (a + (2 ^ 32 - b % 2 ^ 32)) % 2 ^ 32

/-- Multiplication of unsigned words. -/
def mul (a b : Nat) : Nat := a * b % 2 ^ 32

theorem add_lt (a b : Nat) : add a b < 2 ^ 32 := Nat.mod_lt _ (by decide)

theorem sub_lt (a b : Nat) : sub a b < 2 ^ 32 := Nat.mod_lt _ (by decide)

theorem add_eq {a b : Nat} (h : a + b < 2 ^ 32 := by omega) : add a b = a + b := Nat.mod_eq_of_lt h

theorem mul_eq {a b : Nat} (h : a * b < 2 ^ 32 := by omega) : mul a b = a * b := Nat.mod_eq_of_lt h

theorem sub_eq {a b : Nat} (hab : b ≤ a := by omega) (h : a < 2 ^ 32 := by omega) :
    sub a b = a - b := by
  rw [sub]
  omega

theorem add_sub_cancel {a b : Nat} (h : a + b < 2 ^ 32 := by omega) : sub (a + b) b = a := by
  rw [sub_eq (Nat.le_add_left ..) h, Nat.add_sub_cancel]

/-! ## Flags in the low bits -/

/-- The high part of a tagged word has no bit in common with a flag constant. -/
theorem testBit_flag {q i : Nat} (hq : q < 4) (hi : ¬ i < 2) : q.testBit i = false :=
  Nat.testBit_lt_two_pow
    (lt_of_lt_of_le hq (Nat.pow_le_pow_right (n := 2) (by omega) (show 2 ≤ i by omega)))

section
variable {n r q : Nat} (hn : n % 4 = 0) (hr : r < 4) (hq : q < 4)
include hn hr hq

theorem or_flags : (n + r) ||| q = n + (r ||| q) := by
  have hn4 : n = 2 ^ 2 * (n / 4) := by omega
  have hrq : r ||| q < 2 ^ 2 := Nat.or_lt_two_pow hr hq
  refine Nat.eq_of_testBit_eq fun i => ?_
  rw [hn4, Nat.testBit_or, Nat.testBit_two_pow_mul_add _ hr, Nat.testBit_two_pow_mul_add _ hrq,
    Nat.testBit_or]
  split
  · rfl
  · rw [testBit_flag hq ‹_›, Bool.or_false]

theorem xor_flags : (n + r) ^^^ q = n + (r ^^^ q) := by
  have hn4 : n = 2 ^ 2 * (n / 4) := by omega
  have hrq : r ^^^ q < 2 ^ 2 := Nat.xor_lt_two_pow hr hq
  refine Nat.eq_of_testBit_eq fun i => ?_
  rw [hn4, Nat.testBit_xor, Nat.testBit_two_pow_mul_add _ hr, Nat.testBit_two_pow_mul_add _ hrq,
    Nat.testBit_xor]
  split
  · rfl
  · rw [testBit_flag hq ‹_›, Bool.xor_false]

theorem and_flags : (n + r) &&& q = r &&& q := by
  have hn4 : n = 2 ^ 2 * (n / 4) := by omega
  refine Nat.eq_of_testBit_eq fun i => ?_
  rw [hn4, Nat.testBit_and, Nat.testBit_two_pow_mul_add _ hr, Nat.testBit_and]
  split
  · rfl
  · rw [testBit_flag hq ‹_›, Bool.and_false, Bool.and_false]

end

theorem or_flag {n q : Nat} (hn : n % 4 = 0) (hq : q < 4) : n ||| q = n + q := by
  have h := or_flags (r := 0) hn (by omega) hq
  rwa [Nat.add_zero, Nat.zero_or] at h

/-- Masking off the low bits of a word rounds it down to a multiple of a power of two. -/
theorem and_mask {n k : Nat} (hn : n < 2 ^ 32) (hk : k ≤ 32) :
    n &&& (2 ^ 32 - 2 ^ k) = n - n % 2 ^ k := by
  have hround : n - n % 2 ^ k = n / 2 ^ k * 2 ^ k := by
    have := Nat.div_add_mod' n (2 ^ k)
    omega
  have hmask : 2 ^ 32 - 2 ^ k = (2 ^ (32 - k) - 1) * 2 ^ k := by
    rw [Nat.sub_mul, ← Nat.pow_add, Nat.sub_add_cancel hk, Nat.one_mul]
  rw [hround, hmask]
  refine Nat.eq_of_testBit_eq fun i => ?_
  rw [Nat.testBit_and, Nat.testBit_mul_two_pow, Nat.testBit_mul_two_pow,
    Nat.testBit_two_pow_sub_one, Nat.testBit_div_two_pow]
  by_cases hi : k ≤ i
  · by_cases hi' : i - k < 32 - k
    · simp [hi, hi', Nat.sub_add_cancel hi]
    · have hz : n.testBit i = false :=
        Nat.testBit_lt_two_pow (lt_of_lt_of_le hn (Nat.pow_le_pow_right (by omega)
          (by omega)))
      simp [hi, hi', hz, Nat.sub_add_cancel hi]
  · simp [hi]

end Word
