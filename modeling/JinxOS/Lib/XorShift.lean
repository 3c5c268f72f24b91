import Mathlib.Data.BitVec
import Mathlib.Data.FinEnum

/-!
# Xor-shifts

`x ^ (x << k)` and `x ^ (x >> k)` are what linear generators of random numbers are made of.  The
lowest `k` bits of the first one are those of `x`, and every other bit is that of `x` and one that
is `k` places further down, so the bits of `x` can be told from it one after the other
(`left_injective`); the same goes for the second one, from the other end (`right_injective`).
There are finitely many words, and so both are bijections.
-/

namespace XorShift

variable {w k : Nat}

/-- `x ^ (x << k)`. -/
def left (k : Nat) (x : BitVec w) : BitVec w := x ^^^ (x <<< k)

/-- `x ^ (x >> k)`. -/
def right (k : Nat) (x : BitVec w) : BitVec w := x ^^^ (x >>> k)

theorem left_zero (k : Nat) : left k (0 : BitVec w) = 0 := by simp [left]

theorem right_zero (k : Nat) : right k (0 : BitVec w) = 0 := by simp [right]

theorem getLsbD_left (x : BitVec w) (i : Nat) :
    (left k x).getLsbD i =
      (x.getLsbD i ^^ (decide (i < w) && !decide (i < k) && x.getLsbD (i - k))) := by
  rw [left, BitVec.getLsbD_xor, BitVec.getLsbD_shiftLeft]

theorem getLsbD_right (x : BitVec w) (i : Nat) :
    (right k x).getLsbD i = (x.getLsbD i ^^ x.getLsbD (k + i)) := by
  rw [right, BitVec.getLsbD_xor, BitVec.getLsbD_ushiftRight]

theorem left_injective (hk : 0 < k) : Function.Injective (left k : BitVec w → BitVec w) := by
  intro x y hxy
  have hbit : ∀ i, x.getLsbD i = y.getLsbD i := by
    intro i
    induction i using Nat.strong_induction_on with
    | _ i ih =>
      have hi := congrArg (BitVec.getLsbD · i) hxy
      simp only [getLsbD_left] at hi
      by_cases hlow : i < k
      · simpa [hlow] using hi
      · rw [ih (i - k) (by omega)] at hi
        exact Bool.xor_left_inj.1 hi
  exact BitVec.eq_of_getLsbD_eq fun i _ => hbit i

theorem right_injective (hk : 0 < k) : Function.Injective (right k : BitVec w → BitVec w) := by
  intro x y hxy
  -- the induction is on how far the bit is from the end of the word
  have hbit : ∀ d i, w - i = d → x.getLsbD i = y.getLsbD i := by
    intro d
    induction d using Nat.strong_induction_on with
    | _ d ih =>
      intro i hd
      by_cases hend : w ≤ i
      · rw [BitVec.getLsbD_of_ge x i hend, BitVec.getLsbD_of_ge y i hend]
      · have hi := congrArg (BitVec.getLsbD · i) hxy
        simp only [getLsbD_right] at hi
        rw [ih (w - (k + i)) (by omega) (k + i) rfl] at hi
        exact Bool.xor_left_inj.1 hi
  exact BitVec.eq_of_getLsbD_eq fun i _ => hbit _ i rfl

theorem left_bijective (hk : 0 < k) : Function.Bijective (left k : BitVec w → BitVec w) :=
  Finite.injective_iff_bijective.1 (left_injective hk)

theorem right_bijective (hk : 0 < k) : Function.Bijective (right k : BitVec w → BitVec w) :=
  Finite.injective_iff_bijective.1 (right_injective hk)

end XorShift
