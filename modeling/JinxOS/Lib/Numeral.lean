import Mathlib.Data.Nat.Digits.Lemmas

/-!
# Positional numerals, most significant digit first

`numeral b n` is what one writes down for `n` in base `b`: no leading zero, except that zero itself
is the single digit `0`.  It is Mathlib's `Nat.digits` the other way round, with that exception made
good. A program writes a numeral by repeated division and reads one by Horner's rule, and the two
facts that go with these are

* `numeral_step` — all digits but the last are the numeral of the quotient;
* `positional_numeral` — the value of the numeral, computed from the left, is the number.
-/

namespace Numeral

/-- The digits of `n` in base `b`, the most significant first. -/
def numeral (b n : Nat) : List Nat := if n = 0 then [0] else (b.digits n).reverse

/-- The value of a string of digits, computed from the left. -/
def positional (b : Nat) (ds : List Nat) : Nat := ds.foldl (fun v d => v * b + d) 0

variable {b n : Nat}

@[simp] theorem numeral_zero (b : Nat) : numeral b 0 = [0] := rfl

theorem numeral_of_lt (h : n < b) : numeral b n = [n] := by
  rcases Nat.eq_zero_or_pos n with rfl | hn
  · rfl
  · rw [numeral, if_neg hn.ne', Nat.digits_of_lt b n hn.ne' h, List.reverse_singleton]

/-- A number that is not a digit itself: the digits of the quotient, then the remainder. -/
theorem numeral_step (hb : 1 < b) (h : b ≤ n) : numeral b n = numeral b (n / b) ++ [n % b] := by
  have hn : 0 < n := by omega
  have hq : n / b ≠ 0 := (Nat.div_pos h (by omega)).ne'
  rw [numeral, if_neg hn.ne', Nat.digits_def' hb hn, List.reverse_cons, numeral, if_neg hq]

theorem digit_lt (hb : 1 < b) {d : Nat} (hd : d ∈ numeral b n) : d < b := by
  rw [numeral] at hd
  split at hd
  · rw [List.mem_singleton] at hd
    omega
  · exact Nat.digits_lt_base hb (List.mem_reverse.1 hd)

theorem numeral_length_pos (b n : Nat) : 0 < (numeral b n).length := by
  rw [numeral]
  split
  · exact Nat.one_pos
  · rename_i hn
    rw [List.length_reverse]
    exact List.length_pos_iff.2 (Nat.digits_ne_nil_iff_ne_zero.2 hn)

theorem numeral_length_le (hb : 1 < b) {k : Nat} (hk : 0 < k) (h : n < b ^ k) :
    (numeral b n).length ≤ k := by
  rw [numeral]
  split
  · exact hk
  · rw [List.length_reverse]
    exact (Nat.digits_length_le_iff hb n).2 h

theorem numeral_eq_cons (hn : 0 < n) : ∃ d ds, numeral b n = d :: ds ∧ d ≠ 0 := by
  have hne : b.digits n ≠ [] := Nat.digits_ne_nil_iff_ne_zero.2 hn.ne'
  have hlast := Nat.getLast_digit_ne_zero b hn.ne'
  rw [numeral, if_neg hn.ne', ← List.dropLast_append_getLast hne, List.reverse_append,
    List.reverse_singleton]
  exact ⟨_, _, rfl, hlast⟩

@[simp] theorem positional_nil (b : Nat) : positional b [] = 0 := rfl

@[simp] theorem positional_append_singleton (b d : Nat) (ds : List Nat) :
    positional b (ds ++ [d]) = positional b ds * b + d := by
  rw [positional, List.foldl_append]
  rfl

/-- **A numeral has the value of its number.** -/
theorem positional_numeral (hb : 1 < b) : positional b (numeral b n) = n := by
  induction n using Nat.strong_induction_on with
  | _ n ih =>
    by_cases hn : n < b
    · rw [numeral_of_lt hn]
      exact (congrArg (· + n) (Nat.zero_mul b)).trans (Nat.zero_add n)
    · rw [numeral_step hb (by omega), positional_append_singleton,
        ih (n / b) (Nat.div_lt_self (by omega) hb)]
      exact Nat.div_add_mod' n b

end Numeral
