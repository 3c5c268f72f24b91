import JinxOS.Klib.String
import JinxOS.Ulib.String

/-!
# The order of strings

`strcmp` orders strings as their bytes are ordered (`strcmp_neg_iff`).  The user library subtracts
the two bytes where the kernel answers 1 or -1, and the signs are the same.
-/

namespace JinxOS

theorem strncmp_eq_strcmp : ∀ (n : Nat) (s1 s2 : List UInt8),
    strncmp s1 s2 n = strcmp (s1.take n) (s2.take n)
  | 0, _, _ => rfl
  | n + 1, [], [] => rfl
  | n + 1, [], c :: s2 => by by_cases hc : c = 0 <;> simp [strncmp, strcmp, hc, eq_comm]
  | n + 1, c :: s1, [] => by by_cases hc : c = 0 <;> simp [strncmp, strcmp, hc]
  | n + 1, c :: s1, c' :: s2 => by
    by_cases hcc : c = c' <;> simp [strncmp, strcmp, hcc, strncmp_eq_strcmp n s1 s2]

theorem sign_sub (a b : UInt8) :
    ((a.toNat : Int) - b.toNat).sign = if a = b then 0 else if a < b then -1 else 1 := by
  simp only [UInt8.lt_iff_toNat_lt, ← UInt8.toNat_inj]
  split
  · exact Int.sign_eq_zero_iff_zero.2 (by omega)
  · split
    · exact Int.sign_eq_neg_one_iff_neg.2 (by omega)
    · exact Int.sign_eq_one_iff_pos.2 (by omega)

theorem sign_strcmp : ∀ s1 s2 : List UInt8, (Ulib.strcmp s1 s2).sign = strcmp s1 s2
  | [], s2 => by
    have hsign := sign_sub 0 (s2.headD 0)
    rw [Ulib.strcmp, strcmp]
    refine hsign.trans ?_
    split
    · rfl
    · rename_i hne
      exact if_pos (UInt8.pos_iff_ne_zero.2 (Ne.symm hne))
  | c :: s1, s2 => by
    rw [Ulib.strcmp, strcmp]
    by_cases hc : c = s2.headD 0
    · by_cases hz : c = 0
      · rw [if_neg fun h => h.1 hz, if_pos hc, if_pos hz, sign_sub, if_pos hc]
      · rw [if_pos ⟨hz, hc⟩, if_pos hc, if_neg hz, sign_strcmp s1 s2.tail]
    · rw [if_neg fun h => hc h.2, if_neg hc, sign_sub, if_neg hc]

theorem sign_strncmp : ∀ (n : Nat) (s1 s2 : List UInt8),
    (Ulib.strncmp s1 s2 n).sign = strncmp s1 s2 n
  | 0, _, _ => rfl
  | n + 1, s1, s2 => by
    rw [Ulib.strncmp, strncmp]
    by_cases hc : s1.headD 0 = s2.headD 0
    · by_cases hz : s1.headD 0 = 0
      · rw [if_neg fun h => h.1 hz, if_neg (not_not.2 hc), if_pos hz, sign_sub, if_pos hc]
      · rw [if_pos ⟨hz, hc⟩, if_neg (not_not.2 hc), if_neg hz, sign_strncmp n]
    · rw [if_neg fun h => hc h.2, if_pos hc, sign_sub, if_neg hc]

theorem memcmpLoop_eq (m : ByteMem) : ∀ n p1 p2 : Nat,
    memcmpLoop m p1 p2 n = Ulib.memcmp m p1 p2 n
  | 0, _, _ => rfl
  | 1, _, _ => rfl
  | n + 2, p1, p2 => by
    rw [memcmpLoop, Ulib.memcmp, memcmpLoop_eq m (n + 1), if_pos (Nat.succ_ne_zero n)]

theorem memcmp_eq (m : ByteMem) (s1 s2 n : Nat) : memcmp m s1 s2 n = Ulib.memcmp m s1 s2 n := by
  cases n with
  | zero => rfl
  | succ n => rw [memcmp, if_pos (Nat.succ_ne_zero n), memcmpLoop_eq]

/-- **Strings are totally ordered**, and the kernel and the user library agree on how.  `strcmp`
answers 0 for equal strings only, changes its sign when they are swapped, and is the lexicographic
order of their bytes; `strncmp` compares what is left of them after `n` bytes. -/
theorem strings_ordered (s t u : CString) (n : Nat) :
    (strcmp s.bytes t.bytes = 0 ↔ s = t) ∧
    strcmp t.bytes s.bytes = -strcmp s.bytes t.bytes ∧
    (strcmp s.bytes t.bytes < 0 ↔ s.bytes < t.bytes) ∧
    (strcmp s.bytes t.bytes ≤ 0 ∧ strcmp t.bytes u.bytes ≤ 0 → strcmp s.bytes u.bytes ≤ 0) ∧
    strncmp s.bytes t.bytes n = strcmp (s.bytes.take n) (t.bytes.take n) ∧
    (Ulib.strcmp s.bytes t.bytes).sign = (strcmp s.bytes t.bytes).sign ∧
    (Ulib.strncmp s.bytes t.bytes n).sign = (strncmp s.bytes t.bytes n).sign ∧
    ∀ (m : ByteMem) (a b : Nat), (Ulib.memcmp m a b n).sign = (memcmp m a b n).sign := by
  refine ⟨?_, strcmp_swap _ _, strcmp_neg_iff s.noNul t.noNul, ?_, strncmp_eq_strcmp n _ _, ?_, ?_,
    fun m a b => by rw [memcmp_eq]⟩
  · rw [strcmp_eq_zero s.noNul t.noNul]
    exact ⟨Key.ext, congrArg Key.bytes⟩
  · rw [strcmp_le_iff s.noNul t.noNul, strcmp_le_iff t.noNul u.noNul, strcmp_le_iff s.noNul u.noNul]
    exact fun h => List.le_trans h.1 h.2
  · rw [← sign_strcmp, Int.sign_sign]
  · rw [← sign_strncmp, Int.sign_sign]

end JinxOS
