import JinxOS.Lib.Memory

/-!
# The string functions of the user library

`ulib/string.c` has its own versions of some of the functions of `klib/string.c`.  They are what the
kernel's versions are compared with.  Of `memmove` this is the version in C, which is compiled
without `ASM`.
-/

namespace JinxOS.Ulib

/-- `memmove`: backwards if the target begins inside the source, and forwards otherwise. -/
def memmove (m : ByteMem) (dst src n : Nat) : ByteMem :=
  if src < dst ∧ Word.add src n > dst then m.memcpyDown (Word.add dst n) (Word.add src n) n
  else m.memcpy dst src n

/-- `strncpy`.  The pointer to the source stays at the byte that ends it. -/
def strncpy (m : ByteMem) (dst src : Nat) : Nat → ByteMem
  | 0 => m
  | size + 1 =>
    let m := Function.update m dst (m src)
    strncpy m (Word.add dst 1) (if m src ≠ 0 then Word.add src 1 else src) size

/-- `strcmp`, for strings that are followed by the byte that ends them. -/
def strcmp : List UInt8 → List UInt8 → Int
  | [], q => 0 - (q.headD 0).toNat
  | c :: p, q => if c ≠ 0 ∧ c = q.headD 0 then strcmp p q.tail else c.toNat - (q.headD 0).toNat

/-- `strncmp`. -/
def strncmp : List UInt8 → List UInt8 → Nat → Int
  | _, _, 0 => 0
  | p, q, n + 1 =>
    if p.headD 0 ≠ 0 ∧ p.headD 0 = q.headD 0 then strncmp p.tail q.tail n
    else (p.headD 0).toNat - (q.headD 0).toNat

/-- `memcmp`. -/
def memcmp (m : ByteMem) (s1 s2 : Nat) : Nat → Int
  | 0 => 0
  | n + 1 =>
    if m s1 ≠ m s2 then (m s1).toNat - (m s2).toNat
    else memcmp m (Word.add s1 1) (Word.add s2 1) n

/-- **It moves the bytes**, whatever the two ranges have in common. -/
theorem memmove_eq_moved (m : ByteMem) {dst src n : Nat} (hdst : dst + n ≤ 2 ^ 32)
    (hsrc : src + n ≤ 2 ^ 32) : memmove m dst src n = m.moved dst src n := by
  rw [memmove]
  rcases Nat.lt_or_ge src dst with hlt | hge
  · rw [Word.add_eq (by omega)]
    split
    · rw [← Word.add_eq (by omega)]
      exact ByteMem.memcpyDown_eq_moved n hlt.le hdst
    · rename_i hover
      refine (ByteMem.memcpy_eq_moved_iff hdst hsrc).2 (.inr fun i hi => ?_)
      exact absurd ⟨hlt, by omega⟩ hover
  · rw [if_neg fun h => absurd h.1 (Nat.not_lt.2 hge)]
    exact (ByteMem.memcpy_eq_moved_iff hdst hsrc).2 (.inl hge)

end JinxOS.Ulib
