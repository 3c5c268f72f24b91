import JinxOS.Cpu
import JinxOS.Lib.Memory

/-!
# Strings

The code of `klib/string.c` that the rest of the model calls.  A C string is a structure whose
fields say that the byte that ends it is not among its characters and that `strlen` does not
overflow, so neither is a hypothesis anywhere else.  The functions that walk along a string take the
list of its bytes, and read the end of the list as the byte that ends the string; `StringAt` is for
those that write to memory.
-/

namespace JinxOS

/-- A C string, without the byte that ends it. -/
structure Key where
  /-- The characters. -/
  bytes : List UInt8
  /-- None of them is the byte that ends the string. -/
  noNul : 0 ∉ bytes
  /-- `strlen` is an `unsigned int`. -/
  length_lt : bytes.length < 2 ^ 32
  deriving DecidableEq

/-- `strlen`. -/
def Key.strlen (key : Key) : Nat := key.bytes.length

/-- The same for strings that are not keys of a table. -/
abbrev CString := Key

/-- The string `s` is in memory at `a`. -/
structure StringAt (mem : ByteMem) (a : Nat) (s : CString) : Prop where
  chars : ∀ i, i < s.strlen → mem (a + i) = s.bytes.getD i 0
  nul : mem (a + s.strlen) = 0

/-- `strcmp`, for strings that are followed by the byte that ends them. -/
def strcmp : List UInt8 → List UInt8 → Int
  | [], s2 => if 0 = s2.headD 0 then 0 else -1
  | c :: s1, s2 =>
    if c = s2.headD 0 then if c = 0 then 0 else strcmp s1 s2.tail
    else if c < s2.headD 0 then -1 else 1

/-- `strncmp`. -/
def strncmp : List UInt8 → List UInt8 → Nat → Int
  | _, _, 0 => 0
  | s1, s2, n + 1 =>
    if s1.headD 0 ≠ s2.headD 0 then if s1.headD 0 < s2.headD 0 then -1 else 1
    else if s1.headD 0 = 0 then 0 else strncmp s1.tail s2.tail n

/-- The loop of `memcmp`, which is entered with `n` not zero.  It has stepped over the two bytes
when it finds that they differ, and steps back to subtract them. -/
def memcmpLoop (m : ByteMem) (p1 p2 : Nat) : Nat → Int
  | 0 => 0
  | n + 1 =>
    if m p1 ≠ m p2 then (m p1).toNat - (m p2).toNat
    else if n ≠ 0 then memcmpLoop m (Word.add p1 1) (Word.add p2 1) n else 0

/-- `memcmp`. -/
def memcmp (m : ByteMem) (s1 s2 n : Nat) : Int := if n ≠ 0 then memcmpLoop m s1 s2 n else 0

/-- `strchr`: how far from `s` the pointer is that it returns, if it is not null. -/
def strchr : List UInt8 → UInt8 → Option Nat
  | [], c => if 0 = c then some 0 else none
  | b :: s, c => if b = c then some 0 else if b = 0 then none else (strchr s c).map (· + 1)

theorem isSome_strchr {c : UInt8} (hc : c ≠ 0) :
    ∀ {s : List UInt8}, 0 ∉ s → ((strchr s c).isSome ↔ c ∈ s)
  | [], _ => by simp [strchr, hc.symm]
  | b :: s, hs => by
    obtain ⟨hb, hs'⟩ := List.ne_and_not_mem_of_not_mem_cons hs
    rw [strchr, List.mem_cons]
    by_cases hbc : b = c
    · simp [hbc]
    · rw [if_neg hbc, if_neg hb.symm, Option.isSome_map, isSome_strchr hc hs',
        or_iff_right (Ne.symm hbc)]

theorem Key.ext {k k' : Key} (h : k.bytes = k'.bytes) : k = k' := by
  cases k
  cases k'
  cases h
  rfl

/-! ## The order of strings

`strcmp` is the order of lists of the library, in which the first bytes that differ decide.  What
else is known about it follows from that and from what it does when its arguments are swapped. -/

theorem strcmp_swap : ∀ s1 s2 : List UInt8, strcmp s2 s1 = -strcmp s1 s2
  | [], [] => rfl
  | [], c :: s2 => by by_cases hc : c = 0 <;> simp [strcmp, hc, eq_comm]
  | c :: s1, [] => by by_cases hc : c = 0 <;> simp [strcmp, hc, eq_comm]
  | c :: s1, c' :: s2 => by
    rw [strcmp, strcmp, List.headD_cons, List.headD_cons, List.tail_cons, List.tail_cons]
    by_cases hcc : c = c'
    · rw [if_pos hcc, if_pos hcc.symm, hcc, strcmp_swap s1 s2]
      split <;> rfl
    · rw [if_neg hcc, if_neg (Ne.symm hcc)]
      have hne : c.toNat ≠ c'.toNat := fun he => hcc (UInt8.toNat_inj.1 he)
      simp only [UInt8.lt_iff_toNat_lt]
      split <;> split <;> omega

/-- **`strcmp` is the lexicographic order** of the bytes. -/
theorem strcmp_neg_iff : ∀ {s1 s2 : List UInt8}, 0 ∉ s1 → 0 ∉ s2 → (strcmp s1 s2 < 0 ↔ s1 < s2)
  | [], [], _, _ => by simp [strcmp]
  | [], c :: s2, _, h2 => by
    have hc : (0 : UInt8) ≠ c := (List.ne_and_not_mem_of_not_mem_cons h2).1
    simp [strcmp, hc]
  | c :: s1, [], h1, _ => by
    have hc : (0 : UInt8) ≠ c := (List.ne_and_not_mem_of_not_mem_cons h1).1
    simp [strcmp, hc.symm]
  | c :: s1, c' :: s2, h1, h2 => by
    obtain ⟨hc, h1⟩ := List.ne_and_not_mem_of_not_mem_cons h1
    have ih := strcmp_neg_iff h1 (List.ne_and_not_mem_of_not_mem_cons h2).2
    rw [strcmp, List.headD_cons, List.tail_cons, List.cons_lt_cons_iff]
    by_cases hcc : c = c'
    · rw [if_pos hcc, if_neg hc.symm, ih]
      simp [hcc]
    · rw [if_neg hcc, or_iff_left fun h => hcc h.1]
      split <;> simp [*]

section
variable {s1 s2 : List UInt8} (h1 : 0 ∉ s1) (h2 : 0 ∉ s2)
include h1 h2

theorem strcmp_le_iff : strcmp s1 s2 ≤ 0 ↔ s1 ≤ s2 := by
  rw [← List.not_lt, ← strcmp_neg_iff h2 h1, strcmp_swap s1 s2]
  omega

theorem strcmp_eq_zero : strcmp s1 s2 = 0 ↔ s1 = s2 := by
  have hle := strcmp_le_iff h1 h2
  have hge := strcmp_le_iff h2 h1
  rw [strcmp_swap s1 s2] at hge
  constructor
  · intro heq
    exact List.le_antisymm (hle.1 (by omega)) (hge.1 (by omega))
  · rintro rfl
    have hself := hle.2 (List.le_refl s1)
    have hself' := hge.2 (List.le_refl s1)
    omega

end

end JinxOS
