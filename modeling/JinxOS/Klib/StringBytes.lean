import JinxOS.Klib.String
import JinxOS.Ulib.String
import Mathlib.Tactic.IntervalCases

/-!
# The string functions that write to memory

The code of `klib/string.c` that moves bytes and copies strings, over memory.  The kernel's
`memmove` is its `memcpy`, which copies forwards; the loops of `strncpy` and `strncat` go on from
where the last one has left the counter and the pointer, and both leave them one too far:

* `strncpy` counts `n` down in the test of its first loop, also when the test fails.  After a source
  that is too long `n` has gone below 0, and the second loop writes zeros to all of memory but one
  byte; after one that is short enough it writes one zero too few.
* `strncat` leaves its loop with the pointer behind the byte that ends the string, if it has copied
  that, and writes another one.

What the functions are to do is `ByteMem.moved` and, for strings, `padded`: the bytes of a list and
then zeros.  The theorems say for which arguments they do it, and that the functions of the user
library always do.

* `memmove_eq_moved_iff` — **`memmove`**;
* `strn_eq_padded_iff` — **`strncpy` and `strncat`**.
-/

namespace JinxOS

open Function (update update_of_ne)
open List (getD_eq_default length_cons headD_cons)

/-! ## The code -/

/-- `memmove`. -/
def memmove (m : ByteMem) (dst src count : Nat) : ByteMem := m.memcpy dst src count

/-- The first loop of `strncpy`: memory, `s` and `n` after it. -/
def strncpyLoop (m : ByteMem) (s src : Nat) : Nat → ByteMem × Nat × Nat
  | 0 => (m, s, Word.sub 0 1)
  | n + 1 =>
    if m src ≠ 0 then strncpyLoop (Function.update m s (m src)) (Word.add s 1) (Word.add src 1) n
    else (m, s, n)

/-- `strncpy`.  The second loop is the one of `memset`. -/
def strncpy (m : ByteMem) (dst src n : Nat) : ByteMem :=
  let (m, s, n) := strncpyLoop m dst src n
  m.memset s 0 n

/-- The first loop of `strncat`, which looks for the end of the string at `d`. -/
def strncatScan (m : ByteMem) : Nat → Nat → Except Fault Nat
  | 0, _ => .error .diverges
  | fuel + 1, d => if m d ≠ 0 then strncatScan m fuel (Word.add d 1) else .ok d

/-- The second loop of `strncat`: memory and `d` after it. -/
def strncatLoop (m : ByteMem) (d src : Nat) : Nat → ByteMem × Nat
  | 0 => (m, d)
  | n + 1 =>
    let c := m src
    let m := Function.update m d c
    if c = 0 then (m, Word.add d 1) else strncatLoop m (Word.add d 1) (Word.add src 1) n

/-- `strncat`. -/
def strncat (m : ByteMem) (dst src n : Nat) : Except Fault ByteMem :=
  if n ≠ 0 then do
    let d ← strncatScan m loopFuel dst
    let (m, d) := strncatLoop m d src n
    .ok (Function.update m d 0)
  else .ok m

/-! ## Moving bytes -/

/-- **`memmove`.**  The user library's version moves the bytes for every pair of ranges.  The
kernel's does so exactly if the target does not begin behind the start of the source, or if the part
of the source that is overwritten has what is written there anyway; and so this is when they agree.
-/
theorem memmove_eq_moved_iff (m : ByteMem) {dst src n : Nat} (hdst : dst + n ≤ 2 ^ 32)
    (hsrc : src + n ≤ 2 ^ 32) : Ulib.memmove m dst src n = m.moved dst src n ∧
      (memmove m dst src n = Ulib.memmove m dst src n ↔
        dst ≤ src ∨ ∀ i, dst + i < src + n → m (dst + i) = m (src + i)) := by
  rw [Ulib.memmove_eq_moved m hdst hsrc]
  exact ⟨rfl, ByteMem.memcpy_eq_moved_iff hdst hsrc⟩

/-- A memory in which every byte is the low byte of its address. -/
def countingMem : ByteMem := fun x => UInt8.ofNat x

/-- Moving eight bytes down by four. -/
theorem memmove_eq_moved_iff_down : memmove countingMem 12 16 8 = Ulib.memmove countingMem 12 16 8 ∧
      Ulib.memmove countingMem 12 16 8 19 = 23 := by
  have hdst : 12 + 8 ≤ 2 ^ 32 := by decide
  have hsrc : 16 + 8 ≤ 2 ^ 32 := by decide
  obtain ⟨hmoved, hiff⟩ := memmove_eq_moved_iff countingMem hdst hsrc
  exact ⟨hiff.2 (.inl (by decide)), hmoved ▸ by decide⟩

/-- **Moving two bytes up by one**: the first one is there twice. -/
theorem not_moved_up : memmove countingMem 17 16 2 18 = 16 ∧
    Ulib.memmove countingMem 17 16 2 18 = 17 ∧ countingMem.moved 17 16 2 18 = 17 := by
  decide

/-! ## Strings in memory -/

/-- Memory at `dst` with `n` bytes of a list, and zeros when it has come to an end. -/
def padded (m : ByteMem) (dst : Nat) (l : List UInt8) (n : Nat) : ByteMem := fun x =>
  if dst ≤ x ∧ x < dst + n then l.getD (x - dst) 0 else m x

/-- The list is in memory at `a`, and a byte 0 behind it. -/
def Spells (m : ByteMem) (a : Nat) (l : List UInt8) : Prop :=
  ∀ i, i ≤ l.length → m (a + i) = l.getD i 0

theorem StringAt.spells {m : ByteMem} {a : Nat} {s : CString} (h : StringAt m a s) :
    Spells m a s.bytes := by
  intro i hi
  rcases Nat.lt_or_eq_of_le hi with hlt | rfl
  · exact h.chars i hlt
  · rw [getD_eq_default _ _ (Nat.le_refl _)]
    exact h.nul

section
variable {m : ByteMem} {a dst src d n x : Nat} {c v : UInt8} {l : List UInt8}

theorem Spells.head (h : Spells m a l) : m a = l.headD 0 := by
  have := h 0 (Nat.zero_le _)
  rw [Nat.add_zero] at this
  rw [this]
  cases l <;> rfl

theorem Spells.tail (h : Spells m a (c :: l)) : Spells m (a + 1) l := by
  intro i hi
  rw [Nat.add_assoc, Nat.add_comm 1 i, h (i + 1) (Nat.succ_le_succ hi)]
  rfl

theorem Spells.update (h : Spells m a l) (hx : x < a ∨ a + l.length < x) :
    Spells (update m x v) a l := by
  intro i hi
  rw [update_of_ne (by omega)]
  exact h i hi

theorem padded_zero : padded m dst l 0 = m := by
  funext x
  rw [padded, if_neg (by omega)]

theorem padded_succ (l : List UInt8) :
    padded (update m dst (l.headD 0)) (dst + 1) l.tail n = padded m dst l (n + 1) := by
  funext x
  rw [padded, padded]
  by_cases hx : dst + 1 ≤ x ∧ x < dst + 1 + n
  · obtain ⟨i, rfl⟩ := Nat.exists_eq_add_of_le hx.1
    rw [if_pos hx, if_pos (by omega), Nat.add_sub_cancel_left, Nat.add_assoc,
      Nat.add_sub_cancel_left, Nat.add_comm 1 i]
    cases l <;> rfl
  · rw [if_neg hx]
    by_cases hfirst : x = dst
    · rw [hfirst, Function.update_self, if_pos (by omega), Nat.sub_self]
      cases l <;> rfl
    · rw [update_of_ne hfirst, if_neg (by omega)]

theorem padded_of_lt (hx : x < dst ∨ dst + n ≤ x) : padded m dst l n x = m x := if_neg (by omega)

end

/-! ## The loops -/

section
variable {m : ByteMem} {dst src n : Nat} {l : List UInt8}

theorem add_zero_add_one (a : Nat) : Word.add (Word.add a 0) 1 = Word.add (a + 1) 0 := by
  rw [Word.add, Word.add, Word.add]
  omega

/-- **The user library's `strncpy`** does what it is to do. -/
theorem Ulib.strncpy_eq_padded : ∀ (n : Nat) {m : ByteMem} {dst src : Nat} {l : List UInt8},
    Spells m src l → 0 ∉ l → src + l.length < 2 ^ 32 → dst + n ≤ 2 ^ 32 →
      (src + l.length < dst ∨ dst + n ≤ src) →
      Ulib.strncpy m (Word.add dst 0) src n = padded m dst l n := by
  intro n
  induction n with
  | zero =>
    intro m dst src l _ _ _ _ _
    exact padded_zero.symm
  | succ n ih =>
    intro m dst src l hl hnul hsrc hdst hapart
    have hptr : Word.add dst 0 = dst := Word.add_eq
    have hkeep : update m dst (m src) src = l.headD 0 := by
      rw [update_of_ne (by omega), hl.head]
    rw [Ulib.strncpy, add_zero_add_one, hptr, hkeep, hl.head, ← padded_succ]
    have hspells : Spells (update m dst (l.headD 0)) src l := hl.update (by omega)
    cases l with
    | nil =>
      rw [if_neg (fun h => h rfl), List.tail_nil]
      exact ih hspells hnul hsrc (by omega) (by omega)
    | cons c l =>
      obtain ⟨hc, hl'⟩ := List.ne_and_not_mem_of_not_mem_cons hnul
      rw [length_cons] at hsrc hapart
      rw [if_pos (show (c :: l).headD 0 ≠ 0 from hc.symm),
        Word.add_eq (show src + 1 < 2 ^ 32 by omega), List.tail_cons]
      exact ih hspells.tail hl' (by omega) (by omega) (by omega)

/-- **The first loop of `strncpy`** copies the string or `n` bytes of it.  In the first case `n` has
been counted down once more, and in the second case below 0. -/
theorem strncpyLoop_eq : ∀ (n : Nat) {m : ByteMem} {dst src : Nat} {l : List UInt8},
    Spells m src l → 0 ∉ l → src + l.length < 2 ^ 32 → dst + n ≤ 2 ^ 32 →
      (src + l.length < dst ∨ dst + n ≤ src) →
      strncpyLoop m (Word.add dst 0) src n =
        (padded m dst l (min n l.length), Word.add dst (min n l.length),
          if n ≤ l.length then Word.sub 0 1 else n - l.length - 1) := by
  intro n
  induction n with
  | zero =>
    intro m dst src l _ _ _ _ _
    rw [strncpyLoop, Nat.zero_min, padded_zero, if_pos (Nat.zero_le _)]
  | succ n ih =>
    intro m dst src l hl hnul hsrc hdst hapart
    have hptr : Word.add dst 0 = dst := Word.add_eq
    rw [strncpyLoop, add_zero_add_one, hl.head, hptr]
    cases l with
    | nil =>
      rw [if_neg (fun h => h rfl), List.length_nil, Nat.min_zero, padded_zero, hptr,
        if_neg (Nat.not_succ_le_zero n)]
      rfl
    | cons c l =>
      obtain ⟨hc, hl'⟩ := List.ne_and_not_mem_of_not_mem_cons hnul
      have hspells : Spells (update m dst c) src (c :: l) := hl.update (by omega)
      have hsucc : padded (update m dst c) (dst + 1) l (min n l.length) =
          padded m dst (c :: l) (min n l.length + 1) := padded_succ (c :: l)
      rw [length_cons] at hsrc hapart
      rw [if_pos (show (c :: l).headD 0 ≠ 0 from hc.symm),
        Word.add_eq (show src + 1 < 2 ^ 32 by omega), headD_cons,
        ih hspells.tail hl' (by omega) (by omega) (by omega), length_cons,
        Nat.add_min_add_right, ← hsucc]
      simp only [Nat.add_le_add_iff_right, Nat.add_sub_add_right, Word.add, Nat.add_assoc,
        Nat.add_comm 1]

theorem strncatScan_eq : ∀ (fuel : Nat) {dst : Nat} {l : List UInt8}, Spells m dst l → 0 ∉ l →
    dst + l.length < 2 ^ 32 → l.length < fuel →
      strncatScan m fuel dst = .ok (dst + l.length) := by
  intro fuel
  induction fuel with
  | zero => exact fun _ _ _ hfuel => absurd hfuel (Nat.not_lt_zero _)
  | succ fuel ih =>
    intro dst l hl hnul hdst hfuel
    rw [strncatScan, hl.head]
    cases l with
    | nil => exact if_neg fun h => h rfl
    | cons c l =>
      obtain ⟨hc, hl'⟩ := List.ne_and_not_mem_of_not_mem_cons hnul
      rw [length_cons] at hdst hfuel ⊢
      rw [if_pos (show (c :: l).headD 0 ≠ 0 from hc.symm), Word.add_eq,
        ih hl.tail hl' (by omega) (by omega), Nat.add_assoc, Nat.add_comm 1]

/-- **The second loop of `strncat`** copies `n` bytes, or the string with the byte that ends it. -/
theorem strncatLoop_eq : ∀ (n : Nat) {m : ByteMem} {d src : Nat} {l : List UInt8},
    Spells m src l → 0 ∉ l → src + l.length < 2 ^ 32 → d + min n l.length < 2 ^ 32 →
      (src + l.length < d ∨ d + min n l.length < src) →
      strncatLoop m (Word.add d 0) src n =
        (padded m d l (min n (l.length + 1)), Word.add d (min n (l.length + 1))) := by
  intro n
  induction n with
  | zero =>
    intro m d src l _ _ _ _ _
    rw [strncatLoop, Nat.zero_min, padded_zero]
  | succ n ih =>
    intro m d src l hl hnul hsrc hd hapart
    have hptr : Word.add d 0 = d := Word.add_eq
    rw [strncatLoop, add_zero_add_one, hl.head, hptr, Nat.add_min_add_right, ← padded_succ]
    cases l with
    | nil =>
      rw [if_pos (show ([] : List UInt8).headD 0 = 0 from rfl), List.length_nil, Nat.min_zero,
        padded_zero, Word.add, Word.add, Nat.add_zero]
    | cons c l =>
      obtain ⟨hc, hl'⟩ := List.ne_and_not_mem_of_not_mem_cons hnul
      have hspells : Spells (update m d c) src (c :: l) := by
        refine hl.update ?_
        rw [length_cons] at hapart ⊢
        omega
      rw [length_cons] at hsrc hapart hd ⊢
      rw [if_neg (show ¬ (c :: l).headD 0 = 0 from hc.symm), headD_cons, List.tail_cons,
        Word.add_eq (show src + 1 < 2 ^ 32 by omega),
        ih hspells.tail hl' (by omega) (by omega) (by omega)]
      simp only [Word.add, Nat.add_assoc, Nat.add_comm 1]

end

/-! ## What the functions do -/

section
variable {m : ByteMem} {dst src n : Nat} {s t : CString}

/-- A source that is short enough: the last byte of the target is not written. -/
theorem strncpy_of_lt (hs : StringAt m src s) (hsrc : src + s.strlen < 2 ^ 32)
    (hdst : dst + n ≤ 2 ^ 32) (hapart : src + s.strlen < dst ∨ dst + n ≤ src) (hlt : s.strlen < n) :
    strncpy m dst src n = padded m dst s.bytes n ↔ m (dst + n - 1) = 0 := by
  have hptr : Word.add dst 0 = dst := Word.add_eq
  have hloop := strncpyLoop_eq n hs.spells s.noNul hsrc hdst hapart
  rw [Key.strlen] at hlt
  rw [hptr, Nat.min_eq_right hlt.le, if_neg (Nat.not_le.2 hlt), Word.add_eq] at hloop
  rw [strncpy, hloop]
  dsimp only
  have hbyte : ∀ x, ((padded m dst s.bytes s.bytes.length).memset (dst + s.bytes.length) 0
      (n - s.bytes.length - 1)) x = if x = dst + n - 1 then m x else padded m dst s.bytes n x := by
    intro x
    rw [ByteMem.memset_apply _ _ _ _ _ (by omega), padded, padded]
    by_cases hlast : x = dst + n - 1
    · rw [if_neg (by omega), if_neg (by omega), if_pos hlast]
    · rw [if_neg hlast]
      by_cases hzero : dst + s.bytes.length ≤ x ∧
          x < dst + s.bytes.length + (n - s.bytes.length - 1)
      · rw [if_pos hzero, if_pos (by omega), getD_eq_default _ _ (by omega)]
      · rw [if_neg hzero]
        by_cases hin : dst ≤ x ∧ x < dst + n
        · rw [if_pos (by omega), if_pos hin]
        · rw [if_neg (by omega), if_neg hin]
  have hlast : padded m dst s.bytes n (dst + n - 1) = 0 := by
    rw [padded, if_pos (by omega), getD_eq_default _ _ (by omega)]
  constructor
  · intro heq
    have hx := congrFun heq (dst + n - 1)
    rw [hbyte, if_pos rfl, hlast] at hx
    exact hx
  · intro hzero
    funext x
    rw [hbyte]
    split
    · rename_i hx
      rw [hx, hzero, hlast]
    · rfl

section
variable (hs : StringAt m src s) (hsrc : src + s.strlen < 2 ^ 32) (hword : dst < 2 ^ 32)
    (hdst : dst + n ≤ 2 ^ 32) (hapart : src + s.strlen < dst ∨ dst + n ≤ src) (hle : n ≤ s.strlen)
include hs hsrc hword hdst hapart hle

/-- A source that is too long: zeros are written to all of memory but one byte. -/
theorem strncpy_apply_of_le (x : Nat) : strncpy m dst src n x =
      if x < 2 ^ 32 ∧ x ≠ Word.sub (dst + n) 1 then 0 else padded m dst s.bytes n x := by
  have hptr : Word.add dst 0 = dst := Word.add_eq hword
  have hloop := strncpyLoop_eq n hs.spells s.noNul hsrc hdst hapart
  rw [Key.strlen] at hle
  rw [hptr, Nat.min_eq_left hle, if_pos hle] at hloop
  rw [strncpy, hloop]
  dsimp only
  rw [ByteMem.memset_wrap _ _ _ _ (Word.add_lt _ _) (Word.sub_lt _ _).le]
  congr 1
  rw [Word.sub, Word.sub, Word.add, Word.sub, eq_iff_iff]
  omega

/-- So it is right only if it has nothing to copy, and there is nothing to lose. -/
theorem strncpy_of_le : strncpy m dst src n = padded m dst s.bytes n ↔
      n = 0 ∧ ∀ x, x < 2 ^ 32 → x ≠ Word.sub dst 1 → m x = 0 := by
  have hbyte := strncpy_apply_of_le hs hsrc hword hdst hapart hle
  constructor
  · intro heq
    have hall : ∀ x, x < 2 ^ 32 → x ≠ Word.sub (dst + n) 1 → padded m dst s.bytes n x = 0 := by
      intro x hx hne
      rw [← heq, hbyte, if_pos ⟨hx, hne⟩]
    rcases Nat.eq_zero_or_pos n with rfl | hpos
    · rw [padded_zero] at hall
      exact ⟨rfl, hall⟩
    · -- the first byte of the source is not 0, and it is not in the target
      have hne : src ≠ Word.sub (dst + n) 1 := by
        rw [Word.sub]
        omega
      have hsrc0 := hall src (by omega) hne
      rw [padded_of_lt (by omega), hs.spells.head] at hsrc0
      obtain ⟨c, l, hcons⟩ := List.exists_cons_of_length_pos (Nat.lt_of_lt_of_le hpos hle)
      rw [hcons, headD_cons] at hsrc0
      exact absurd (hcons ▸ hsrc0 ▸ List.mem_cons_self) s.noNul
  · rintro ⟨rfl, hall⟩
    funext x
    rw [hbyte, padded_zero]
    split
    · rename_i hx
      exact (hall x hx.1 hx.2).symm
    · rfl

end

/-- The concatenation that `strncat` is to make: memory with at most `n` bytes of a string behind
another one, and a byte 0. -/
def concatenated (m : ByteMem) (dst : Nat) (t s : CString) (n : Nat) : ByteMem :=
  padded m (dst + t.strlen) (s.bytes.take n) (min n s.strlen + 1)

/-- **`strncat`** writes one byte more if it comes to the end of the source. -/
theorem strncat_eq (ht : StringAt m dst t) (hs : StringAt m src s)
    (hsrc : src + s.strlen < 2 ^ 32) (hn : 1 ≤ n) (hdst : dst + t.strlen + min n s.strlen < 2 ^ 32)
    (hapart : src + s.strlen < dst ∨ dst + t.strlen + min n s.strlen < src) :
    ∃ m', strncat m dst src n = .ok m' ∧ (m' = concatenated m dst t s n ↔
      n ≤ s.strlen ∨ m (Word.add (dst + t.strlen + s.strlen) 1) = 0) := by
  have hfuel : t.strlen < loopFuel := t.length_lt
  have hscan := strncatScan_eq loopFuel ht.spells t.noNul
    (show dst + t.bytes.length < 2 ^ 32 by rw [Key.strlen] at hdst; omega) hfuel
  rw [← Key.strlen] at hscan
  rw [concatenated]
  generalize hd : dst + t.strlen = d at *
  have hptr : Word.add d 0 = d := Word.add_eq
  have hloop := strncatLoop_eq n hs.spells s.noNul hsrc hdst (by rw [Key.strlen] at hapart; omega)
  rw [hptr] at hloop
  refine ⟨update (padded m d s.bytes (min n (s.bytes.length + 1)))
    (Word.add d (min n (s.bytes.length + 1))) 0, ?_, ?_⟩
  · rw [strncat, if_pos (by omega), hscan]
    simp only [bind, Except.bind, hloop]
  rw [Key.strlen] at *
  rcases Nat.lt_or_ge s.bytes.length n with hlt | hge
  · -- the byte that ends the source has been copied
    rw [Nat.min_eq_right (by omega), Nat.min_eq_right hlt.le, List.take_of_length_le hlt.le]
    have hout : Word.add d (s.bytes.length + 1) < d ∨
        d + (s.bytes.length + 1) ≤ Word.add d (s.bytes.length + 1) := by
      rw [Word.add]
      omega
    rw [Function.update_eq_self_iff, padded_of_lt hout, or_iff_right (Nat.not_le.2 hlt), Word.add,
      Word.add, Nat.add_assoc]
    exact eq_comm
  · rw [Nat.min_eq_left (by omega), Nat.min_eq_left hge, Word.add_eq]
    refine iff_of_true ?_ (.inl hge)
    funext x
    rw [Function.update_apply, padded, padded]
    have hlen : (s.bytes.take n).length = n := List.length_take_of_le hge
    by_cases hlast : x = d + n
    · rw [if_pos hlast, if_pos (by omega), getD_eq_default _ _ (by omega)]
    · rw [if_neg hlast]
      by_cases hin : d ≤ x ∧ x < d + n
      · rw [if_pos hin, if_pos (by omega), List.getD_eq_getElem _ _ (by omega),
          List.getD_eq_getElem _ _ (by omega), List.getElem_take]
      · rw [if_neg hin, if_neg (by omega)]

end

/-- **`strncpy` and `strncat`.**  For a source and a target that do not overlap: the user library's
`strncpy` writes the bytes of the source and zeros to the target.  The kernel's does so exactly if
the source is shorter than the target and the last byte of the target is 0 before; or if `n` is 0,
and so is all of memory but the byte before the target.  The kernel's `strncat` makes the
concatenation exactly if it does not come to the end of the source, or the byte behind the
concatenation is 0 before. -/
theorem strn_eq_padded_iff (m : ByteMem) (dst src n : Nat) (s : CString) (hs : StringAt m src s)
    (hsrc : src + s.strlen < 2 ^ 32) :
    (dst < 2 ^ 32 → dst + n ≤ 2 ^ 32 → (src + s.strlen < dst ∨ dst + n ≤ src) →
        Ulib.strncpy m dst src n = padded m dst s.bytes n ∧
        (strncpy m dst src n = padded m dst s.bytes n ↔
          (s.strlen < n ∧ m (dst + n - 1) = 0) ∨
            (n = 0 ∧ ∀ x, x < 2 ^ 32 → x ≠ Word.sub dst 1 → m x = 0))) ∧
      ∀ t : CString, StringAt m dst t → 1 ≤ n → dst + t.strlen + min n s.strlen < 2 ^ 32 →
        (src + s.strlen < dst ∨ dst + t.strlen + min n s.strlen < src) →
        ∃ m', strncat m dst src n = .ok m' ∧ (m' = concatenated m dst t s n ↔
          n ≤ s.strlen ∨ m (Word.add (dst + t.strlen + s.strlen) 1) = 0) := by
  constructor
  · intro hword hdst hapart
    constructor
    · have hptr : Word.add dst 0 = dst := Word.add_eq hword
      have huser := Ulib.strncpy_eq_padded n hs.spells s.noNul hsrc hdst hapart
      rwa [hptr] at huser
    · rcases Nat.lt_or_ge s.strlen n with hlt | hge
      · rw [strncpy_of_lt hs hsrc hdst hapart hlt]
        have hpos : n ≠ 0 := by omega
        simp only [hlt, hpos, true_and, false_and, or_false]
      · rw [strncpy_of_le hs hsrc hword hdst hapart hge]
        simp only [Nat.not_lt.2 hge, false_and, false_or]
  · intro t ht hn hdst hapart
    exact strncat_eq ht hs hsrc hn hdst hapart

/-- A memory with `"ab"` at 16 and `"c"` at 32, and `v` at 36. -/
def twoStrings (v : UInt8) : ByteMem := fun x =>
  if x = 16 then 97 else if x = 17 then 98 else if x = 32 then 99 else if x = 36 then v else 0

/-- The string `"ab"`. -/
def stringAb : CString := ⟨[97, 98], by decide, by decide⟩

/-- The string `"c"`. -/
def stringC : CString := ⟨[99], by decide, by decide⟩

theorem twoStrings_ab (v : UInt8) : StringAt (twoStrings v) 16 stringAb where
  chars := by
    intro i hi
    have hi : i < 2 := hi
    interval_cases i <;> rfl
  nul := rfl

theorem twoStrings_c (v : UInt8) : StringAt (twoStrings v) 32 stringC where
  chars := by
    intro i hi
    have hi : i < 1 := hi
    interval_cases i
    rfl
  nul := rfl

/-- Copying or appending `"ab"` with `n = 5` where the fifth byte of the target is 0. -/
theorem strn_eq_padded_iff_zero :
    strncpy (twoStrings 0) 32 16 5 = padded (twoStrings 0) 32 [97, 98] 5 ∧
      strncat (twoStrings 0) 32 16 5 = .ok (concatenated (twoStrings 0) 32 stringC stringAb 5) := by
  obtain ⟨hcpy, hcat⟩ :=
    strn_eq_padded_iff (twoStrings 0) 32 16 5 stringAb (twoStrings_ab 0) (by decide)
  obtain ⟨-, hiff⟩ := hcpy (by decide) (by decide) (.inl (by decide))
  obtain ⟨m', hrun, hm'⟩ :=
    hcat stringC (twoStrings_c 0) (by decide) (by decide) (.inl (by decide))
  exact ⟨hiff.2 (.inl ⟨by decide, rfl⟩), hrun.trans (congrArg _ (hm'.2 (.inr rfl)))⟩

/-- **A fifth byte that is not 0**: `strncpy` leaves it as it is, and `strncat` clears it.  With
`n = 1` the string is too long, and `strncpy` clears the string that it copies. -/
theorem not_padded :
    strncpy (twoStrings 7) 32 16 5 36 = 7 ∧ padded (twoStrings 7) 32 [97, 98] 5 36 = 0 ∧
      (∃ m', strncat (twoStrings 7) 32 16 5 = .ok m' ∧ m' 36 = 0) ∧
      concatenated (twoStrings 7) 32 stringC stringAb 5 36 = 7 ∧
      strncpy (twoStrings 7) 32 16 1 17 = 0 ∧ padded (twoStrings 7) 32 [97, 98] 1 17 = 98 := by
  refine ⟨rfl, rfl, ⟨_, rfl, rfl⟩, rfl, ?_, rfl⟩
  exact strncpy_apply_of_le (twoStrings_ab 7) (by decide) (by decide) (by decide)
    (.inl (by decide)) (by decide) 17

end JinxOS
