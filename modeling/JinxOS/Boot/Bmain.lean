import JinxOS.Cpu
import JinxOS.Lib.Memory

/-!
# The boot loader

How `boot/bmain.c` gets the kernel into memory.  A segment of the image may start anywhere in a
sector, but the disk is read in whole sectors: `readseg` rounds the address down, rounds the offset
down on its own, and goes on up to the end of the segment, which it does not round.  The first
sector is the loader itself, so the image starts at the second one.

The disk is a memory of its own, and `readsect` is taken to copy a sector of it.

* `readseg_copies` — **the bytes of the segment get where they belong**, and nothing is written
  outside of the sectors that the segment touches;
* `readseg_wraps` — the loop goes on forever if the segment ends in the last sector of the address
  space, as its address starts again at 0.
-/

namespace JinxOS

/-- `SECTSIZE`. -/
def sectSize : Nat := 512

/-- The memory after `n` bytes of the disk have been copied, from `src` to `dst`. -/
def diskCopied (disk m : ByteMem) (dst src n : Nat) : ByteMem := fun x =>
  if dst ≤ x ∧ x < dst + n then disk (src + (x - dst)) else m x

/-- `readsect`, as far as memory can tell. -/
def readsect (disk m : ByteMem) (dst offset : Nat) : ByteMem :=
  diskCopied disk m dst (sectSize * offset) sectSize

/-- The loop of `readseg`. -/
def readsegLoop (disk : ByteMem) (stop : Nat) : Nat → ByteMem → Nat → Nat → Except Fault ByteMem
  | 0, _, _, _ => .error .diverges
  | fuel + 1, m, paddr, offset =>
    if paddr < stop then
      readsegLoop disk stop fuel (readsect disk m paddr offset) (Word.add paddr sectSize)
        (Word.add offset 1)
    else .ok m

/-- `readseg`.  The mask is `~(SECTSIZE - 1)`. -/
def readseg (disk m : ByteMem) (paddr memsz offset : Nat) : Except Fault ByteMem :=
  readsegLoop disk (Word.add paddr memsz) loopFuel m (paddr &&& 0xFFFFFE00)
    (Word.add (offset / sectSize) 1)

variable {disk m : ByteMem} {paddr memsz offset : Nat}

theorem sectMask (hpaddr : paddr < 2 ^ 32) : paddr &&& 0xFFFFFE00 = paddr - paddr % 512 :=
  Word.and_mask (k := 9) hpaddr (by decide)

theorem diskCopied_add (dst src n n' : Nat) :
    diskCopied disk (diskCopied disk m dst src n) (dst + n) (src + n) n' =
      diskCopied disk m dst src (n + n') := by
  funext x
  by_cases hlow : x < dst + n
  · have hle : ¬(dst + n ≤ x) := Nat.not_le.2 hlow
    simp only [diskCopied, hle, hlow, false_and, and_true, if_false]
    refine if_congr ?_ rfl rfl
    omega
  · have hle : dst + n ≤ x := Nat.not_lt.1 hlow
    have hsrc : src + n + (x - (dst + n)) = src + (x - dst) := by omega
    simp only [diskCopied, hle, hlow, true_and, and_false, if_false, hsrc]
    refine if_congr ?_ rfl rfl
    omega

theorem readsegLoop_eq {stop : Nat} : ∀ {k fuel : Nat} {m : ByteMem} {paddr offset : Nat},
    k < fuel → paddr + sectSize * k < 2 ^ 32 → offset + k < 2 ^ 32 → stop ≤ paddr + sectSize * k →
    paddr + sectSize * k < stop + sectSize →
    readsegLoop disk stop fuel m paddr offset =
      .ok (diskCopied disk m paddr (sectSize * offset) (sectSize * k)) := by
  intro k
  induction k with
  | zero =>
    intro fuel m paddr offset hfuel _ _ hstop _
    obtain ⟨fuel, rfl⟩ := Nat.exists_eq_succ_of_ne_zero hfuel.ne'
    have hnone : diskCopied disk m paddr (sectSize * offset) (sectSize * 0) = m := by
      funext x
      exact if_neg (by omega)
    rw [readsegLoop, if_neg (by omega), hnone]
  | succ k ih =>
    intro fuel m paddr offset hfuel hpaddr hoffset hstop hlast
    obtain ⟨fuel, rfl⟩ := Nat.exists_eq_add_of_lt hfuel
    simp only [sectSize, Nat.mul_succ, ← Nat.add_assoc] at hpaddr hstop hlast ih ⊢
    rw [readsegLoop, if_pos (by omega), sectSize, Word.add_eq, Word.add_eq,
      ih (by omega) (by omega) (by omega) (by omega) (by omega), readsect, sectSize, Nat.mul_succ,
      diskCopied_add, Nat.add_comm (512 * k)]

/-- **Reading a segment.**  If its place in memory and its place in the image agree within a sector
and no address wraps, up to the end of the last sector that is read, then `readseg` returns with
the segment in memory, and it writes nothing before the first of its sectors nor after the last. -/
theorem readseg_copies (hpaddr : paddr < 2 ^ 32) (hoffset : offset < 2 ^ 32)
    (halign : paddr % sectSize = offset % sectSize)
    (hwrap : (paddr + memsz + (sectSize - 1)) / sectSize * sectSize < 2 ^ 32) :
    ∃ m', readseg disk m paddr memsz offset = .ok m' ∧
      (∀ k, k < memsz → m' (paddr + k) = disk (sectSize + offset + k)) ∧
      ∀ x, x < paddr / sectSize * sectSize ∨
        (paddr + memsz + (sectSize - 1)) / sectSize * sectSize ≤ x → m' x = m x := by
  simp only [sectSize] at halign hwrap ⊢
  -- the number of sectors from the one that the segment starts in
  obtain ⟨k, hk⟩ : ∃ k, (paddr + memsz + 511) / 512 * 512 = paddr - paddr % 512 + 512 * k :=
    ⟨(paddr + memsz + 511) / 512 - paddr / 512, by omega⟩
  have hloop : readsegLoop disk (paddr + memsz) loopFuel m (paddr - paddr % 512)
      (offset / 512 + 1) =
        .ok (diskCopied disk m (paddr - paddr % 512) (512 * (offset / 512 + 1)) (512 * k)) :=
    readsegLoop_eq (by rw [loopFuel]; omega) (by rw [sectSize]; omega) (by omega)
      (by rw [sectSize]; omega) (by rw [sectSize]; omega)
  rw [readseg, sectMask hpaddr, Word.add_eq, sectSize, Word.add_eq, hloop]
  refine ⟨_, rfl, ?_, ?_⟩
  · intro k hlt
    rw [diskCopied, if_pos (by omega)]
    congr 1
    omega
  · intro x hx
    rw [diskCopied, if_neg (by omega)]

/-- A segment of three bytes that starts at the end of a sector. -/
theorem readseg_copies_three :
    ∃ m', readseg (fun x => UInt8.ofNat x) (fun _ => 0) 511 3 1023 = .ok m' ∧
    m' 511 = 255 ∧ m' 512 = 0 ∧ m' 1024 = 0 := by
  obtain ⟨m', hread, hin, hout⟩ :=
    @readseg_copies (fun x => UInt8.ofNat x) (fun _ => 0) 511 3 1023 (by decide) (by decide)
      (by decide) (by decide)
  refine ⟨m', hread, hin 0 (by decide), hin 1 (by decide), hout 1024 (by decide)⟩

theorem readsegLoop_diverges {stop : Nat} (hstop : 2 ^ 32 < stop + sectSize) :
    ∀ (fuel : Nat) {m : ByteMem} {paddr offset : Nat}, paddr < 2 ^ 32 → paddr % sectSize = 0 →
    readsegLoop disk stop fuel m paddr offset = .error .diverges := by
  intro fuel
  induction fuel with
  | zero => intro m paddr offset _ _; rfl
  | succ fuel ih =>
    intro m paddr offset hpaddr hsector
    simp only [sectSize] at hstop hsector ih
    rw [readsegLoop, if_pos (by omega)]
    refine ih (Word.add_lt _ _) ?_
    rw [Word.add, sectSize]
    omega

/-- The address of the loop wraps before it gets to an end in the last sector. -/
theorem readseg_wraps (hpaddr : paddr < 2 ^ 32) (hend : paddr + memsz < 2 ^ 32)
    (hlast : 2 ^ 32 < paddr + memsz + sectSize) :
    readseg disk m paddr memsz offset = .error .diverges := by
  rw [readseg, Word.add_eq hend, sectMask hpaddr]
  exact readsegLoop_diverges hlast loopFuel (by omega) (by rw [sectSize]; omega)

end JinxOS
