import JinxOS.Klib.Format
import JinxOS.Lib.HalfWords
import JinxOS.Mem.Vmm
import Mathlib.Data.List.Basic
import Mathlib.Data.List.Induction

/-!
# The screen

The code of `hw/cga.c`.  The screen is an array of 25 × 80 cells of 16 bits in memory, a character
and its colours each; `crt.pos` is the cell that is written next.  `putc_cga` moves it on, and looks
only afterwards whether it has left the screen, in which case `scroll` copies all rows up by one.

The model keeps the bytes, because `scroll` copies bytes.  The indices of the cells that are written
are recorded in `Crt.writes`, which the code does not have.

* `Crt.cell_put`, `cell_scroll` and `cell_cls` say what the functions do to the cells;
* `writes_lt_iff` — **which calls write outside the screen**: a tab is four blanks, and if it comes
  within the last three cells they go beyond the end.
-/

namespace JinxOS

/-! ## The code -/

/-- `CRT_ROWS`. -/
def crtRows : Nat := 25

/-- `CRT_COLS`. -/
def crtCols : Nat := 80

/-- `CRT_SIZE`. -/
def crtSize : Nat := crtRows * crtCols

theorem crt_dims : crtRows = 25 ∧ crtCols = 80 ∧ crtSize = 2000 := ⟨rfl, rfl, rfl⟩

/-- `crt.buf`, as `init_cga` sets it. -/
def crtBuf : Nat := kaddr + 0xB8000

/-- `struct crt` and the screen. -/
structure Crt where
  /-- Memory, with the cells at `crtBuf`. -/
  mem : ByteMem
  /-- `crt.pos`, an `uint16_t`. -/
  pos : Nat
  /-- The registers 14 and 15 of the 6845, which have the position of the cursor. -/
  cursor : UInt8 × UInt8
  /-- The cells that have been written, the last one first. -/
  writes : List Nat

/-- The address of `crt.buf[i]`. -/
def cellAddr (i : Nat) : Nat := Word.add crtBuf (2 * i)

/-- `crt.buf[i]`. -/
def Crt.cell (crt : Crt) (i : Nat) : UInt16 := crt.mem.load16 (cellAddr i)

/-- `crt.buf[i] = v`. -/
def Crt.put (crt : Crt) (i : Nat) (v : UInt16) : Crt :=
  { crt with mem := crt.mem.store16 (cellAddr i) v, writes := i :: crt.writes }

/-- `crt.pos = pos`. -/
def Crt.setPos (crt : Crt) (pos : Nat) : Crt := { crt with pos := pos % 2 ^ 16 }

/-- `crt.buf[crt.pos++] = v`. -/
def Crt.putNext (crt : Crt) (v : UInt16) : Crt := (crt.put crt.pos v).setPos (crt.pos + 1)

/-- `attrib | c`, for a character that is not negative. -/
def glyph (attrib : UInt16) (c : UInt8) : UInt16 := attrib ||| c.toUInt16

/-- `memcpy(crt.buf, crt.buf + CRT_COLS, (CRT_SIZE - CRT_COLS) * sizeof(uint16_t))`. -/
def Crt.shiftUp (crt : Crt) : Crt :=
  { crt with
    mem := crt.mem.memcpy crtBuf (cellAddr crtCols) ((crtSize - crtCols) * 2)
    writes := (List.range (crtSize - crtCols)).reverse ++ crt.writes }

/-- `crt.buf[i] = v` for some `i`, one after the other. -/
def Crt.putAll (v : UInt16) (l : List Nat) (crt : Crt) : Crt :=
  l.foldl (fun crt i => crt.put i v) crt

/-- `scroll`. -/
def scroll (attrib : UInt16) (crt : Crt) : Crt :=
  let crt := crt.shiftUp.putAll (glyph attrib (byte ' ')) (List.range' (crtSize - crtCols) crtCols)
  crt.setPos (crt.pos + (2 ^ 16 - crtCols))

/-- `update_cursor`. -/
def updateCursor (crt : Crt) : Crt :=
  { crt with cursor := (.ofNat (crt.pos / 2 ^ 8), .ofNat crt.pos) }

/-- `memsetw(crt.buf, v, CRT_SIZE)`. -/
def Crt.fill (v : UInt16) (crt : Crt) : Crt :=
  { crt with
    mem := crt.mem.memsetw crtBuf v crtSize
    writes := (List.range crtSize).reverse ++ crt.writes }

/-- `cls`.  It fills the screen as often as there are cells. -/
def cls (attrib : UInt16) (crt : Crt) : Crt :=
  let crt := (Crt.fill (glyph attrib (byte ' ')))^[crtSize] crt
  updateCursor (crt.setPos 0)

/-- The `switch` of `putc_cga`. -/
def moveCga (attrib : UInt16) (crt : Crt) (c : UInt8) : Crt :=
  let blank := glyph attrib (byte ' ')
  if c = byte '\x08' then
    if crt.pos > 0 then
      let crt := crt.setPos (crt.pos - 1)
      crt.put crt.pos blank
    else crt
  else if c = byte '\n' then
    let crt := crt.setPos (crt.pos + crtCols)
    crt.setPos (crt.pos - crt.pos % crtCols)
  else if c = byte '\r' then crt.setPos (crt.pos - crt.pos % crtCols)
  else if c = byte '\t' then
    (((crt.putNext blank).putNext blank).putNext blank).putNext blank
  else if 0x20 ≤ signedChar c ∧ signedChar c ≤ 0x7E then crt.putNext (glyph attrib c)
  else crt

/-- `putc_cga`. -/
def putcCga (attrib : UInt16) (crt : Crt) (c : UInt8) : Crt :=
  let crt := moveCga attrib crt c
  updateCursor (if crt.pos ≥ crtSize then scroll attrib crt else crt)

/-- A sequence of calls of `putc_cga`. -/
def putsCga (attrib : UInt16) (crt : Crt) (cs : List UInt8) : Crt := cs.foldl (putcCga attrib) crt

/-! ## The cells -/

section
variable {crt : Crt} {i j : Nat} {v : UInt16} {attrib : UInt16}

theorem cellAddr_eq (hi : i < 2 ^ 16) : cellAddr i = crtBuf + 2 * i := by
  have hbuf : crtBuf = 0xC00B8000 := rfl
  exact Word.add_eq

@[simp] theorem Crt.setPos_pos (p : Nat) : (crt.setPos p).pos = p % 2 ^ 16 := rfl

@[simp] theorem Crt.setPos_writes (p : Nat) : (crt.setPos p).writes = crt.writes := rfl

@[simp] theorem Crt.setPos_cell (p : Nat) : (crt.setPos p).cell i = crt.cell i := rfl

@[simp] theorem Crt.put_pos : (crt.put i v).pos = crt.pos := rfl

@[simp] theorem Crt.put_writes : (crt.put i v).writes = i :: crt.writes := rfl

@[simp] theorem updateCursor_pos : (updateCursor crt).pos = crt.pos := rfl

@[simp] theorem updateCursor_writes : (updateCursor crt).writes = crt.writes := rfl

@[simp] theorem updateCursor_cell : (updateCursor crt).cell i = crt.cell i := rfl

theorem Crt.cell_put (hi : i < 2 ^ 16) (hj : j < 2 ^ 16) :
    (crt.put i v).cell j = if j = i then v else crt.cell j := by
  rw [cell, put, cellAddr_eq hi, cellAddr_eq hj]
  split
  · rename_i heq
    rw [heq, ByteMem.load16_store16_same]
  · rw [ByteMem.load16_store16_of_disjoint (by omega), cell, cellAddr_eq hj]

theorem Crt.cell_putAll : ∀ (l : List Nat) {crt : Crt}, (∀ i ∈ l, i < 2 ^ 16) → j < 2 ^ 16 →
    (crt.putAll v l).cell j = if j ∈ l then v else crt.cell j
  | [], _, _, _ => by simp [putAll]
  | i :: l, crt, hl, hj => by
    have hrest : ∀ k ∈ l, k < 2 ^ 16 := fun k hk => hl k (List.mem_cons_of_mem i hk)
    have hcons : crt.putAll v (i :: l) = (crt.put i v).putAll v l := rfl
    rw [hcons, cell_putAll l hrest hj, cell_put (hl i List.mem_cons_self) hj]
    simp only [List.mem_cons]
    by_cases hmem : j ∈ l
    · rw [if_pos hmem, if_pos (.inr hmem)]
    · rw [if_neg hmem]
      simp only [hmem, or_false]

theorem Crt.putAll_pos : ∀ (l : List Nat) (crt : Crt), (crt.putAll v l).pos = crt.pos
  | [], _ => rfl
  | i :: l, crt => putAll_pos l (crt.put i v)

theorem Crt.putAll_writes : ∀ (l : List Nat) (crt : Crt),
    (crt.putAll v l).writes = l.reverse ++ crt.writes
  | [], _ => rfl
  | i :: l, crt => by
    have hcons : crt.putAll v (i :: l) = (crt.put i v).putAll v l := rfl
    rw [hcons, putAll_writes l, List.reverse_cons, List.append_assoc]
    rfl

/-- The target of the copy begins before its source, so copying forwards moves the rows. -/
theorem Crt.cell_shiftUp (hi : i < crtSize - crtCols) :
    crt.shiftUp.cell i = crt.cell (i + crtCols) := by
  have hbuf : crtBuf = 0xC00B8000 := rfl
  obtain ⟨hrows, hcols, hsize⟩ := crt_dims
  have hbyte : ∀ k, k < (crtSize - crtCols) * 2 →
      crt.shiftUp.mem (crtBuf + k) = crt.mem (crtBuf + 2 * crtCols + k) := by
    intro k hk
    rw [shiftUp]
    dsimp only
    rw [cellAddr_eq (by omega),
      ByteMem.memcpy_apply _ (.inl (Nat.le_add_right _ _)) (by omega) (by omega),
      if_pos (by omega), Nat.add_sub_cancel_left, Nat.add_comm]
  rw [cell, cell, cellAddr_eq (by omega), cellAddr_eq (by omega),
    show crtBuf + 2 * (i + crtCols) = crtBuf + 2 * crtCols + 2 * i by omega]
  refine ByteMem.load16_of_bytes (hbyte (2 * i) (by omega)) ?_
  rw [Nat.add_assoc, Nat.add_assoc (crtBuf + 2 * crtCols)]
  exact hbyte (2 * i + 1) (by omega)

/-- **Scrolling**: every row gets what the next one had, and the last one gets blanks. -/
theorem cell_scroll (hi : i < crtSize) : (scroll attrib crt).cell i =
    if i < crtSize - crtCols then crt.cell (i + crtCols) else glyph attrib (byte ' ') := by
  obtain ⟨hrows, hcols, hsize⟩ := crt_dims
  have hrange : ∀ k ∈ List.range' (crtSize - crtCols) crtCols, k < 2 ^ 16 := by
    intro k hk
    rw [List.mem_range'_1] at hk
    omega
  rw [scroll, Crt.setPos_cell, Crt.cell_putAll _ hrange (by omega)]
  by_cases hrow : i < crtSize - crtCols
  · have hnot : i ∉ List.range' (crtSize - crtCols) crtCols := by
      rw [List.mem_range'_1]
      omega
    rw [if_neg hnot, if_pos hrow, Crt.cell_shiftUp hrow]
  · have hmem : i ∈ List.range' (crtSize - crtCols) crtCols := by
      rw [List.mem_range'_1]
      omega
    rw [if_pos hmem, if_neg hrow]

theorem scroll_pos (attrib : UInt16) (hlow : crtCols ≤ crt.pos) (hhigh : crt.pos < 2 ^ 16) :
    (scroll attrib crt).pos = crt.pos - crtCols := by
  rw [scroll, Crt.setPos_pos, Crt.putAll_pos, Crt.shiftUp]
  dsimp only
  omega

theorem scroll_writes_lt : (∀ k ∈ (scroll attrib crt).writes, k < crtSize) ↔
    ∀ k ∈ crt.writes, k < crtSize := by
  obtain ⟨hrows, hcols, hsize⟩ := crt_dims
  rw [scroll, Crt.setPos_writes, Crt.putAll_writes, Crt.shiftUp]
  simp only [List.mem_append, List.mem_reverse, List.mem_range, List.mem_range'_1]
  constructor
  · exact fun h k hk => h k (.inr (.inr hk))
  · rintro h k (hk | hk | hk)
    · omega
    · omega
    · exact h k hk

theorem Crt.cell_fill (hi : i < crtSize) : (crt.fill v).cell i = v := by
  have hbuf : crtBuf = 0xC00B8000 := rfl
  obtain ⟨hrows, hcols, hsize⟩ := crt_dims
  have hfit : crtBuf + 2 * crtSize ≤ 2 ^ 32 := by omega
  rw [cell, cellAddr_eq (by omega), fill]
  generalize crtSize = n at *
  exact ByteMem.load16_memsetw n hfit hi

/-- **After `cls`** all cells are blank. -/
theorem cell_cls (hi : i < crtSize) : (cls attrib crt).cell i = glyph attrib (byte ' ') := by
  have hsucc : crtSize = 1999 + 1 := rfl
  rw [cls, updateCursor_cell, Crt.setPos_cell, hsucc, Function.iterate_succ_apply',
    Crt.cell_fill hi]

theorem cls_pos : (cls attrib crt).pos = 0 := rfl

theorem cls_writes_lt (h : crt.writes = []) : ∀ k ∈ (cls attrib crt).writes, k < crtSize := by
  have hfill : ∀ n, ∀ k ∈ ((Crt.fill (glyph attrib (byte ' ')))^[n] crt).writes, k < crtSize := by
    intro n
    induction n with
    | zero =>
      intro k hk
      rw [Function.iterate_zero_apply, h] at hk
      cases hk
    | succ n ih =>
      intro k hk
      rw [Function.iterate_succ_apply', Crt.fill, List.mem_append, List.mem_reverse,
        List.mem_range] at hk
      exact hk.elim id (ih k)
  rw [cls, updateCursor_writes, Crt.setPos_writes]
  exact hfill crtSize

end

/-! ## Which cells are written -/

section
variable {crt : Crt}

/-- **What the `switch` does to the position and the record**, if the position is on the screen: it
stays where the last `if` can bring it back, and only a tab writes outside. -/
theorem moveCga_pos (attrib : UInt16) (c : UInt8) (hpos : crt.pos < crtSize) :
    (moveCga attrib crt c).pos < crtSize + crtCols ∧
      ((∀ k ∈ (moveCga attrib crt c).writes, k < crtSize) ↔
        (∀ k ∈ crt.writes, k < crtSize) ∧ (c = byte '\t' → crt.pos + 4 ≤ crtSize)) := by
  obtain ⟨hrows, hcols, hsize⟩ := crt_dims
  rw [moveCga]
  split_ifs with hbs hgt hnl hcr htab hprint
  · have hne : c ≠ byte '\t' := hbs ▸ by decide
    have hback : (crt.pos - 1) % 2 ^ 16 = crt.pos - 1 := Nat.mod_eq_of_lt (by omega)
    simp only [Crt.put_pos, Crt.put_writes, Crt.setPos_pos, Crt.setPos_writes, hback,
      List.forall_mem_cons, hne, false_imp_iff, and_true]
    exact ⟨by omega, and_iff_right (by omega)⟩
  · have hne : c ≠ byte '\t' := hbs ▸ by decide
    exact ⟨by omega, by simp only [hne, false_imp_iff, and_true]⟩
  · have hne : c ≠ byte '\t' := hnl ▸ by decide
    simp only [Crt.setPos_pos, Crt.setPos_writes, hne, false_imp_iff, and_true]
    omega
  · have hne : c ≠ byte '\t' := hcr ▸ by decide
    simp only [Crt.setPos_pos, Crt.setPos_writes, hne, false_imp_iff, and_true]
    omega
  · have hone : ∀ n, n < 4 → (crt.pos + n + 1) % 2 ^ 16 = crt.pos + (n + 1) :=
      fun n hn => Nat.mod_eq_of_lt (by omega)
    have hfirst : (crt.pos + 1) % 2 ^ 16 = crt.pos + 1 := hone 0 (by decide)
    simp only [Crt.putNext, Crt.put_writes, Crt.setPos_pos, Crt.setPos_writes, hfirst,
      hone 1 (by decide), hone 2 (by decide), hone 3 (by decide), List.forall_mem_cons, htab,
      true_imp_iff]
    refine ⟨by omega, ?_⟩
    constructor
    · rintro ⟨hlast, -, -, -, hrest⟩
      exact ⟨hrest, by omega⟩
    · rintro ⟨hrest, hfit⟩
      exact ⟨by omega, by omega, by omega, by omega, hrest⟩
  · have hone : (crt.pos + 1) % 2 ^ 16 = crt.pos + 1 := Nat.mod_eq_of_lt (by omega)
    simp only [Crt.putNext, Crt.put_writes, Crt.setPos_pos, Crt.setPos_writes, hone,
      List.forall_mem_cons, htab, false_imp_iff, and_true]
    exact ⟨by omega, and_iff_right hpos⟩
  · exact ⟨by omega, by simp only [htab, false_imp_iff, and_true]⟩

theorem putcCga_pos (attrib : UInt16) (c : UInt8) (hpos : crt.pos < crtSize) :
    (putcCga attrib crt c).pos < crtSize ∧
      ((∀ k ∈ (putcCga attrib crt c).writes, k < crtSize) ↔
        (∀ k ∈ crt.writes, k < crtSize) ∧ (c = byte '\t' → crt.pos + 4 ≤ crtSize)) := by
  obtain ⟨hrows, hcols, hsize⟩ := crt_dims
  obtain ⟨hmove, hwrites⟩ := moveCga_pos attrib c hpos
  rw [putcCga, updateCursor_pos, updateCursor_writes]
  split
  · rw [scroll_pos attrib (by omega) (by omega), scroll_writes_lt]
    exact ⟨by omega, hwrites⟩
  · exact ⟨by omega, hwrites⟩

end

/-- **Which calls write outside the screen.**  After `cls` and any sequence of calls, the position
is on the screen.  All cells that were written are on the screen exactly if no tab came when there
were less than four cells left. -/
theorem writes_lt_iff (attrib : UInt16) (crt : Crt) (hnone : crt.writes = []) (cs : List UInt8) :
    (putsCga attrib (cls attrib crt) cs).pos < crtSize ∧
      ((∀ i ∈ (putsCga attrib (cls attrib crt) cs).writes, i < crtSize) ↔
        ∀ before after, cs = before ++ byte '\t' :: after →
          (putsCga attrib (cls attrib crt) before).pos + 4 ≤ crtSize) := by
  induction cs using List.reverseRecOn with
  | nil =>
    rw [putsCga, List.foldl_nil, cls_pos]
    refine ⟨by decide, iff_of_true (cls_writes_lt hnone) fun before after h => ?_⟩
    simp at h
  | append_singleton cs c ih =>
    obtain ⟨hpos, hiff⟩ := ih
    have hlast : putsCga attrib (cls attrib crt) (cs ++ [c]) =
        putcCga attrib (putsCga attrib (cls attrib crt) cs) c :=
      List.foldl_concat _ _ _ _
    obtain ⟨hpos', hiff'⟩ := putcCga_pos attrib c hpos
    rw [hlast, hiff', hiff]
    refine ⟨hpos', ?_⟩
    constructor
    · rintro ⟨hearlier, hnow⟩ before after heq
      rcases List.eq_nil_or_concat' after with rfl | ⟨after, d, rfl⟩
      · obtain ⟨rfl, rfl⟩ := List.append_inj' heq rfl |>.imp id List.singleton_inj.1
        exact hnow rfl
      · rw [← List.cons_append, ← List.append_assoc] at heq
        exact hearlier before after (List.append_inj' heq rfl).1
    · intro h
      refine ⟨fun before after heq => ?_, fun hc => ?_⟩
      · exact h before (after ++ [c]) (by rw [heq, List.append_assoc, List.cons_append])
      · exact h cs [] (by rw [hc])

/-- A screen before anything has been written. -/
def newCrt : Crt := ⟨fun _ => 0, 0, (0, 0), []⟩

theorem writes_lt_iff_tab :
    (putsCga 0x0F00 (cls 0x0F00 newCrt) [byte '\t']).pos < crtSize ∧
      ∀ i ∈ (putsCga 0x0F00 (cls 0x0F00 newCrt) [byte '\t']).writes, i < crtSize := by
  obtain ⟨hpos, hiff⟩ := writes_lt_iff 0x0F00 newCrt rfl [byte '\t']
  refine ⟨hpos, hiff.2 fun before after heq => ?_⟩
  obtain ⟨rfl, -⟩ : before = [] ∧ after = [] := by
    cases before with
    | nil => exact ⟨rfl, (List.cons.inj heq).2.symm⟩
    | cons c before => simp at heq
  rw [putsCga, List.foldl_nil, cls_pos]
  decide

/-- Down to the last row, and along it up to three cells before its end. -/
def toLastCells : List UInt8 := List.replicate 24 (byte '\n') ++ List.replicate 77 (byte 'x')

/-- **A tab at the end of the last row** writes outside the screen. -/
theorem tab_writes_outside :
    (putsCga 0x0F00 (cls 0x0F00 newCrt) toLastCells).pos = 1997 ∧
      ∃ i ∈ (putsCga 0x0F00 (cls 0x0F00 newCrt) (toLastCells ++ [byte '\t'])).writes,
        ¬ i < crtSize := by
  have hpos : (putsCga 0x0F00 (cls 0x0F00 newCrt) toLastCells).pos = 1997 := by decide +kernel
  refine ⟨hpos, ?_⟩
  have hlast : putsCga 0x0F00 (cls 0x0F00 newCrt) (toLastCells ++ [byte '\t']) =
      putcCga 0x0F00 (putsCga 0x0F00 (cls 0x0F00 newCrt) toLastCells) (byte '\t') :=
    List.foldl_concat _ _ _ _
  have hlt : (putsCga 0x0F00 (cls 0x0F00 newCrt) toLastCells).pos < crtSize := by
    rw [hpos]
    decide
  rw [hlast]
  by_contra hnone
  push Not at hnone
  have hfit := ((putcCga_pos 0x0F00 (byte '\t') hlt).2.1 hnone).2 rfl
  rw [hpos] at hfit
  exact absurd hfit (by decide)

end JinxOS
