import JinxOS.Hw.Cga

/-!
# The screen shows the end of what was written

What `putc_cga` is for, as long as it is given text: there is a terminal with as many rows as it
takes, and the screen shows its last 25 rows.  The terminal knows nothing of a screen; a character
goes to the column where the cursor is, a row that is full is followed by the next one, and no row
is ever lost.

`Displays attrib crt t top` says that the screen shows the rows of `t` from `top` on, and that
`crt.pos` is where the cursor is in this window.  In the middle of a call the cursor may be in the
row below the window.

* `Displays.moveCga` — the `switch` does what the terminal does, in the same window;
* `Displays.scroll` — `scroll` moves the window down by a row;
* `putsCga_refines` — **after any text the screen shows the last 25 rows.**
-/

namespace JinxOS

open Function (update update_of_ne)

/-! ## The terminal -/

/-- A terminal with 80 columns, and rows without end. -/
structure Terminal where
  /-- The character in a row and a column. -/
  text : Nat → Nat → UInt8
  /-- The row of the cursor. -/
  row : Nat
  /-- The column of the cursor. -/
  col : Nat

/-- The terminal before it has received anything. -/
def Terminal.empty : Terminal := ⟨fun _ _ => byte ' ', 0, 0⟩

/-- The terminal receives a character. -/
def Terminal.receive (t : Terminal) (c : UInt8) : Terminal :=
  if c = byte '\n' then ⟨t.text, t.row + 1, 0⟩
  else if c = byte '\r' then ⟨t.text, t.row, 0⟩
  else
    let text := update t.text t.row (update (t.text t.row) t.col c)
    if t.col + 1 < crtCols then ⟨text, t.row, t.col + 1⟩ else ⟨text, t.row + 1, 0⟩

/-- The terminal after a text. -/
def Terminal.after (cs : List UInt8) : Terminal := cs.foldl Terminal.receive .empty

/-- The first of the last 25 rows.  If there are fewer rows, it is the first one. -/
def Terminal.top (t : Terminal) : Nat := t.row + 1 - crtRows

/-- Printable characters, newlines and carriage returns. -/
def IsText (c : UInt8) : Prop := c = byte '\n' ∨ c = byte '\r' ∨ (0x20 ≤ c ∧ c ≤ 0x7E)

instance IsText.decidable (c : UInt8) : Decidable (IsText c) :=
  inferInstanceAs (Decidable (_ ∨ _))

/-! ## The window -/

/-- The index of the cell in a row and a column of the screen. -/
def cellIndex (r c : Nat) : Nat := r * crtCols + c

theorem cellIndex_eq (r c : Nat) : cellIndex r c = r * 80 + c := rfl

/-- The screen shows the rows of the terminal from `top` on. -/
structure Displays (attrib : UInt16) (crt : Crt) (t : Terminal) (top : Nat) : Prop where
  col_lt : t.col < crtCols
  top_le : top ≤ t.row
  row_le : t.row ≤ top + crtRows
  pos_eq : crt.pos = cellIndex (t.row - top) t.col
  cells : ∀ r < crtRows, ∀ c < crtCols,
    crt.cell (cellIndex r c) = glyph attrib (t.text (top + r) c)
  below : ∀ r, top + crtRows ≤ r → ∀ c, t.text r c = byte ' '

section
variable {attrib : UInt16} {crt : Crt} {t : Terminal} {top : Nat}

theorem cell_index_inj {r r' c c' : Nat} (hc : c < crtCols) (hc' : c' < crtCols) :
    cellIndex r c = cellIndex r' c' ↔ r = r' ∧ c = c' := by
  obtain ⟨hrows, hcols, hsize⟩ := crt_dims
  rw [cellIndex_eq, cellIndex_eq]
  omega

theorem cellIndex_lt {r c : Nat} (hr : r < crtRows) (hc : c < crtCols) :
    cellIndex r c < crtSize := by
  obtain ⟨hrows, hcols, hsize⟩ := crt_dims
  rw [cellIndex_eq]
  omega

theorem crtSize_lt : crtSize < 2 ^ 16 := by decide

theorem displays_cls (attrib : UInt16) (crt : Crt) :
    Displays attrib (cls attrib crt) .empty Terminal.empty.top where
  col_lt := by decide
  top_le := by decide
  row_le := by decide
  pos_eq := cls_pos
  cells _ hr _ hc := cell_cls (cellIndex_lt hr hc)
  below _ _ _ := rfl

section
variable (h : Displays attrib crt t top)
include h

/-- A character is written at the cursor.  Where the cursor goes is said by `hpos`. -/
theorem Displays.putNext (hrow : t.row < top + crtRows) (c : UInt8)
    {row col : Nat} (hcol : col < crtCols) (htop : top ≤ row) (hle : row ≤ top + crtRows)
    (hpos : crt.pos + 1 = cellIndex (row - top) col) :
    Displays attrib (crt.putNext (glyph attrib c))
      ⟨update t.text t.row (update (t.text t.row) t.col c), row, col⟩ top where
  col_lt := hcol
  top_le := htop
  row_le := hle
  pos_eq := by
    obtain ⟨hrows, hcols, hsize⟩ := crt_dims
    rw [Crt.putNext, Crt.setPos_pos, hpos, cellIndex_eq]
    exact Nat.mod_eq_of_lt (by omega)
  cells := by
    intro r hr k hk
    have htop := h.top_le
    have hcur : cellIndex (t.row - top) t.col < crtSize := cellIndex_lt (by omega) h.col_lt
    rw [Crt.putNext, Crt.setPos_cell, h.pos_eq,
      Crt.cell_put (hcur.trans crtSize_lt) ((cellIndex_lt hr hk).trans crtSize_lt)]
    dsimp only
    by_cases hhere : r = t.row - top
    · have hline : top + r = t.row := by omega
      rw [hline, Function.update_self, Function.update_apply]
      by_cases hcur : k = t.col
      · rw [if_pos ((cell_index_inj hk h.col_lt).2 ⟨hhere, hcur⟩), if_pos hcur]
      · rw [if_neg fun heq => hcur ((cell_index_inj hk h.col_lt).1 heq).2, if_neg hcur,
          h.cells r hr k hk, hline]
    · rw [if_neg fun heq => hhere ((cell_index_inj hk h.col_lt).1 heq).1,
        update_of_ne (by omega)]
      exact h.cells r hr k hk
  below := by
    intro r hr k
    dsimp only
    rw [update_of_ne (by omega)]
    exact h.below r hr k

theorem Displays.setPos {row col : Nat} (hcol : col < crtCols)
    (htop : top ≤ row) (hle : row ≤ top + crtRows) :
    Displays attrib (crt.setPos (cellIndex (row - top) col)) ⟨t.text, row, col⟩ top where
  col_lt := hcol
  top_le := htop
  row_le := hle
  pos_eq := by
    obtain ⟨hrows, hcols, hsize⟩ := crt_dims
    rw [Crt.setPos_pos, cellIndex_eq]
    exact Nat.mod_eq_of_lt (by omega)
  cells := h.cells
  below := h.below

/-- **The `switch` does what the terminal does.** -/
theorem Displays.moveCga (hrow : t.row < top + crtRows) {c : UInt8}
    (hc : IsText c) : Displays attrib (moveCga attrib crt c) (t.receive c) top := by
  obtain ⟨hrows, hcols, hsize⟩ := crt_dims
  have hcol := h.col_lt
  have htop := h.top_le
  have hpos := h.pos_eq
  rw [cellIndex_eq] at hpos
  rw [JinxOS.moveCga, Terminal.receive]
  dsimp only
  rcases hc with rfl | rfl | hprint
  · -- the row below, which may be below the window
    have hsmall : (crt.pos + crtCols) % 2 ^ 16 = crt.pos + crtCols := Nat.mod_eq_of_lt (by omega)
    have hnext : (crt.setPos (crt.pos + crtCols)).pos -
        (crt.setPos (crt.pos + crtCols)).pos % crtCols = cellIndex (t.row + 1 - top) 0 := by
      rw [Crt.setPos_pos, hsmall, cellIndex_eq, hcols]
      omega
    rw [if_neg (by decide), if_pos rfl, if_pos rfl, hnext]
    exact h.setPos (by omega) (by omega) (by omega)
  · have hstart : crt.pos - crt.pos % crtCols = cellIndex (t.row - top) 0 := by
      rw [cellIndex_eq, hcols]
      omega
    rw [if_neg (by decide), if_neg (by decide), if_pos rfl, if_neg (by decide), if_pos rfl, hstart]
    exact h.setPos (by omega) htop (by omega)
  · have hsigned : 0x20 ≤ signedChar c ∧ signedChar c ≤ 0x7E := by
      have hlow : 0x20 ≤ c.toNat := UInt8.le_iff_toNat_le.1 hprint.1
      have hhigh : c.toNat ≤ 0x7E := UInt8.le_iff_toNat_le.1 hprint.2
      rw [signedChar, if_pos (UInt8.lt_iff_toNat_lt.2 (show c.toNat < 128 by omega))]
      omega
    have hne : ∀ d : UInt8, d < 0x20 → c ≠ d := by
      rintro d hd rfl
      exact absurd hprint.1 (UInt8.not_le.2 hd)
    rw [if_neg (hne _ (by decide)), if_neg (hne _ (by decide)), if_neg (hne _ (by decide)),
      if_neg (hne _ (by decide)), if_pos hsigned, if_neg (hne _ (by decide)),
      if_neg (hne _ (by decide))]
    split
    · exact h.putNext hrow c (by omega) htop (by omega) (by rw [cellIndex_eq]; omega)
    · exact h.putNext hrow c (by omega) (by omega) (by omega) (by rw [cellIndex_eq]; omega)

/-- **`scroll` moves the window down by a row.** -/
theorem Displays.scroll (hrow : t.row = top + crtRows) :
    Displays attrib (scroll attrib crt) t (top + 1) where
  col_lt := h.col_lt
  top_le := by
    obtain ⟨hrows, hcols, hsize⟩ := crt_dims
    omega
  row_le := by omega
  pos_eq := by
    obtain ⟨hrows, hcols, hsize⟩ := crt_dims
    have hcol := h.col_lt
    have hpos := h.pos_eq
    rw [cellIndex_eq] at hpos
    rw [scroll_pos attrib (by omega) (by omega), cellIndex_eq]
    omega
  cells := by
    intro r hr c hc
    obtain ⟨hrows, hcols, hsize⟩ := crt_dims
    have hindex := cellIndex_eq r c
    have hnext : cellIndex r c + crtCols = cellIndex (r + 1) c := by
      rw [cellIndex_eq, cellIndex_eq]
      omega
    rw [cell_scroll (cellIndex_lt hr hc)]
    by_cases hlast : r + 1 < crtRows
    · rw [if_pos (by omega), hnext, h.cells (r + 1) hlast c hc, Nat.add_assoc, Nat.add_comm 1]
    · rw [if_neg (by omega), h.below (top + 1 + r) (by omega)]
  below r hr c := h.below r (by omega) c

theorem Displays.updateCursor : Displays attrib (updateCursor crt) t top :=
  ⟨h.col_lt, h.top_le, h.row_le, h.pos_eq, h.cells, h.below⟩

end

/-- **One call.**  Before and after it the window has the last rows. -/
theorem Displays.putcCga (h : Displays attrib crt t t.top) {c : UInt8} (hc : IsText c) :
    Displays attrib (putcCga attrib crt c) (t.receive c) (t.receive c).top := by
  obtain ⟨hrows, hcols, hsize⟩ := crt_dims
  have htop : t.top = t.row + 1 - crtRows := rfl
  have hmove := h.moveCga (by omega) hc
  have hstep : (t.receive c).row = t.row ∨ (t.receive c).row = t.row + 1 := by
    rw [Terminal.receive]
    split_ifs
    · exact .inr rfl
    · exact .inl rfl
    · exact .inl rfl
    · exact .inr rfl
  have hcol := hmove.col_lt
  have hpos := hmove.pos_eq
  rw [cellIndex_eq] at hpos
  have hnew : (t.receive c).top = (t.receive c).row + 1 - crtRows := rfl
  rw [JinxOS.putcCga]
  refine Displays.updateCursor ?_
  split
  · have hbelow : (t.receive c).row = t.top + crtRows := by
      omega
    rw [show (t.receive c).top = t.top + 1 by omega]
    exact hmove.scroll hbelow
  · rw [show (t.receive c).top = t.top by omega]
    exact hmove

theorem displays_putsCga (attrib : UInt16) (crt : Crt) {cs : List UInt8}
    (hcs : ∀ c ∈ cs, IsText c) :
    Displays attrib (putsCga attrib (cls attrib crt) cs) (.after cs) (Terminal.after cs).top := by
  induction cs using List.reverseRecOn with
  | nil => exact displays_cls attrib crt
  | append_singleton cs c ih =>
    have hcalls : putsCga attrib (cls attrib crt) (cs ++ [c]) =
        putcCga attrib (putsCga attrib (cls attrib crt) cs) c := List.foldl_concat _ _ _ _
    have hterm : Terminal.after (cs ++ [c]) = (Terminal.after cs).receive c :=
      List.foldl_concat _ _ _ _
    rw [hcalls, hterm]
    exact (ih fun d hd => hcs d (List.mem_append_left _ hd)).putcCga
      (hcs c (List.mem_append_right _ List.mem_cons_self))

end

/-- **The screen refines the terminal.**  After `cls` and any sequence of printable characters,
newlines and carriage returns, whatever the colours are and whatever was on the screen before: the
cells have the last 25 rows of the terminal that has received the same, and `crt.pos` is the
position of its cursor among them. -/
theorem putsCga_refines (attrib : UInt16) (crt : Crt) (cs : List UInt8) (hcs : ∀ c ∈ cs, IsText c) :
    (∀ r < crtRows, ∀ c < crtCols,
      (putsCga attrib (cls attrib crt) cs).cell (cellIndex r c) =
        glyph attrib ((Terminal.after cs).text ((Terminal.after cs).top + r) c)) ∧
      (Terminal.after cs).top ≤ (Terminal.after cs).row ∧
      (Terminal.after cs).row < (Terminal.after cs).top + crtRows ∧
      (Terminal.after cs).col < crtCols ∧
      (putsCga attrib (cls attrib crt) cs).pos =
        cellIndex ((Terminal.after cs).row - (Terminal.after cs).top) (Terminal.after cs).col := by
  have htop : (Terminal.after cs).top = (Terminal.after cs).row + 1 - crtRows := rfl
  have h := displays_putsCga attrib crt hcs
  exact ⟨h.cells, h.top_le, by omega, h.col_lt, h.pos_eq⟩

/-- A row and five letters, 24 newlines and another letter: what is left of the second row is at the
top of the screen. -/
def scrollText : List UInt8 :=
  List.replicate 85 (byte 'a') ++ List.replicate 24 (byte '\n') ++ [byte 'b']

theorem putsCga_refines_scroll :
    (putsCga 0x0F00 (cls 0x0F00 newCrt) scrollText).cell 4 = 0x0F61 ∧
      (putsCga 0x0F00 (cls 0x0F00 newCrt) scrollText).cell 5 = 0x0F20 ∧
      (putsCga 0x0F00 (cls 0x0F00 newCrt) scrollText).cell 1920 = 0x0F62 ∧
      (putsCga 0x0F00 (cls 0x0F00 newCrt) scrollText).pos = 1921 := by
  obtain ⟨hcells, -, -, -, hpos⟩ := putsCga_refines 0x0F00 newCrt scrollText (by decide +kernel)
  refine ⟨(hcells 0 (by decide) 4 (by decide)).trans ?_,
    (hcells 0 (by decide) 5 (by decide)).trans ?_,
    (hcells 24 (by decide) 0 (by decide)).trans ?_, hpos.trans ?_⟩
  · decide +kernel
  · decide +kernel
  · decide +kernel
  · decide +kernel

end JinxOS
