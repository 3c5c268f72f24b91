import JinxOS.Klib.String

/-!
# Format strings

`klib/snprintf.c` and `klib/print.c` have the same scanner: a loop that puts out every character up
to the next `%`, then the `switch` at the label `reswitch`, which goes back to itself for flags,
widths and lengths until it comes to a conversion.  What they do for a conversion is different, and
so is what they do for a character that is none; this is what a `Printer` is.  Here is the scanner,
with everything that the two printers share.

The scanner reads the format one byte at a time.  The byte at index `strlen` is the one that ends
the string, and a read further on is the fault `outside`: that this does not happen is never
assumed.  An argument list is a function from positions to arguments, each of which has a value of
every type: it stands for an argument list with the types that the format asks for.

* `reswitch_reached` — the scanner gets from a `%` to a conversion or to the end of the string, and
  passes only flags on the way;
* `formatLoop_cases` — **the loop rule**: a printer returns if every conversion moves forward and
  not past the end of the format, and what it does if one moves past it is left to the printer;
* `formatLoop_feed` — what is put out does not depend on the function that it is put out with.
-/

namespace JinxOS

/-- The ways in which a formatter fails to return. -/
inductive FormatFault
  /-- A read before the format string, or after the byte that ends it. -/
  | outside
  /-- A store past the end of the buffer for the digits of a number. -/
  | bufOverflow
  /-- A loop that has made more iterations than it has bytes to read. -/
  | diverges
  deriving DecidableEq, Repr

/-- A character constant, as a byte. -/
def byte (c : Char) : UInt8 := c.toUInt8

/-- A character constant, as the `int` that it is. -/
def chr (c : Char) : Int := (byte c).toNat

/-- `"0123456789abcdef"[d]`. -/
def digitChar (d : Nat) : Int :=
  chr (['0', '1', '2', '3', '4', '5', '6', '7', '8', '9', 'a', 'b', 'c', 'd', 'e', 'f'].getD d '0')

/-- A `char`, which is signed, as an `int`. -/
def signedChar (c : UInt8) : Int := if c < 128 then c.toNat else (c.toNat : Int) - 256

/-! ## Arguments -/

/-- An argument: what `va_arg` gives for each type that it may be asked for.  `F` are the values of
type `long double`. -/
structure Arg (F : Type) where
  /-- As an `int`, an `unsigned`, a `long` or a pointer to something that is not read. -/
  word : BitVec 32
  /-- As a `long long`. -/
  dword : BitVec 64
  /-- As a `char*`. -/
  str : Option CString
  /-- As a `double` or `long double`. -/
  real : F

/-- `va_list`: the arguments, of which the first is the next one. -/
abbrev VaList (F : Type) := Nat → Arg F

/-- `getuint`.  A `long` is as wide as an `int`. -/
def getuint {F : Type} (arg : Arg F) (lflag : Int) : BitVec 64 :=
  if 2 ≤ lflag then arg.dword else arg.word.setWidth 64

/-- `getint`. -/
def getint {F : Type} (arg : Arg F) (lflag : Int) : BitVec 64 :=
  if 2 ≤ lflag then arg.dword else arg.word.signExtend 64

/-! ## The scanner -/

/-- `*(unsigned char*) fmt`, with `fmt` at index `i`. -/
def readByte (fmt : CString) (i : Nat) : Except FormatFault UInt8 :=
  if i ≤ fmt.strlen then .ok (fmt.bytes.getD i 0) else .error .outside

/-- The labels of the `switch`. -/
inductive Label
  | minus | zero | digit | star | dot | hash | ell | zed
  | chr | str | bin | dec | uns | oct | ptr | hex | flt | percent
  /-- `default`. -/
  | other
  deriving DecidableEq, Repr

/-- The label that a character goes to. -/
def label (ch : UInt8) : Label :=
  match Char.ofUInt8 ch with
  | '-' => .minus
  | '0' => .zero
  | '1' | '2' | '3' | '4' | '5' | '6' | '7' | '8' | '9' => .digit
  | '*' => .star
  | '.' => .dot
  | '#' => .hash
  | 'l' => .ell
  | 'z' => .zed
  | 'c' => .chr
  | 's' => .str
  | 'b' => .bin
  | 'd' => .dec
  | 'u' => .uns
  | 'o' => .oct
  | 'p' => .ptr
  | 'x' => .hex
  | 'f' => .flt
  | '%' => .percent
  | _ => .other

/-- The variables that the flags of a directive set. -/
structure Flags where
  padc : UInt8
  width : Int
  precision : Int
  lflag : Int
  altflag : Bool
  deriving DecidableEq, Repr

/-- Their values after the `%`. -/
def Flags.init : Flags := ⟨byte ' ', -1, -1, 0, false⟩

/-- The code at `process_precision`, after the assignment to `precision`. -/
def Flags.processPrecision (fl : Flags) (precision : Int) : Flags :=
  if fl.width < 0 then { fl with width := precision, precision := -1 }
  else { fl with precision := precision }

/-- A digit or not, in the loop over the digits of a number. -/
def isDigit (ch : UInt8) : Bool := byte '0' ≤ ch && ch ≤ byte '9'

/-- The loop over the digits: `fmt` and `precision` after it. -/
def scanDigits (fmt : CString) : Nat → Nat → Int → UInt8 → Except FormatFault (Nat × Int)
  | 0, _, _, _ => .error .diverges
  | fuel + 1, i, precision, ch => do
    let precision := toInt (precision * 10 + ch.toNat - chr '0')
    let ch ← readByte fmt i
    if isDigit ch then scanDigits fmt fuel (i + 1) precision ch
    else .ok (i, precision)

/-- Where a directive has got to when the `switch` comes to a label that does not go back to
`reswitch`. -/
structure Directive where
  /-- The character that the `switch` is at. -/
  ch : UInt8
  /-- `fmt`, which is after that character. -/
  pos : Nat
  /-- How many arguments have been taken. -/
  args : Nat
  /-- What the flags have been set to. -/
  flags : Flags

section
variable {F σ : Type}

/-- The `switch`, as long as it goes back to `reswitch`.  Only one of the printers has a label for
`z`. -/
def reswitch (zed : Bool) (fmt : CString) (ap : VaList F) :
    Nat → Nat → Nat → Flags → Except FormatFault Directive
  | 0, _, _, _ => .error .diverges
  | fuel + 1, i, k, fl => do
    let ch ← readByte fmt i
    match label ch with
    | .minus => reswitch zed fmt ap fuel (i + 1) k { fl with padc := byte '-' }
    | .zero => reswitch zed fmt ap fuel (i + 1) k { fl with padc := byte '0' }
    | .digit => do
      let (j, precision) ← scanDigits fmt (fmt.strlen + 2) (i + 1) 0 ch
      reswitch zed fmt ap fuel j k (fl.processPrecision precision)
    | .star => reswitch zed fmt ap fuel (i + 1) (k + 1) (fl.processPrecision (ap k).word.toInt)
    | .dot =>
      reswitch zed fmt ap fuel (i + 1) k { fl with width := if fl.width < 0 then 0 else fl.width }
    | .hash => reswitch zed fmt ap fuel (i + 1) k { fl with altflag := true }
    | .ell => reswitch zed fmt ap fuel (i + 1) k { fl with lflag := toInt (fl.lflag + 1) }
    | .zed =>
      -- `sizeof(size_t)` and `sizeof(long)` are both 4
      if zed then reswitch zed fmt ap fuel (i + 1) k { fl with lflag := 1 }
      else .ok ⟨ch, i + 1, k, fl⟩
    | _ => .ok ⟨ch, i + 1, k, fl⟩

/-! ## The loop -/

/-- Put a list of characters out, the first one first. -/
def feed (putch : Int → σ → σ) (st : σ) (cs : List Int) : σ := cs.foldl (fun st c => putch c st) st

/-- What a conversion does: the characters that it puts out, and where it leaves `fmt` and the
arguments. -/
structure Converted where
  chars : List Int
  pos : Nat
  args : Nat
  deriving DecidableEq, Repr

/-- What the two formatters do not share. -/
structure Printer (F : Type) where
  /-- Is there a label `z`? -/
  zed : Bool
  /-- The rest of the `switch`. -/
  convert : CString → VaList F → Directive → Except FormatFault Converted

/-- The loops of the formatter, with `fmt` at index `i` and `k` arguments taken. -/
def formatLoop (pr : Printer F) (putch : Int → σ → σ) (fmt : CString) (ap : VaList F) :
    Nat → Nat → Nat → σ → Except FormatFault σ
  | 0, _, _, _ => .error .diverges
  | fuel + 1, i, k, st => do
    let ch ← readByte fmt i
    if ch = byte '%' then do
      let d ← reswitch pr.zed fmt ap (fmt.strlen + 2) (i + 1) k .init
      let c ← pr.convert fmt ap d
      formatLoop pr putch fmt ap fuel c.pos c.args (feed putch st c.chars)
    else if ch = 0 then .ok st
    else formatLoop pr putch fmt ap fuel (i + 1) k (putch ch.toNat st)

/-- The formatter. -/
def format (pr : Printer F) (putch : Int → σ → σ) (fmt : CString) (ap : VaList F) (st : σ) :
    Except FormatFault σ :=
  formatLoop pr putch fmt ap (fmt.strlen + 2) 0 0 st

/-- A function to put characters out with that only keeps them. -/
def record (c : Int) (cs : List Int) : List Int := cs ++ [c]

end

/-! ## The conversion of strings, which the printers share -/

/-- The loop over the characters of the string: what it puts out, and `width` after it. -/
def putString (altflag : Bool) : List UInt8 → Int → Int → List Int × Int
  | [], _, width => ([], width)
  | c :: p, precision, width =>
    -- `precision < 0 || --precision >= 0`
    if precision < 0 ∨ 0 ≤ precision - 1 then
      let ch := signedChar c
      let precision := if precision < 0 then precision else precision - 1
      let (cs, width) := putString altflag p precision (toInt (width - 1))
      ((if altflag && (ch < chr ' ' || chr '~' < ch) then chr '?' else ch) :: cs, width)
    else ([], width)

/-- A loop that puts out one character while `width` is positive and counts it down. -/
def pad (padc : UInt8) (width : Int) : List Int := List.replicate width.toNat padc.toNat

/-- The text `(null)`. -/
def nullText : CString := ⟨['(', 'n', 'u', 'l', 'l', ')'].map byte, by decide, by decide⟩

/-- The `case 's'` after the argument has been taken. -/
def convertString (fl : Flags) (p : CString) : List Int :=
  let width := if 0 < fl.width ∧ fl.padc ≠ byte '-' then toInt (fl.width - p.strlen) else fl.width
  let (left, width) :=
    if 0 < fl.width ∧ fl.padc ≠ byte '-' then (pad fl.padc width, min width 0) else ([], width)
  let (cs, width) := putString fl.altflag p.bytes fl.precision width
  left ++ cs ++ pad (byte ' ') width

/-! ## Reading the format -/

section
variable {fmt : CString} {i : Nat}

/-- The byte at an index of a string, or the one that ends it. -/
def byteAt (fmt : CString) (i : Nat) : UInt8 := fmt.bytes.getD i 0

theorem readByte_eq (h : i ≤ fmt.strlen) : readByte fmt i = .ok (byteAt fmt i) := if_pos h

theorem readByte_outside (h : fmt.strlen < i) : readByte fmt i = .error .outside :=
  if_neg (Nat.not_le.2 h)

theorem byteAt_eq_zero (h : i ≤ fmt.strlen) : byteAt fmt i = 0 ↔ i = fmt.strlen := by
  rcases Nat.eq_or_lt_of_le h with rfl | hlt
  · exact iff_of_true (List.getD_eq_default _ _ (Nat.le_refl _)) rfl
  · have hmem : byteAt fmt i ∈ fmt.bytes := by
      rw [byteAt, List.getD_eq_getElem _ _ hlt]
      exact List.getElem_mem hlt
    exact iff_of_false (fun hz => fmt.noNul (hz ▸ hmem)) (by omega)

/-- A flag, a digit or a length: a character after which the `switch` goes back to `reswitch`. -/
def isFlag (zed : Bool) (ch : UInt8) : Bool :=
  match label ch with
  | .minus | .zero | .digit | .star | .dot | .hash | .ell => true
  | .zed => zed
  | _ => false

/-- The character for a decimal digit. -/
def digitByte (d : Nat) : UInt8 := UInt8.ofNat (48 + d)

theorem label_digitByte : ∀ d < 10, label (digitByte d) = if d = 0 then .zero else .digit := by
  decide

theorem isDigit_digitByte : ∀ d < 10, isDigit (digitByte d) = true := by
  decide

theorem digitByte_value : ∀ d < 10, ((digitByte d).toNat : Int) - chr '0' = d := by
  decide

theorem isDigit_eq {ch : UInt8} (h : isDigit ch = true) : ∃ d < 10, ch = digitByte d := by
  rw [isDigit, Bool.and_eq_true, decide_eq_true_iff, decide_eq_true_iff, UInt8.le_iff_toNat_le,
    UInt8.le_iff_toNat_le] at h
  have hlo : 48 ≤ ch.toNat := h.1
  have hhi : ch.toNat ≤ 57 := h.2
  refine ⟨ch.toNat - 48, by omega, ?_⟩
  rw [digitByte, Nat.add_sub_cancel' hlo, UInt8.ofNat_toNat]

theorem isFlag_of_isDigit (zed : Bool) {ch : UInt8} (h : isDigit ch = true) :
    isFlag zed ch = true := by
  obtain ⟨d, hd, rfl⟩ := isDigit_eq h
  rw [isFlag, label_digitByte d hd]
  by_cases hzero : d = 0 <;> simp [hzero]

/-- How the scanner gets from index `i` to a directive: over flags, up to a character that is none.
-/
structure Reached (zed : Bool) (fmt : CString) (i : Nat) (d : Directive) : Prop where
  lt : i < d.pos
  le : d.pos ≤ fmt.strlen + 1
  ch_eq : byteAt fmt (d.pos - 1) = d.ch
  flags : ∀ j, i ≤ j → j < d.pos - 1 → isFlag zed (byteAt fmt j) = true
  notFlag : isFlag zed d.ch = false

theorem Reached.cons {zed : Bool} {d : Directive} {j : Nat} (h : Reached zed fmt j d) (hij : i < j)
    (hflags : ∀ m, i ≤ m → m < j → isFlag zed (byteAt fmt m) = true) : Reached zed fmt i d where
  lt := by have := h.lt; omega
  le := h.le
  ch_eq := h.ch_eq
  flags m hi hm := (Nat.lt_or_ge m j).elim (hflags m hi) fun hj => h.flags m hj hm
  notFlag := h.notFlag

theorem scanDigits_ok : ∀ (fuel i : Nat) (precision : Int) (ch : UInt8), i ≤ fmt.strlen →
    fmt.strlen - i < fuel → ∃ j p, scanDigits fmt fuel i precision ch = .ok (j, p) ∧ i ≤ j ∧
      j ≤ fmt.strlen ∧ ∀ m, i ≤ m → m < j → isDigit (byteAt fmt m) = true := by
  intro fuel
  induction fuel with
  | zero =>
    intro i _ _ _ hfuel
    omega
  | succ fuel ih =>
    intro i precision ch hi hfuel
    simp only [scanDigits, readByte_eq hi, Except.bind, bind]
    by_cases hdigit : isDigit (byteAt fmt i) = true
    · rw [if_pos hdigit]
      have hlt : i < fmt.strlen := by
        refine Nat.lt_of_le_of_ne hi fun heq => ?_
        rw [(byteAt_eq_zero hi).2 heq] at hdigit
        cases hdigit
      obtain ⟨j, p, hrun, hij, hj, hdigits⟩ := ih (i + 1) _ (byteAt fmt i) hlt (by omega)
      refine ⟨j, p, hrun, by omega, hj, fun m hm hmj => ?_⟩
      rcases Nat.eq_or_lt_of_le hm with rfl | hm
      · exact hdigit
      · exact hdigits m hm hmj
    · rw [if_neg hdigit]
      exact ⟨i, _, rfl, Nat.le_refl i, hi, fun m hm hmi => by omega⟩

/-- **The scanner gets to a directive**, and reads no byte after the one that ends the format. -/
theorem reswitch_reached {F : Type} (zed : Bool) (ap : VaList F) : ∀ (fuel i k : Nat) (fl : Flags),
    i ≤ fmt.strlen → fmt.strlen - i < fuel →
    ∃ d, reswitch zed fmt ap fuel i k fl = .ok d ∧ Reached zed fmt i d := by
  intro fuel
  induction fuel with
  | zero =>
    intro i _ _ _ hfuel
    omega
  | succ fuel ih =>
    intro i k fl hi hfuel
    have hstop (h : isFlag zed (byteAt fmt i) = false) :
        Reached zed fmt i ⟨byteAt fmt i, i + 1, k, fl⟩ :=
      ⟨Nat.lt_succ_self i, Nat.succ_le_succ hi, rfl, fun j hij hj => by dsimp only at hj; omega, h⟩
    have hnext (h : isFlag zed (byteAt fmt i) = true) : i + 1 ≤ fmt.strlen := by
      refine Nat.lt_of_le_of_ne hi fun heq => ?_
      rw [(byteAt_eq_zero hi).2 heq] at h
      cases zed <;> exact absurd h (by decide)
    have hgo (h : isFlag zed (byteAt fmt i) = true) (k : Nat) (fl : Flags) :
        ∃ d, reswitch zed fmt ap fuel (i + 1) k fl = .ok d ∧ Reached zed fmt i d := by
      obtain ⟨d, hrun, hreached⟩ := ih (i + 1) k fl (hnext h) (by have := hnext h; omega)
      refine ⟨d, hrun, hreached.cons (Nat.lt_succ_self i) fun m hm hmi => ?_⟩
      rwa [Nat.le_antisymm (Nat.lt_succ_iff.1 hmi) hm]
    simp only [reswitch, readByte_eq hi, Except.bind, bind]
    cases hlabel : label (byteAt fmt i) with
    | minus | zero | star | dot | hash | ell => exact hgo (by rw [isFlag, hlabel]) _ _
    | zed =>
      cases zed with
      | true => exact hgo (by rw [isFlag, hlabel]) _ _
      | false => exact ⟨_, rfl, hstop (by rw [isFlag, hlabel])⟩
    | digit =>
      have hflag : isFlag zed (byteAt fmt i) = true := by rw [isFlag, hlabel]
      have hi' := hnext hflag
      obtain ⟨j, p, hscan, hij, hj, hdigits⟩ :=
        scanDigits_ok (fmt.strlen + 2) (i + 1) 0 (byteAt fmt i) hi' (by omega)
      obtain ⟨d, hrun, hreached⟩ := ih j k (fl.processPrecision p) hj (by omega)
      refine ⟨d, by simp only [hscan]; exact hrun, hreached.cons hij fun m hm hmj => ?_⟩
      rcases Nat.eq_or_lt_of_le hm with rfl | hm
      · exact hflag
      · exact isFlag_of_isDigit zed (hdigits m hm hmj)
    | chr | str | bin | dec | uns | oct | ptr | hex | flt | percent | other =>
      exact ⟨_, rfl, hstop (by rw [isFlag, hlabel])⟩

end

/-! ## The loop over the format -/

section
variable {F σ : Type} {pr : Printer F} {fmt : CString} {ap : VaList F} {putch : Int → σ → σ}

/-- **The loop rule.**  Let `P` hold of an index when the loop is there, let a character that is put
out keep it, and let every conversion go forward, to an index of which `P` holds or past the end of
the format.  Then the formatter returns, or it has read past the end after such a conversion. -/
theorem formatLoop_cases (pr : Printer F) (putch : Int → σ → σ) (fmt : CString) (ap : VaList F)
    {P : Nat → Prop} {Q : Prop}
    (hchar : ∀ i, i < fmt.strlen → byteAt fmt i ≠ byte '%' → P i → P (i + 1))
    (hconv : ∀ i d, i < fmt.strlen → byteAt fmt i = byte '%' → P i → Reached pr.zed fmt (i + 1) d →
      ∃ c, pr.convert fmt ap d = .ok c ∧ i < c.pos ∧
        (c.pos ≤ fmt.strlen ∧ P c.pos ∨ c.pos = fmt.strlen + 1 ∧ Q)) :
    ∀ (fuel i k : Nat) (st : σ), i ≤ fmt.strlen → P i → fmt.strlen - i + 1 < fuel →
      (∃ st', formatLoop pr putch fmt ap fuel i k st = .ok st' ∧ P fmt.strlen) ∨
        (formatLoop pr putch fmt ap fuel i k st = .error .outside ∧ Q) := by
  intro fuel
  induction fuel with
  | zero =>
    intro i _ _ _ _ hfuel
    omega
  | succ fuel ih =>
    intro i k st hi hP hfuel
    simp only [formatLoop, readByte_eq hi, Except.bind, bind]
    rcases Nat.eq_or_lt_of_le hi with rfl | hlt
    · have hend : byteAt fmt fmt.strlen = 0 := (byteAt_eq_zero hi).2 rfl
      rw [if_neg (by rw [hend]; decide), if_pos hend]
      exact .inl ⟨st, rfl, hP⟩
    · by_cases hpercent : byteAt fmt i = byte '%'
      · obtain ⟨d, hscan, hd⟩ :=
          reswitch_reached pr.zed ap (fmt.strlen + 2) (i + 1) k .init hlt (by omega)
        obtain ⟨c, hc, hpos, hnext⟩ := hconv i d hlt hpercent hP hd
        rw [if_pos hpercent]
        simp only [hscan, hc]
        rcases hnext with ⟨hle, hP'⟩ | ⟨hout, hQ⟩
        · exact ih c.pos c.args _ hle hP' (by omega)
        · obtain ⟨fuel, rfl⟩ := Nat.exists_eq_succ_of_ne_zero (show fuel ≠ 0 by omega)
          have hread : readByte fmt c.pos = .error .outside := readByte_outside (by omega)
          exact .inr ⟨by simp only [formatLoop, hread, Except.bind, bind], hQ⟩
      · have hchar' : byteAt fmt i ≠ 0 := fun hz => by
          have := (byteAt_eq_zero hi).1 hz
          omega
        rw [if_neg hpercent, if_neg hchar']
        exact ih (i + 1) k _ hlt (hchar i hlt hpercent hP) (by omega)

theorem feed_feed (putch : Int → σ → σ) (st : σ) (cs cs' : List Int) :
    feed putch (feed putch st cs) cs' = feed putch st (cs ++ cs') :=
  (List.foldl_append).symm

theorem feed_record (cs cs' : List Int) : feed record cs cs' = cs ++ cs' := by
  induction cs' generalizing cs with
  | nil => exact (List.append_nil cs).symm
  | cons c cs' ih =>
    rw [feed, List.foldl_cons, ← feed, ih, record, List.append_assoc, List.singleton_append]

/-- **The characters do not depend on where they go**: a formatter hands `putch` the list of
characters that it would hand `record`. -/
theorem formatLoop_feed (st : σ) : ∀ (fuel i k : Nat) (cs : List Int),
    formatLoop pr putch fmt ap fuel i k (feed putch st cs) =
      (formatLoop pr record fmt ap fuel i k cs).map (feed putch st) := by
  intro fuel
  induction fuel with
  | zero => intro i k cs; rfl
  | succ fuel ih =>
    intro i k cs
    simp only [formatLoop, Except.bind, bind]
    cases readByte fmt i with
    | error e => rfl
    | ok ch =>
      dsimp only
      split
      · cases reswitch pr.zed fmt ap (fmt.strlen + 2) (i + 1) k .init with
        | error e => rfl
        | ok d =>
          cases hc : pr.convert fmt ap d with
          | error e => simp only [hc]; rfl
          | ok c =>
            simp only [hc, feed_feed, feed_record]
            exact ih c.pos c.args (cs ++ c.chars)
      · split
        · rfl
        · have hput : putch ch.toNat (feed putch st cs) = feed putch st (record ch.toNat cs) :=
            feed_feed putch st cs [ch.toNat]
          rw [hput]
          exact ih (i + 1) k (record ch.toNat cs)

theorem format_feed (putch : Int → σ → σ) (st : σ) :
    format pr putch fmt ap st = (format pr record fmt ap []).map (feed putch st) :=
  formatLoop_feed st _ _ _ []

end

end JinxOS
