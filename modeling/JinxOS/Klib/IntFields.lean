import JinxOS.Klib.Scan

/-!
# Fields of integer conversions

A directive for an integer has a flag, a width, a length and a conversion.  `IntDirective.field` is
the field that it stands for: at least as many characters as the width says, with spaces on the
left, with zeros between the sign and the digits, or with spaces on the right.

Both printers put the sign out by themselves and leave the padding to the function that prints the
digits, which is given the whole width and does not know of the sign.  So a negative number comes
out one character too long whenever there is any padding, and without the flag `0` the sign is on
the wrong side of it.  `printnum` knows nothing of padding on the right: the flag `-` makes it pad
on the left, and with the character `-`.

* `vprintfmt_int`, `vsnprintfmt_int` — what the printers put out for an integer directive;
* `intDirective_field_iff` — **when that is the field**.
-/

namespace JinxOS

open Numeral
open List (length_append length_map append_assoc append_nil nil_append)

/-! ## Directives -/

/-- The flag of a directive. -/
inductive PadFlag
  | none | zero | minus
  deriving DecidableEq, Repr

/-- The text of a flag. -/
def PadFlag.text : PadFlag → List UInt8
  | .none => []
  | .zero => [byte '0']
  | .minus => [byte '-']

/-- The `padc` that goes with it. -/
def PadFlag.padc : PadFlag → UInt8
  | .none => byte ' '
  | .zero => byte '0'
  | .minus => byte '-'

/-- The text of a number. -/
def numberText (n : Nat) : List UInt8 := (numeral 10 n).map digitByte

/-- The text of a width, which may be missing. -/
def widthText : Option Nat → List UInt8
  | none => []
  | some n => numberText n

/-- The lengths `int`, `long` and `long long`. -/
inductive IntSize
  | int | long | longLong
  deriving DecidableEq, Repr

/-- The text of a length. -/
def IntSize.text : IntSize → List UInt8
  | .int => []
  | .long => [byte 'l']
  | .longLong => [byte 'l', byte 'l']

/-- The `lflag` that goes with it. -/
def IntSize.lflag : IntSize → Int
  | .int => 0
  | .long => 1
  | .longLong => 2

/-- The conversions. -/
inductive IntConv
  | d | u | x | o
  deriving DecidableEq, Repr

/-- The character of a conversion. -/
def IntConv.char : IntConv → UInt8
  | .d => byte 'd'
  | .u => byte 'u'
  | .x => byte 'x'
  | .o => byte 'o'

/-- Its base. -/
def IntConv.base : IntConv → Nat
  | .d => 10
  | .u => 10
  | .x => 16
  | .o => 8

/-- `%[flag][width][l|ll](d|u|x|o)`. -/
structure IntDirective where
  flag : PadFlag
  width : Option Nat
  size : IntSize
  conv : IntConv
  deriving DecidableEq, Repr

namespace IntDirective

/-- The text of a directive. -/
def text (dir : IntDirective) : List UInt8 :=
  byte '%' :: (dir.flag.text ++ (widthText dir.width ++ (dir.size.text ++ [dir.conv.char])))

/-- The width `W`, which is 0 if there is none. -/
def fieldWidth (dir : IntDirective) : Nat := dir.width.getD 0

variable {F : Type}

/-- The argument, as a number of the type that the directive asks for. -/
def value (dir : IntDirective) (arg : Arg F) : Int :=
  match dir.conv, dir.size with
  | .d, .longLong => arg.dword.toInt
  | .d, _ => arg.word.toInt
  | _, .longLong => arg.dword.toNat
  | _, _ => arg.word.toNat

/-- The sign of its representation. -/
def sign (dir : IntDirective) (arg : Arg F) : List Int :=
  if dir.value arg < 0 then [chr '-'] else []

/-- The digits of its representation. -/
def digits (dir : IntDirective) (arg : Arg F) : List Int :=
  (numeral dir.conv.base (dir.value arg).natAbs).map digitChar

/-- How much is missing to the width. -/
def fill (dir : IntDirective) (arg : Arg F) : Nat :=
  dir.fieldWidth - (dir.sign arg ++ dir.digits arg).length

/-- **The field**: sign and digits, with what is missing to the width in the right place. -/
def field (dir : IntDirective) (arg : Arg F) : List Int :=
  match dir.flag with
  | .none => List.replicate (dir.fill arg) (chr ' ') ++ dir.sign arg ++ dir.digits arg
  | .zero => dir.sign arg ++ List.replicate (dir.fill arg) (chr '0') ++ dir.digits arg
  | .minus => dir.sign arg ++ dir.digits arg ++ List.replicate (dir.fill arg) (chr ' ')

theorem length_field (dir : IntDirective) (arg : Arg F) :
    (dir.field arg).length = max dir.fieldWidth (dir.sign arg ++ dir.digits arg).length := by
  rw [field]
  cases dir.flag <;> simp only [fill, length_append, List.length_replicate] <;> omega

end IntDirective

/-! ## What the scanner finds -/

section
variable {F : Type} {zed : Bool} {fmt : CString} {ap : VaList F} {i k : Nat} {fl : Flags}
  {d : Directive} {c : UInt8} {l : List UInt8}

/-- The flags after the flag and the width: a width of 0 is read as the flag `0`. -/
def Flags.afterWidth (flag : PadFlag) : Option Nat → Flags
  | none => ⟨flag.padc, -1, -1, 0, false⟩
  | some 0 => ⟨byte '0', -1, -1, 0, false⟩
  | some (n + 1) => ⟨flag.padc, toInt (n + 1 : Nat), -1, 0, false⟩

/-- Without a width, `width` is negative; a width is what it is as an `int`. -/
theorem Flags.width_afterWidth (flag : PadFlag) (width : Option Nat) :
    (width.getD 0 = 0 ∧ (Flags.afterWidth flag width).width = -1) ∨
      ((Flags.afterWidth flag width).padc = flag.padc ∧
        (Flags.afterWidth flag width).width = toInt (width.getD 0)) := by
  rcases width with _ | _ | n
  · exact .inl ⟨rfl, rfl⟩
  · exact .inl ⟨rfl, rfl⟩
  · rw [Option.getD_some, Flags.afterWidth]
    exact .inr ⟨rfl, by dsimp only⟩

theorem Scans.flagWidth {flag : PadFlag} {width : Option Nat} (hc : isDigit c = false)
    (h : fmt.bytes.drop i = flag.text ++ (widthText width ++ c :: l))
    (hs : Scans zed fmt ap (i + (flag.text ++ widthText width).length) k
      (Flags.afterWidth flag width) d) : Scans zed fmt ap i k .init d := by
  have hwidth : ∀ j, fmt.bytes.drop j = widthText width ++ c :: l →
      Scans zed fmt ap (j + (widthText width).length) k (Flags.afterWidth flag width) d →
      Scans zed fmt ap j k { Flags.init with padc := flag.padc } d := by
    intro j hj hs
    rcases width with _ | _ | n
    · exact hs
    · exact Scans.zero hj hs
    · refine Scans.number (Nat.succ_pos n) hc hj ?_
      rw [widthText, numberText, length_map] at hs
      exact hs
  cases flag with
  | none => exact hwidth i h hs
  | zero =>
    refine Scans.zero h (hwidth (i + 1) (drop_next h) ?_)
    rwa [length_append, ← Nat.add_assoc] at hs
  | minus =>
    refine Scans.minus h (hwidth (i + 1) (drop_next h) ?_)
    rwa [length_append, ← Nat.add_assoc] at hs

theorem Scans.size {size : IntSize} (h : fmt.bytes.drop i = size.text ++ l) (hfl : fl.lflag = 0)
    (hs : Scans zed fmt ap (i + size.text.length) k { fl with lflag := size.lflag } d) :
    Scans zed fmt ap i k fl d := by
  obtain ⟨padc, width, precision, lflag, altflag⟩ := fl
  obtain rfl : lflag = 0 := hfl
  cases size with
  | int => exact hs
  | long => exact Scans.ell h hs
  | longLong => exact Scans.ell h (Scans.ell (drop_next h) hs)

variable {dir : IntDirective}

/-- What the scanner finds at the end of an integer directive. -/
def IntDirective.scanned (dir : IntDirective) : Directive :=
  ⟨dir.conv.char, dir.text.length, 0,
    { Flags.afterWidth dir.flag dir.width with lflag := dir.size.lflag }⟩

theorem IntDirective.scans (hfmt : fmt.bytes = dir.text) :
    Scans zed fmt ap 1 0 .init dir.scanned := by
  have hdrop : fmt.bytes.drop 1 =
      dir.flag.text ++ (widthText dir.width ++ (dir.size.text ++ [dir.conv.char])) := by
    rw [hfmt]
    rfl
  have hafter : ∃ c l, dir.size.text ++ [dir.conv.char] = c :: l ∧ isDigit c = false := by
    cases dir.size <;> cases dir.conv <;> exact ⟨_, _, rfl, by decide⟩
  obtain ⟨c, l, hcons, hc⟩ := hafter
  refine Scans.flagWidth hc (by rw [hdrop, hcons]) ?_
  have hsize : fmt.bytes.drop (1 + (dir.flag.text ++ widthText dir.width).length) =
      dir.size.text ++ [dir.conv.char] := drop_skip (by rw [hdrop, append_assoc])
  have hlflag : (Flags.afterWidth dir.flag dir.width).lflag = 0 := by
    rcases dir.width with _ | _ | n <;> rfl
  refine Scans.size hsize hlflag ?_
  have hflag : isFlag zed dir.conv.char = false := by
    cases zed <;> cases dir.conv <;> decide
  have hpos : dir.text.length =
      1 + (dir.flag.text ++ widthText dir.width).length + dir.size.text.length + 1 := by
    simp only [IntDirective.text, List.length_cons, length_append, List.length_nil]
    omega
  rw [IntDirective.scanned, hpos]
  exact Scans.stop (drop_skip hsize) hflag

end

/-! ## What the printers put out -/

namespace IntDirective

variable {F : Type} (dir : IntDirective) (arg : Arg F)

/-- The number whose digits are printed. -/
def num : BitVec 64 :=
  match dir.conv with
  | .d =>
    let num := getint arg dir.size.lflag
    if num.toInt < 0 then -num else num
  | _ => getuint arg dir.size.lflag

theorem toInt_getint : (getint arg dir.size.lflag).toInt =
    match dir.size with
    | .longLong => arg.dword.toInt
    | _ => arg.word.toInt := by
  cases dir.size with
  | int | long => exact BitVec.toInt_signExtend_of_le (by decide)
  | longLong => rfl

theorem toNat_getuint : (getuint arg dir.size.lflag).toNat =
    match dir.size with
    | .longLong => arg.dword.toNat
    | _ => arg.word.toNat := by
  cases dir.size with
  | int | long => exact BitVec.toNat_setWidth_of_le (show 32 ≤ 64 by decide)
  | longLong => rfl

/-- It is the absolute value of the argument, also for the least `long long`. -/
theorem toNat_num : (dir.num arg).toNat = (dir.value arg).natAbs := by
  have habs (x : BitVec 64) : (if x.toInt < 0 then -x else x).toNat = x.toInt.natAbs := by
    rw [BitVec.toInt_eq_toNat_cond]
    by_cases hsmall : 2 * x.toNat < 2 ^ 64
    · rw [if_pos hsmall, if_neg (by omega)]
      rfl
    · rw [if_neg hsmall, if_pos (by omega), BitVec.toNat_neg]
      omega
  obtain ⟨flag, width, size, conv⟩ := dir
  have hint := toInt_getint ⟨flag, width, size, conv⟩ arg
  have huint := toNat_getuint ⟨flag, width, size, conv⟩ arg
  cases conv with
  | d =>
    rw [num]
    rw [habs, hint, value]
    cases size <;> rfl
  | u | x | o =>
    rw [num]
    rw [huint, value]
    cases size <;> rfl

theorem value_neg_iff (hconv : dir.conv = .d) :
    (getint arg dir.size.lflag).toInt < 0 ↔ dir.value arg < 0 := by
  rw [toInt_getint, value, hconv]
  cases dir.size <;> rfl

theorem value_nonneg (hconv : dir.conv ≠ .d) : ¬ dir.value arg < 0 := by
  rw [value]
  cases hc : dir.conv with
  | d => exact absurd hc hconv
  | u | x | o => cases dir.size <;> exact Int.not_lt.2 (Int.natCast_nonneg _)

/-- How the `switch` comes to the sign, the number and the base, for any `number` that prints them.
-/
theorem number_select {α : Type} (number : List Int → BitVec 64 → Nat → α) :
    number (dir.sign arg) (dir.num arg) dir.conv.base =
      match dir.conv with
      | .d =>
        if (getint arg dir.size.lflag).toInt < 0 then
          number [chr '-'] (-getint arg dir.size.lflag) 10
        else number [] (getint arg dir.size.lflag) 10
      | .u => number [] (getuint arg dir.size.lflag) 10
      | .x => number [] (getuint arg dir.size.lflag) 16
      | .o => number [] (getuint arg dir.size.lflag) 8 := by
  have hneg := dir.value_neg_iff arg
  have hnonneg := dir.value_nonneg arg
  rw [sign, num]
  cases hconv : dir.conv with
  | d =>
    simp only [← hneg hconv]
    split <;> rfl
  | u | x | o =>
    rw [if_neg (hnonneg (by rw [hconv]; decide))]
    rfl

theorem snConvert_scanned (ap : VaList F) : snConvert ap dir.scanned =
    snNumber dir.scanned (dir.sign (ap 0)) (dir.num (ap 0)) dir.conv.base := by
  rw [number_select dir (ap 0) (snNumber dir.scanned)]
  obtain ⟨flag, width, size, conv⟩ := dir
  cases conv <;> rfl

theorem prConvert_scanned [LongDouble F] (fmt : CString) (ap : VaList F) :
    prConvert fmt ap dir.scanned =
      prNumber dir.scanned (dir.sign (ap 0)) (dir.num (ap 0)) dir.conv.base := by
  rw [number_select dir (ap 0) (prNumber dir.scanned)]
  obtain ⟨flag, width, size, conv⟩ := dir
  cases conv <;> rfl

theorem one_lt_base (conv : IntConv) : 1 < conv.base := by
  cases conv <;> decide

theorem length_digits_pos : 0 < (dir.digits arg).length := by
  rw [digits, length_map]
  exact numeral_length_pos _ _

theorem length_digits_le : (dir.digits arg).length ≤ 64 := by
  have hlt : (dir.value arg).natAbs < 2 ^ 64 := dir.toNat_num arg ▸ (dir.num arg).isLt
  rw [digits, length_map]
  exact numeral_length_le (one_lt_base dir.conv) (by decide)
    (lt_of_lt_of_le hlt (Nat.pow_le_pow_left (one_lt_base dir.conv) 64))

/-- Where the width is no more than the number of digits, there is no padding. -/
theorem padDigits_of_le (padc : UInt8) {width : Int} {ds : List Int} (h : width ≤ ds.length)
    (hfits : ds.length ≤ 64 ∧ 0 ≤ width) : padDigits padc width ds = ds := by
  have hnone : (width - ds.length).toNat = 0 := Int.toNat_of_nonpos (by omega)
  rw [padDigits, pad, pad, toInt_eq, hnone]
  split
  · exact append_nil ds
  · rfl

/-- How much `snprintnum` pads. -/
def snFill : Nat := (max (toInt dir.fieldWidth) 0 - (dir.digits arg).length).toNat

/-- How much `printnum` pads. -/
def prFill : Nat := (toInt (dir.fieldWidth - (dir.digits arg).length)).toNat

variable {fmt : CString} {dir}

/-- **`vsnprintfmt`**: the sign, and then the digits in a field of the whole width. -/
theorem vsnprintfmt_int (hfmt : fmt.bytes = dir.text) (ap : VaList F) :
    vsnprintfmt record fmt ap [] = .ok (dir.sign (ap 0) ++
      match dir.flag with
      | .minus => dir.digits (ap 0) ++ List.replicate (dir.snFill (ap 0)) (chr ' ')
      | flag =>
        List.replicate (dir.snFill (ap 0)) (flag.padc.toNat : Int) ++ dir.digits (ap 0)) := by
  have hconv := dir.snConvert_scanned ap
  have hle := dir.length_digits_le (ap 0)
  have hend : dir.text.length = fmt.strlen := by rw [Key.strlen, hfmt]
  rw [snNumber, snprintnum_eq (one_lt_base dir.conv) (BitVec.isLt _), dir.toNat_num,
    ← digits] at hconv
  refine (format_directive snPrinter hfmt (dir.scans hfmt) hconv hend).trans ?_
  dsimp only [scanned]
  rcases Flags.width_afterWidth dir.flag dir.width with ⟨hzero, hw⟩ | ⟨hpadc, hw⟩
  · -- no width, and so no padding, whatever `padc` is
    have hfill : dir.snFill (ap 0) = 0 := by
      rw [snFill, fieldWidth, hzero, toInt_eq (by decide) (by decide)]
      omega
    rw [hw, padDigits_of_le _ (by omega) (by omega), hfill]
    cases dir.flag <;> simp only [List.replicate_zero, nil_append, append_nil]
  · have hrange := toInt_range dir.fieldWidth
    have hsame : toInt (max (toInt dir.fieldWidth) 0 - (dir.digits (ap 0)).length) =
        max (toInt dir.fieldWidth) 0 - (dir.digits (ap 0)).length := toInt_eq
    rw [hpadc, hw, ← fieldWidth, padDigits, hsame]
    cases dir.flag <;> rfl

/-- **`vprintfmt`**: the same, but with the padding always on the left. -/
theorem vprintfmt_int [LongDouble F] (hfmt : fmt.bytes = dir.text) (ap : VaList F) :
    vprintfmt record fmt ap [] = .ok (dir.sign (ap 0) ++
      (List.replicate (dir.prFill (ap 0)) (dir.flag.padc.toNat : Int) ++ dir.digits (ap 0))) := by
  have hconv := dir.prConvert_scanned fmt ap
  have hle := dir.length_digits_le (ap 0)
  have hend : dir.text.length = fmt.strlen := by rw [Key.strlen, hfmt]
  rw [prNumber, printnum_eq (one_lt_base dir.conv) (BitVec.isLt _), dir.toNat_num,
    ← digits] at hconv
  refine (format_directive prPrinter hfmt (dir.scans hfmt) hconv hend).trans ?_
  have hlen : (numeral dir.conv.base (dir.value (ap 0)).natAbs).length =
      (dir.digits (ap 0)).length := by rw [digits, length_map]
  dsimp only [scanned]
  rw [hlen, pad]
  rcases Flags.width_afterWidth dir.flag dir.width with ⟨hzero, hw⟩ | ⟨hpadc, hw⟩
  · have hfill : dir.prFill (ap 0) = 0 := by
      rw [prFill, fieldWidth, hzero, toInt_eq]
      omega
    have hneg : (toInt (-1 - (dir.digits (ap 0)).length)).toNat = 0 := by
      rw [toInt_eq]
      omega
    rw [hw, hneg, hfill]
    rfl
  · have hfill : (toInt (toInt (dir.width.getD 0) - (dir.digits (ap 0)).length)).toNat =
        dir.prFill (ap 0) := by
      rw [Int.sub_eq_add_neg, toInt_toInt_add]
      rfl
    rw [hpadc, hw, hfill]

/-! ## When it is the field -/

variable (dir)

theorem length_sign : (dir.sign arg).length = if dir.value arg < 0 then 1 else 0 := by
  rw [sign]
  split <;> rfl

/-- `snprintnum` pads as much as is missing if there is no sign and the width is an `int`, or if
there is nothing to pad. -/
theorem snFill_eq_iff : dir.snFill arg = dir.fill arg ↔
    dir.fieldWidth ≤ (dir.digits arg).length ∨
      (¬ dir.value arg < 0 ∧ dir.fieldWidth < 2 ^ 31) := by
  have hle := dir.length_digits_le arg
  have hrange := toInt_range dir.fieldWidth
  obtain ⟨q, hq⟩ := toInt_eq_sub dir.fieldWidth
  rw [snFill, fill, length_append, length_sign]
  split <;> omega

/-- `printnum` computes the difference first, and only that has to be an `int`. -/
theorem prFill_eq_iff : dir.prFill arg = dir.fill arg ↔
    dir.fieldWidth ≤ (dir.digits arg).length ∨
      (¬ dir.value arg < 0 ∧ dir.fieldWidth < 2 ^ 31 + (dir.digits arg).length) := by
  have hle := dir.length_digits_le arg
  have hrange := toInt_range (dir.fieldWidth - (dir.digits arg).length)
  obtain ⟨q, hq⟩ := toInt_eq_sub (dir.fieldWidth - (dir.digits arg).length)
  rw [prFill, fill, length_append, length_sign]
  split <;> omega

theorem ne_minus_of_mem_digits {c : Int} (hc : c ∈ dir.digits arg) : c ≠ chr '-' := by
  have hchar : ∀ d, digitChar d ≠ chr '-' := by
    intro d
    rcases Nat.lt_or_ge d 16 with hd | hd
    · revert d
      decide
    · rw [digitChar, List.getD_eq_default _ _ hd]
      decide
  rw [digits, List.mem_map] at hc
  obtain ⟨d, -, rfl⟩ := hc
  exact hchar d

/-- The sign is on the right side of the padding if there is no sign or nothing is padded. -/
theorem replicate_append_sign {n : Nat} (h : dir.sign arg = [] ∨ n = 0) (c : Int) :
    dir.sign arg ++ List.replicate n c = List.replicate n c ++ dir.sign arg := by
  rcases h with hsign | rfl
  · rw [hsign, append_nil, nil_append]
  · rw [List.replicate_zero, append_nil, nil_append]

theorem padded_eq_field_iff {n : Nat} (hminus : dir.flag ≠ .minus)
    (hsign : n = dir.fill arg → dir.sign arg = [] ∨ n = 0) :
    dir.sign arg ++ (List.replicate n (dir.flag.padc.toNat : Int) ++ dir.digits arg) =
      dir.field arg ↔ n = dir.fill arg := by
  constructor
  · intro h
    have hlen := congrArg List.length h
    rw [length_field] at hlen
    simp only [length_append, List.length_replicate] at hlen
    rw [fill, length_append]
    omega
  · intro h
    rw [field, ← h, ← append_assoc]
    cases hflag : dir.flag with
    | none => rw [dir.replicate_append_sign arg (hsign h)]; rfl
    | zero => rfl
    | minus => exact absurd hflag hminus

theorem sign_or_fill (h : dir.fieldWidth ≤ (dir.digits arg).length ∨ ¬ dir.value arg < 0) :
    dir.sign arg = [] ∨ dir.fill arg = 0 := by
  rcases h with hwidth | hneg
  · rw [fill, length_append]
    exact .inr (by omega)
  · exact .inl (if_neg hneg)

/-- **When `vsnprintfmt` puts out the field.** -/
theorem snText_eq_field_iff : (dir.sign arg ++
      match dir.flag with
      | .minus => dir.digits arg ++ List.replicate (dir.snFill arg) (chr ' ')
      | flag => List.replicate (dir.snFill arg) (flag.padc.toNat : Int) ++ dir.digits arg) =
        dir.field arg ↔
      dir.fieldWidth ≤ (dir.digits arg).length ∨
        (¬ dir.value arg < 0 ∧ dir.fieldWidth < 2 ^ 31) := by
  rw [← snFill_eq_iff]
  have hsign (h : dir.snFill arg = dir.fill arg) : dir.sign arg = [] ∨ dir.snFill arg = 0 :=
    h ▸ dir.sign_or_fill arg (((dir.snFill_eq_iff arg).1 h).imp_right And.left)
  have hpad := dir.padded_eq_field_iff arg (n := dir.snFill arg)
  cases hflag : dir.flag with
  | none | zero =>
    rw [hflag] at hpad
    exact hpad (by decide) hsign
  | minus =>
    rw [field, hflag, ← append_assoc]
    rw [List.append_cancel_left_eq, List.replicate_inj]
    exact ⟨And.left, fun h => ⟨h, .inr rfl⟩⟩

/-- **When `vprintfmt` puts out the field.** -/
theorem prText_eq_field_iff : dir.sign arg ++
      (List.replicate (dir.prFill arg) (dir.flag.padc.toNat : Int) ++ dir.digits arg) =
        dir.field arg ↔
      dir.fieldWidth ≤ (dir.digits arg).length ∨
        (¬ dir.value arg < 0 ∧ dir.flag ≠ .minus ∧
          dir.fieldWidth < 2 ^ 31 + (dir.digits arg).length) := by
  have hfill := dir.prFill_eq_iff arg
  have hsign (h : dir.prFill arg = dir.fill arg) : dir.sign arg = [] ∨ dir.prFill arg = 0 :=
    h ▸ dir.sign_or_fill arg ((hfill.1 h).imp_right And.left)
  by_cases hminus : dir.flag = .minus
  · constructor
    · intro h
      refine .inl (Nat.not_lt.1 fun hlt => ?_)
      have hlen := congrArg List.length h
      rw [length_field] at hlen
      simp only [length_append, List.length_replicate] at hlen
      have heq : dir.prFill arg = dir.fill arg := by
        rw [fill, length_append]
        omega
      have hnonneg : ¬ dir.value arg < 0 := (hfill.1 heq).elim (fun hle => by omega) And.left
      have hsign : dir.sign arg = [] := if_neg hnonneg
      -- the text begins with the padding, and the field with a digit
      obtain ⟨n, hn⟩ : ∃ n, dir.prFill arg = n + 1 := by
        refine Nat.exists_eq_succ_of_ne_zero ?_
        rw [heq, fill, hsign, nil_append]
        omega
      obtain ⟨e, es, hdigits⟩ := List.exists_cons_of_length_pos (dir.length_digits_pos arg)
      rw [field, hminus, hsign, hn, hdigits] at h
      have hhead : chr '-' = e := (List.cons.inj h).1
      exact dir.ne_minus_of_mem_digits arg (hdigits ▸ List.mem_cons_self) hhead.symm
    · rintro (hle | ⟨-, hne, -⟩)
      · have hnone : dir.fill arg = 0 := by
          rw [fill, length_append]
          omega
        rw [field, hminus, hfill.2 (.inl hle), hnone]
        simp only [List.replicate_zero, nil_append, append_nil]
      · exact absurd hminus hne
  · rw [dir.padded_eq_field_iff arg hminus hsign, hfill]
    simp only [ne_eq, hminus, not_false_eq_true, true_and]

end IntDirective

/-- **Integer conversions and their fields.**  The field has `max(W, L)` characters.  `vprintfmt`
puts it out exactly if there is nothing to pad to the width, or the number is not negative, the flag
is not `-` and the padding fits into an `int`; `vsnprintfmt` exactly if there is nothing to pad to
the width, or the number is not negative and the width fits into an `int`.  What there is to pad is
counted without the sign. -/
theorem intDirective_field_iff {F : Type} [LongDouble F] {dir : IntDirective} {fmt : CString}
    (hfmt : fmt.bytes = dir.text) (ap : VaList F) :
    (dir.field (ap 0)).length =
        max dir.fieldWidth (dir.sign (ap 0) ++ dir.digits (ap 0)).length ∧
      (∃ cs, vprintfmt record fmt ap [] = .ok cs ∧ (cs = dir.field (ap 0) ↔
        dir.fieldWidth ≤ (dir.digits (ap 0)).length ∨
          (¬ dir.value (ap 0) < 0 ∧ dir.flag ≠ .minus ∧
            dir.fieldWidth < 2 ^ 31 + (dir.digits (ap 0)).length))) ∧
      ∃ cs, vsnprintfmt record fmt ap [] = .ok cs ∧ (cs = dir.field (ap 0) ↔
        dir.fieldWidth ≤ (dir.digits (ap 0)).length ∨
          (¬ dir.value (ap 0) < 0 ∧ dir.fieldWidth < 2 ^ 31)) :=
  ⟨dir.length_field (ap 0),
    ⟨_, IntDirective.vprintfmt_int hfmt ap, dir.prText_eq_field_iff (ap 0)⟩,
    ⟨_, IntDirective.vsnprintfmt_int hfmt ap, dir.snText_eq_field_iff (ap 0)⟩⟩

/-- The number 42 for `%05u`. -/
theorem intDirective_field_iff_zeros :
    vprintfmt record ⟨['%', '0', '5', 'u'].map byte, by decide, by decide⟩
        (fun _ => (⟨42, 42, none, ()⟩ : Arg Unit)) [] = .ok (['0', '0', '0', '4', '2'].map chr) ∧
      vsnprintfmt record ⟨['%', '0', '5', 'u'].map byte, by decide, by decide⟩
          (fun _ => (⟨42, 42, none, ()⟩ : Arg Unit)) [] =
        .ok (['0', '0', '0', '4', '2'].map chr) := by
  have htext : Key.bytes ⟨['%', '0', '5', 'u'].map byte, by decide, by decide⟩ =
      IntDirective.text ⟨.zero, some 5, .int, .u⟩ := by decide +kernel
  obtain ⟨-, ⟨cs, hpr, hcs⟩, ⟨cs', hsn, hcs'⟩⟩ := intDirective_field_iff htext
    (fun _ => (⟨42, 42, none, ()⟩ : Arg Unit))
  have hfield : IntDirective.field ⟨.zero, some 5, .int, .u⟩ (⟨42, 42, none, ()⟩ : Arg Unit) =
      ['0', '0', '0', '4', '2'].map chr := by decide +kernel
  rw [hpr, hsn, hcs.2 (.inr (by decide +kernel)), hcs'.2 (.inr (by decide +kernel)), hfield]
  exact ⟨rfl, rfl⟩

/-- **`%5d` for the number −42**: the sign comes before the spaces, and there are six characters.
And `%-5u` for the number 42, where `vprintfmt` pads on the left, with `-`. -/
theorem not_field_five :
    (vprintfmt record ⟨['%', '5', 'd'].map byte, by decide, by decide⟩
          (fun _ => (⟨-42, -42, none, ()⟩ : Arg Unit)) [] =
        .ok (['-', ' ', ' ', ' ', '4', '2'].map chr) ∧
      vsnprintfmt record ⟨['%', '5', 'd'].map byte, by decide, by decide⟩
          (fun _ => (⟨-42, -42, none, ()⟩ : Arg Unit)) [] =
        .ok (['-', ' ', ' ', ' ', '4', '2'].map chr) ∧
      IntDirective.field ⟨.none, some 5, .int, .d⟩ (⟨-42, -42, none, ()⟩ : Arg Unit) =
        [' ', ' ', '-', '4', '2'].map chr) ∧
    vprintfmt record ⟨['%', '-', '5', 'u'].map byte, by decide, by decide⟩
        (fun _ => (⟨42, 42, none, ()⟩ : Arg Unit)) [] = .ok (['-', '-', '-', '4', '2'].map chr) ∧
      IntDirective.field ⟨.minus, some 5, .int, .u⟩ (⟨42, 42, none, ()⟩ : Arg Unit) =
        ['4', '2', ' ', ' ', ' '].map chr := by
  decide +kernel

end JinxOS
