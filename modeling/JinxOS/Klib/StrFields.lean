import JinxOS.Klib.IntFields

/-!
# Fields of string conversions

The two printers have the same code for `%s`.  It subtracts the length of the string from the width,
pads on the left by what is left of it, and counts the width down by one for every character that is
put out; if the width is still positive after that, then it pads on the right.

So padding on the left is short by as many characters as the precision has cut off the string: it is
right only if nothing is cut off, or if there is nothing to pad.  A precision of 0 is no precision
to the scanner, which takes the `0` for the flag.  And the width is an `int`, from which a string of
more than two thousand million characters makes it wrap around.

* `convertString_eq` — what the code puts out;
* `strDirective_field_iff` — **when that is the field** (`StrDirective.Fills`, and the counts).
-/

namespace JinxOS

open Numeral
open List (length_cons length_map length_append length_replicate replicate_zero append_nil)

/-! ## The code -/

/-- How many characters of a string are put out. -/
def shown (precision : Int) (len : Nat) : Nat :=
  if precision < 0 then len else min precision.toNat len

theorem shown_zero (precision : Int) : shown precision 0 = 0 := by
  rw [shown]
  split
  · rfl
  · exact Nat.min_zero _

theorem shown_succ {precision : Int} (len : Nat) (h : precision < 0 ∨ 0 ≤ precision - 1) :
    shown precision (len + 1) =
      shown (if precision < 0 then precision else precision - 1) len + 1 := by
  by_cases hneg : precision < 0
  · simp only [shown, hneg, if_true]
  · have hleft : ¬ precision - 1 < 0 := by omega
    simp only [shown, hneg, hleft, if_false]
    omega

theorem putString_eq : ∀ (bytes : List UInt8) {precision width : Int}, toInt width = width →
    putString false bytes precision width =
      ((bytes.take (shown precision bytes.length)).map signedChar,
        toInt (width - shown precision bytes.length)) := by
  intro bytes
  induction bytes with
  | nil =>
    intro precision width hwidth
    rw [putString, List.length_nil, shown_zero, Int.natCast_zero, Int.sub_zero, hwidth]
    rfl
  | cons c bytes ih =>
    intro precision width hwidth
    have hagain : toInt (toInt (width - 1)) = toInt (width - 1) := by
      have := toInt_toInt_add (width - 1) 0
      rwa [Int.add_zero, Int.add_zero] at this
    rw [putString, length_cons]
    by_cases hmore : precision < 0 ∨ 0 ≤ precision - 1
    · rw [if_pos hmore, shown_succ _ hmore, List.take_succ_cons, List.map_cons]
      simp only [ih hagain, Bool.false_and, Bool.false_eq_true, if_false, Prod.mk.injEq, true_and]
      rw [Int.sub_eq_add_neg, toInt_toInt_add]
      congr 1
      push_cast
      omega
    · have hnone : shown precision (bytes.length + 1) = 0 := by
        rw [shown, if_neg (by omega)]
        omega
      rw [if_neg hmore, hnone, Int.natCast_zero, Int.sub_zero, hwidth]
      rfl

/-- **The text of a string**, with the padding on the left or on the right. -/
theorem convertString_eq {fl : Flags} (halt : fl.altflag = false)
    (hwidth : toInt fl.width = fl.width) (p : CString) : convertString fl p =
      let cs := (p.bytes.take (shown fl.precision p.strlen)).map signedChar
      if 0 < fl.width ∧ fl.padc ≠ byte '-' then
        let x := toInt (fl.width - p.strlen)
        pad fl.padc x ++ cs ++ pad (byte ' ') (toInt (min x 0 - shown fl.precision p.strlen))
      else cs ++ pad (byte ' ') (toInt (fl.width - shown fl.precision p.strlen)) := by
  rw [convertString, halt]
  by_cases hleft : 0 < fl.width ∧ fl.padc ≠ byte '-'
  · have hrange := toInt_range (fl.width - p.strlen)
    have hmin : toInt (min (toInt (fl.width - p.strlen)) 0) = min (toInt (fl.width - p.strlen)) 0 :=
      toInt_eq
    simp only [if_pos hleft, putString_eq _ hmin]
    rfl
  · simp only [if_neg hleft, putString_eq _ hwidth]
    rfl

/-! ## Directives -/

/-- `%[flag][width][.precision]s`. -/
structure StrDirective where
  flag : PadFlag
  width : Option Nat
  precision : Option Nat
  deriving DecidableEq, Repr

/-- The text of a precision, which may be missing. -/
def precisionText : Option Nat → List UInt8
  | none => []
  | some n => byte '.' :: numberText n

/-- The character that a field is filled with. -/
def PadFlag.fillChar : PadFlag → UInt8
  | .zero => byte '0'
  | _ => byte ' '

namespace StrDirective

variable (dir : StrDirective)

/-- The text of a directive. -/
def text : List UInt8 :=
  byte '%' ::
    (dir.flag.text ++ (widthText dir.width ++ (precisionText dir.precision ++ [byte 's'])))

/-- The width `W`, which is 0 if there is none. -/
def fieldWidth : Nat := dir.width.getD 0

/-- Width and precision are numbers of type `int`, which is what the code has for them. -/
def FitsInt : Prop := dir.fieldWidth < 2 ^ 31 ∧ dir.precision.getD 0 < 2 ^ 31

/-- The number `M` of characters of the string: the precision, or all of them. -/
def chars (s : CString) : Nat :=
  match dir.precision with
  | none => s.strlen
  | some precision => min precision s.strlen

/-- **The field**: the first characters of the string, with what is missing to the width before or
after them. -/
def field (s : CString) : List Int :=
  let cs := (s.bytes.take (dir.chars s)).map signedChar
  let fill := List.replicate (dir.fieldWidth - dir.chars s) (dir.flag.fillChar.toNat : Int)
  match dir.flag with
  | .minus => cs ++ fill
  | _ => fill ++ cs

theorem chars_le (s : CString) : dir.chars s ≤ s.strlen := by
  rw [chars]
  split
  · exact Nat.le_refl _
  · exact Nat.min_le_right _ _

theorem length_cs (s : CString) :
    ((s.bytes.take (dir.chars s)).map signedChar).length = dir.chars s := by
  rw [length_map, List.length_take]
  exact Nat.min_eq_left (dir.chars_le s)

theorem length_field (s : CString) : (dir.field s).length = max dir.fieldWidth (dir.chars s) := by
  rw [field]
  cases dir.flag <;>
    simp only [length_append, length_replicate, length_cs] <;> omega

/-! ## What the scanner finds -/

/-- The flags at the end of a string directive. -/
def flags : Flags :=
  let fl := Flags.afterWidth dir.flag dir.width
  let dotted := { fl with width := if fl.width < 0 then 0 else fl.width }
  match dir.precision with
  | none => fl
  | some 0 => { dotted with padc := byte '0' }
  | some (n + 1) => { dotted with precision := toInt (n + 1 : Nat) }

/-- What the scanner finds at the end of a string directive. -/
def scanned : Directive := ⟨byte 's', dir.text.length, 0, dir.flags⟩

variable {F : Type} {zed : Bool} {fmt : CString} {ap : VaList F} {dir}

theorem scans (hfmt : fmt.bytes = dir.text) : Scans zed fmt ap 1 0 .init dir.scanned := by
  have hdrop : fmt.bytes.drop 1 =
      dir.flag.text ++ (widthText dir.width ++ (precisionText dir.precision ++ [byte 's'])) := by
    rw [hfmt]
    rfl
  have hafter : ∃ c l, precisionText dir.precision ++ [byte 's'] = c :: l ∧ isDigit c = false := by
    rcases dir.precision with _ | n
    · exact ⟨_, _, rfl, by decide⟩
    · exact ⟨_, _, rfl, by decide⟩
  obtain ⟨c, l, hcons, hc⟩ := hafter
  refine Scans.flagWidth hc (by rw [hdrop, hcons]) ?_
  have hprec : fmt.bytes.drop (1 + (dir.flag.text ++ widthText dir.width).length) =
      precisionText dir.precision ++ [byte 's'] := drop_skip (by rw [hdrop, List.append_assoc])
  have hpos : dir.text.length =
      1 + (dir.flag.text ++ widthText dir.width).length +
        (precisionText dir.precision).length + 1 := by
    simp only [text, length_cons, length_append, List.length_nil]
    omega
  have hend := drop_skip hprec
  have hflag : isFlag zed (byte 's') = false := by cases zed <;> decide
  rw [scanned, hpos, flags]
  generalize hi : 1 + (dir.flag.text ++ widthText dir.width).length = i at hprec hend
  rcases hp : dir.precision with _ | _ | n
  · rw [hp] at hprec
    exact Scans.stop hprec hflag
  · rw [hp] at hprec hend
    exact Scans.dot hprec (Scans.zero (drop_next hprec) (Scans.stop hend hflag))
  · rw [hp] at hprec hend
    refine Scans.dot hprec (Scans.number (Nat.succ_pos n) (by decide) (drop_next hprec) ?_)
    have hlen : i + 1 + (numeral 10 (n + 1)).length =
        i + (precisionText (some (n + 1))).length := by
      rw [precisionText, numberText, length_cons, length_map]
      omega
    have hnonneg : ¬ (if (Flags.afterWidth dir.flag dir.width).width < 0 then 0
        else (Flags.afterWidth dir.flag dir.width).width) < 0 := by
      split <;> omega
    rw [hlen, Flags.processPrecision, if_neg hnonneg]
    exact Scans.stop hend hflag

/-! ## When the printers put out the field -/

/-- `width` after the directive: without a width, 0 if there is a precision and −1 if there is none.
-/
theorem width_flags_of_zero (hzero : dir.fieldWidth = 0) :
    dir.flags.width = 0 ∨ dir.flags.width = -1 := by
  have hw : (Flags.afterWidth dir.flag dir.width).width = -1 := by
    rw [fieldWidth] at hzero
    rcases hw : dir.width with _ | _ | m
    · rfl
    · rfl
    · rw [hw] at hzero
      cases hzero
  rw [flags]
  rcases dir.precision with _ | _ | n
  · exact .inr hw
  all_goals
    dsimp only
    rw [hw]
    exact .inl rfl

theorem width_flags (hint : dir.FitsInt) : (0 < dir.fieldWidth ∧ dir.flags.width = dir.fieldWidth) ∨
    (dir.fieldWidth = 0 ∧ (dir.flags.width = 0 ∨ dir.flags.width = -1)) := by
  rcases Nat.eq_zero_or_pos dir.fieldWidth with hzero | hpos
  · exact .inr ⟨hzero, width_flags_of_zero hzero⟩
  · have hlt := hint.1
    have hw : (Flags.afterWidth dir.flag dir.width).width = dir.fieldWidth := by
      rcases Flags.width_afterWidth dir.flag dir.width with ⟨hzero, -⟩ | ⟨-, hw⟩
      · exact absurd hzero (Nat.pos_iff_ne_zero.1 hpos)
      · rw [hw, ← fieldWidth, toInt_eq]
    refine .inl ⟨hpos, ?_⟩
    rw [flags]
    rcases dir.precision with _ | _ | n
    · exact hw
    all_goals
      dsimp only
      rw [hw, if_neg (by omega)]

theorem altflag_flags (dir : StrDirective) : dir.flags.altflag = false := by
  rw [flags]
  rcases dir.precision with _ | _ | n <;> rcases dir.width with _ | _ | m <;> rfl

theorem toInt_width_flags (dir : StrDirective) : toInt dir.flags.width = dir.flags.width := by
  have hwidth : toInt (Flags.afterWidth dir.flag dir.width).width =
      (Flags.afterWidth dir.flag dir.width).width := by
    rcases Flags.width_afterWidth dir.flag dir.width with ⟨-, hw⟩ | ⟨-, hw⟩
    · rw [hw, toInt_eq]
    · have := toInt_toInt_add (dir.width.getD 0) 0
      rwa [Int.add_zero, Int.add_zero, ← hw] at this
  have hrange := toInt_range (Flags.afterWidth dir.flag dir.width).width
  rw [hwidth] at hrange
  rw [flags]
  rcases dir.precision with _ | _ | n
  · exact hwidth
  all_goals
    dsimp only
    split
    · exact toInt_eq
    · exact hwidth

theorem padc_flags (hwidth : 0 < dir.fieldWidth) (hprec : dir.precision ≠ some 0) :
    dir.flags.padc = dir.flag.padc := by
  have hpadc : (Flags.afterWidth dir.flag dir.width).padc = dir.flag.padc := by
    rw [fieldWidth] at hwidth
    rcases hw : dir.width with _ | _ | n
    · rw [hw] at hwidth
      cases hwidth
    · rw [hw] at hwidth
      cases hwidth
    · rfl
  rw [flags, ← hpadc]
  rcases hp : dir.precision with _ | _ | n
  · rfl
  · exact absurd hp hprec
  · rfl

theorem shown_flags (hint : dir.FitsInt) (hprec : dir.precision ≠ some 0) (s : CString) :
    shown dir.flags.precision s.strlen = dir.chars s := by
  have hlt := hint.2
  have hnone : (Flags.afterWidth dir.flag dir.width).precision = -1 := by
    rcases dir.width with _ | _ | m <;> rfl
  rw [flags, chars]
  rcases hp : dir.precision with _ | _ | n
  · dsimp only
    rw [hnone]
    rfl
  · exact absurd hp hprec
  · rw [hp, Option.getD_some] at hlt
    dsimp only
    rw [toInt_eq, shown, if_neg (by omega), Int.toNat_natCast]

theorem flags_of_zero (hprec : dir.precision = some 0) :
    dir.flags.padc = byte '0' ∧ dir.flags.precision = -1 := by
  rw [flags, hprec]
  refine ⟨rfl, ?_⟩
  rcases dir.width with _ | _ | m <;> rfl

/-- **When a directive fills its field.**  With a precision of 0: if the string itself consists of
the characters that the field is to be filled with.  With padding on the right, or without a width:
always, short of a wrap-around of the width.  With padding on the left: if there is nothing to pad
or nothing is cut off, short of a wrap-around. -/
def Fills (dir : StrDirective) (s : CString) : Prop :=
  if dir.precision = some 0 then
    s.strlen ≤ dir.fieldWidth ∧ (∀ c ∈ s.bytes, c = dir.flag.fillChar) ∧
      (s.strlen = dir.fieldWidth ∨ dir.flag = .zero)
  else if dir.fieldWidth = 0 ∨ dir.flag = .minus then
    ¬ (dir.flags.width + 2 ^ 31 < dir.chars s ∧ dir.chars s < dir.flags.width + 2 ^ 32)
  else
    (dir.fieldWidth ≤ dir.chars s ∨ dir.chars s = s.strlen) ∧ s.strlen ≤ dir.fieldWidth + 2 ^ 31 ∧
      ¬ (dir.fieldWidth + 2 ^ 31 < s.strlen + dir.chars s ∧
        s.strlen + dir.chars s < dir.fieldWidth + 2 ^ 32)

variable (s : CString)

theorem right_eq_field_iff (hint : dir.FitsInt) (hprec : dir.precision ≠ some 0)
    (hright : dir.fieldWidth = 0 ∨ dir.flag = .minus) :
    convertString dir.flags s = dir.field s ↔
      ¬ (dir.flags.width + 2 ^ 31 < dir.chars s ∧ dir.chars s < dir.flags.width + 2 ^ 32) := by
  have hwidth := width_flags hint
  have hlt := hint.1
  have hle := dir.chars_le s
  have hlen := s.length_lt
  rw [← Key.strlen] at hlen
  have hnoleft : ¬ (0 < dir.flags.width ∧ dir.flags.padc ≠ byte '-') := by
    rintro ⟨hpos, hpadc⟩
    rcases hright with hzero | hminus
    · omega
    · exact hpadc ((padc_flags (by omega) hprec).trans (by rw [hminus]; rfl))
  have hfield : dir.field s = (s.bytes.take (dir.chars s)).map signedChar ++
      List.replicate (dir.fieldWidth - dir.chars s) (chr ' ') := by
    rw [field]
    rcases hright with hzero | hminus
    · rw [hzero, Nat.zero_sub]
      cases dir.flag <;> simp
    · rw [hminus]
      rfl
  obtain ⟨q, hq⟩ := toInt_eq_sub (dir.flags.width - dir.chars s)
  have hrange := toInt_range (dir.flags.width - dir.chars s)
  rw [convertString_eq dir.altflag_flags dir.toInt_width_flags, shown_flags hint hprec, hfield]
  rw [if_neg hnoleft, List.append_cancel_left_eq, pad, ← chr, List.replicate_inj]
  omega

/-- The arithmetic of padding on the left, for a width `W` and `M` of `L` characters: `x` is what is
padded on the left and `y` what is padded on the right.  Together they are what is missing in the
cases named, and then nothing is padded on the right. -/
theorem padding_iff {W M L : Nat} {x y : Int} (hW : 0 < W) (hint : W < 2 ^ 31) (hM : M ≤ L)
    (hL : L < 2 ^ 32) (hx : x = toInt (W - L)) (hy : y = toInt (min x 0 - M)) :
    (x.toNat + y.toNat = W - M ↔ (W ≤ M ∨ M = L) ∧ L ≤ W + 2 ^ 31 ∧
      ¬ (W + 2 ^ 31 < L + M ∧ L + M < W + 2 ^ 32)) ∧
    (x.toNat + y.toNat = W - M → y.toNat = 0) := by
  have hrange := toInt_range (W - L)
  have hrange' := toInt_range (min x 0 - M)
  obtain ⟨q, hq⟩ := toInt_eq_sub (W - L)
  obtain ⟨q', hq'⟩ := toInt_eq_sub (min x 0 - M)
  rw [← hx] at hrange hq
  rw [← hy] at hrange' hq'
  have hwrap : q = 0 ∨ q = -1 := by omega
  rcases hwrap with rfl | rfl
  · rcases Nat.lt_or_ge L W with hlt | hge
    · have hmin : min x 0 = 0 := by omega
      rw [hmin] at hq'
      obtain rfl : q' = 0 := by omega
      omega
    · have hmin : min x 0 = x := by omega
      rw [hmin] at hq'
      have hwrap' : q' = 0 ∨ q' = -1 ∨ q' = -2 := by omega
      rcases hwrap' with rfl | rfl | rfl <;> omega
  · have hmin : min x 0 = 0 := by omega
    rw [hmin] at hq'
    have hwrap' : q' = 0 ∨ q' = -1 := by omega
    rcases hwrap' with rfl | rfl <;> omega

theorem left_eq_field_iff (hint : dir.FitsInt) (hprec : dir.precision ≠ some 0)
    (hpos : 0 < dir.fieldWidth) (hminus : dir.flag ≠ .minus) :
    convertString dir.flags s = dir.field s ↔
      (dir.fieldWidth ≤ dir.chars s ∨ dir.chars s = s.strlen) ∧
        s.strlen ≤ dir.fieldWidth + 2 ^ 31 ∧
        ¬ (dir.fieldWidth + 2 ^ 31 < s.strlen + dir.chars s ∧
          s.strlen + dir.chars s < dir.fieldWidth + 2 ^ 32) := by
  have hwidth := width_flags hint
  have hlt := hint.1
  have hle := dir.chars_le s
  have hlen := s.length_lt
  rw [← Key.strlen] at hlen
  have hpadc := padc_flags hpos hprec
  have hfill : dir.flag.fillChar = dir.flag.padc ∧ dir.flag.padc ≠ byte '-' := by
    cases hflag : dir.flag with
    | none | zero => decide
    | minus => exact absurd hflag hminus
  have hfield : dir.field s = List.replicate (dir.fieldWidth - dir.chars s)
      (dir.flag.padc.toNat : Int) ++ (s.bytes.take (dir.chars s)).map signedChar := by
    rw [field, ← hfill.1]
    cases hflag : dir.flag with
    | none | zero => rfl
    | minus => exact absurd hflag hminus
  have hw : dir.flags.width = dir.fieldWidth := by omega
  rw [convertString_eq dir.altflag_flags dir.toInt_width_flags, shown_flags hint hprec, hpadc,
    hw]
  dsimp only
  rw [if_pos ⟨by omega, hfill.2⟩, pad, pad]
  -- the length decides: if it is right, then nothing is padded on the right
  obtain ⟨hiff, hnoright⟩ := padding_iff hpos hlt hle hlen rfl rfl
  rw [← hiff]
  constructor
  · intro h
    have hlength := congrArg List.length h
    rw [length_field] at hlength
    simp only [length_append, length_replicate, length_cs] at hlength
    omega
  · intro h
    rw [hfield, ← h, hnoright h, Nat.add_zero, replicate_zero, append_nil]

theorem signedChar_eq_fillChar (flag : PadFlag) (c : UInt8) :
    signedChar c = flag.fillChar.toNat ↔ c = flag.fillChar := by
  have hfill : flag.fillChar.toNat < 128 := by cases flag <;> decide
  have hlt := c.toNat_lt
  rw [signedChar, ← UInt8.toNat_inj]
  split
  · omega
  · rename_i hlarge
    rw [UInt8.lt_iff_toNat_lt] at hlarge
    have hlarge' : ¬ c.toNat < 128 := hlarge
    omega

theorem zero_eq_field_iff (hint : dir.FitsInt) (hprec : dir.precision = some 0) :
    convertString dir.flags s = dir.field s ↔
      s.strlen ≤ dir.fieldWidth ∧ (∀ c ∈ s.bytes, c = dir.flag.fillChar) ∧
        (s.strlen = dir.fieldWidth ∨ dir.flag = .zero) := by
  have hwidth := width_flags hint
  have hlt := hint.1
  have hlen := s.length_lt
  rw [← Key.strlen] at hlen
  obtain ⟨hpadc, hnone⟩ := flags_of_zero hprec
  have hchars : dir.chars s = 0 := by
    rw [chars, hprec]
    exact Nat.zero_min _
  have hfield : dir.field s = List.replicate dir.fieldWidth (dir.flag.fillChar.toNat : Int) := by
    rw [field, hchars, Nat.sub_zero]
    cases dir.flag <;> simp
  have hall : shown dir.flags.precision s.strlen = s.strlen := by
    rw [hnone]
    rfl
  have htake : s.bytes.take s.strlen = s.bytes := List.take_length
  have htext := convertString_eq dir.altflag_flags dir.toInt_width_flags s
  rw [hall, hpadc, htake] at htext
  dsimp only at htext
  have hsl : (s.bytes.map signedChar).length = s.strlen := length_map _
  rcases Nat.lt_or_ge dir.fieldWidth s.strlen with hlong | hfits
  · -- the whole string is put out, and that is too long
    refine iff_of_false (fun h => ?_) fun h => Nat.not_le.2 hlong h.1
    have hlength := congrArg List.length h
    rw [htext, hfield, length_replicate] at hlength
    split at hlength <;> simp only [length_append, hsl] at hlength <;> omega
  · have hzeros : convertString dir.flags s =
        List.replicate (dir.fieldWidth - s.strlen) (chr '0') ++ s.bytes.map signedChar := by
      rw [htext]
      split
      · have hw : dir.flags.width = dir.fieldWidth := by omega
        rw [hw, toInt_eq, toInt_eq, pad, pad,
          show (min ((dir.fieldWidth : Int) - s.strlen) 0 - s.strlen).toNat = 0 by omega,
          show ((dir.fieldWidth : Int) - s.strlen).toNat = dir.fieldWidth - s.strlen by omega,
          replicate_zero, append_nil, chr]
      · rename_i hnowidth
        have hw : dir.flags.width ≤ 0 := Int.not_lt.1 fun hpos => hnowidth ⟨hpos, by decide⟩
        rw [toInt_eq, pad,
          show (dir.flags.width - s.strlen).toNat = 0 by omega,
          show dir.fieldWidth - s.strlen = 0 by omega, replicate_zero, replicate_zero,
          append_nil, List.nil_append]
    have hzero : chr '0' = dir.flag.fillChar.toNat ↔ dir.flag = .zero := by
      cases dir.flag <;> decide
    rw [hzeros, hfield, List.eq_replicate_iff, length_append, length_replicate, hsl,
      ← hzero]
    simp only [List.mem_append, List.mem_replicate, List.mem_map]
    constructor
    · rintro ⟨-, h⟩
      refine ⟨hfits, fun c hc => ?_, ?_⟩
      · exact (signedChar_eq_fillChar dir.flag c).1 (h _ (.inr ⟨c, hc, rfl⟩))
      · rcases Nat.eq_or_lt_of_le hfits with heq | hlt'
        · exact .inl heq
        · exact .inr (h _ (.inl ⟨by omega, rfl⟩))
    · rintro ⟨-, hchars, hpad⟩
      refine ⟨by omega, ?_⟩
      rintro b (⟨hne, rfl⟩ | ⟨c, hc, rfl⟩)
      · exact hpad.resolve_left (by omega)
      · exact (signedChar_eq_fillChar dir.flag c).2 (hchars c hc)

theorem convertString_eq_field_iff (hint : dir.FitsInt) :
    convertString dir.flags s = dir.field s ↔ dir.Fills s := by
  rw [Fills]
  split
  · rename_i hprec
    exact zero_eq_field_iff s hint hprec
  · rename_i hprec
    split
    · rename_i hright
      exact right_eq_field_iff s hint hprec hright
    · rename_i hleft
      obtain ⟨hpos, hminus⟩ := not_or.1 hleft
      exact left_eq_field_iff s hint hprec (Nat.pos_of_ne_zero hpos) hminus

/-! ## Widths and precisions of any size

A width or a precision that does not fit into an `int` is taken for another one, and then the
string's own characters may stand for the padding that is missing.  For a string without spaces and
zeros, the numbers of characters decide. -/

/-- How many characters the code puts out before the string, of it and after it. -/
def counts (dir : StrDirective) (s : CString) : Nat × Nat × Nat :=
  let shown := shown dir.flags.precision s.strlen
  if 0 < dir.flags.width ∧ dir.flags.padc ≠ byte '-' then
    let left := toInt (dir.flags.width - s.strlen)
    (left.toNat, shown, (toInt (min left 0 - shown)).toNat)
  else (0, shown, (toInt (dir.flags.width - shown)).toNat)

/-- How many characters the field has before the string, of it and after it. -/
def fieldCounts (dir : StrDirective) (s : CString) : Nat × Nat × Nat :=
  match dir.flag with
  | .minus => (0, dir.chars s, dir.fieldWidth - dir.chars s)
  | _ => (dir.fieldWidth - dir.chars s, dir.chars s, 0)

/-- The string with padding on both sides. -/
def padded (s : CString) (c : Int) (n : Nat × Nat × Nat) : List Int :=
  List.replicate n.1 c ++
    ((s.bytes.map signedChar).take n.2.1 ++ List.replicate n.2.2 (chr ' '))

theorem convertString_eq_padded :
    convertString dir.flags s = padded s (dir.flags.padc.toNat : Int) (dir.counts s) := by
  rw [convertString_eq dir.altflag_flags dir.toInt_width_flags, counts, padded]
  dsimp only
  split
  · rw [pad, pad, ← chr, List.map_take, List.append_assoc]
  · rw [pad, ← chr, List.map_take]
    rfl

theorem field_eq_padded :
    dir.field s = padded s (dir.flag.fillChar.toNat : Int) (dir.fieldCounts s) := by
  rw [field, fieldCounts, padded]
  cases dir.flag <;> simp [PadFlag.fillChar, chr, List.map_take]

theorem shown_le (precision : Int) (len : Nat) : shown precision len ≤ len := by
  rw [shown]
  split
  · exact Nat.le_refl _
  · exact Nat.min_le_right _ _

theorem filter_mem_middle {l bs bs' : List Int} (k : Nat) (hbs : ∀ b ∈ bs, b ∉ l)
    (hbs' : ∀ b ∈ bs', b ∉ l) : (bs ++ (l.take k ++ bs')).filter (· ∈ l) = l.take k := by
  have hnone {cs : List Int} (hcs : ∀ b ∈ cs, b ∉ l) : cs.filter (· ∈ l) = [] := by
    simpa using hcs
  have hall : (l.take k).filter (· ∈ l) = l.take k :=
    List.filter_eq_self.2 fun _ hb => decide_eq_true (List.mem_of_mem_take hb)
  rw [List.filter_append, List.filter_append, hnone hbs, hnone hbs', hall, append_nil,
    List.nil_append]

theorem takeWhile_notMem {l bs rest : List Int} {b : Int} (hbs : ∀ b ∈ bs, b ∉ l) (hb : b ∈ l) :
    (bs ++ b :: rest).takeWhile (· ∉ l) = bs := by
  rw [List.takeWhile_append_of_pos (by simpa using hbs),
    List.takeWhile_cons_of_neg (by simpa using hb), append_nil]

/-- Where no padding character is in the string and some of the string is there, the text shows how
much there is of each. -/
theorem padded_inj {c c' : Int} {n n' : Nat × Nat × Nat}
    (hc : ∀ b ∈ List.replicate n.1 c, b ∉ s.bytes.map signedChar)
    (hc' : ∀ b ∈ List.replicate n'.1 c', b ∉ s.bytes.map signedChar)
    (hspace : chr ' ' ∉ s.bytes.map signedChar)
    (hn : n.2.1 ≤ s.strlen) (hn' : n'.2.1 ≤ s.strlen) (hpos : 0 < n'.2.1)
    (h : padded s c n = padded s c' n') : n = n' := by
  obtain ⟨x, k, y⟩ := n
  obtain ⟨x', k', y'⟩ := n'
  dsimp only [padded] at *
  have hlen : (s.bytes.map signedChar).length = s.strlen := length_map _
  generalize s.bytes.map signedChar = l at *
  have hspaces (y : Nat) : ∀ b ∈ List.replicate y (chr ' '), b ∉ l := by
    intro b hb
    rwa [List.eq_of_mem_replicate hb]
  -- the characters of the string are those that are no padding
  have hk : k = k' := by
    have hfilter := congrArg (fun bs => (bs.filter (· ∈ l)).length) h
    rw [filter_mem_middle k hc (hspaces y), filter_mem_middle k' hc' (hspaces y'),
      List.length_take, List.length_take] at hfilter
    omega
  subst hk
  obtain ⟨b, bs, hl⟩ : ∃ b bs, l.take k = b :: bs := by
    refine List.exists_cons_of_length_pos ?_
    rw [List.length_take]
    omega
  have hb : b ∈ l := List.mem_of_mem_take (hl ▸ List.mem_cons_self)
  -- the padding on the left is what comes before them
  have hx : x = x' := by
    have htake := congrArg (fun bs => (bs.takeWhile (· ∉ l)).length) h
    rwa [hl, List.cons_append, List.cons_append, takeWhile_notMem hc hb, takeWhile_notMem hc' hb,
      length_replicate, length_replicate] at htake
  have hy := congrArg List.length h
  simp only [length_append, length_replicate] at hy
  simp only [Prod.mk.injEq, true_and]
  omega

/-- The string has no spaces and no zeros, and some of it is in the field. -/
def Plain (dir : StrDirective) (s : CString) : Prop :=
  (∀ c ∈ s.bytes, c ≠ byte ' ' ∧ c ≠ byte '0') ∧ dir.chars s ≠ 0

theorem Plain.not_mem (h : dir.Plain s) (flag : PadFlag) :
    (flag.fillChar.toNat : Int) ∉ s.bytes.map signedChar := by
  intro hmem
  obtain ⟨c, hc, heq⟩ := List.mem_map.1 hmem
  have hfill := (signedChar_eq_fillChar flag c).1 heq
  have hne := h.1 c hc
  cases flag with
  | zero => exact hne.2 hfill
  | none | minus => exact hne.1 hfill

theorem padc_of_left (h : dir.Plain s) (hleft : (dir.counts s).1 ≠ 0) :
    dir.flags.padc = dir.flag.fillChar := by
  rw [counts] at hleft
  split at hleft
  · rename_i hpad
    have hpos : 0 < dir.fieldWidth := by
      refine Nat.pos_of_ne_zero fun hzero => ?_
      have := width_flags_of_zero hzero
      omega
    have hprec : dir.precision ≠ some 0 := by
      intro hzero
      refine h.2 ?_
      rw [chars, hzero]
      exact Nat.zero_min _
    have hminus := hpad.2
    rw [padc_flags hpos hprec] at hminus ⊢
    cases hflag : dir.flag with
    | none | zero => rfl
    | minus => exact absurd (congrArg PadFlag.padc hflag) hminus
  · exact absurd rfl hleft

/-- **When a directive fills its field**, whatever its width and its precision are. -/
theorem counts_eq_iff (h : dir.Plain s) :
    convertString dir.flags s = dir.field s ↔ dir.counts s = dir.fieldCounts s := by
  have hshown : (dir.counts s).2.1 = shown dir.flags.precision s.strlen := by
    rw [counts]
    split <;> rfl
  have hchars : (dir.fieldCounts s).2.1 = dir.chars s := by
    rw [fieldCounts]
    cases dir.flag <;> rfl
  rw [convertString_eq_padded, field_eq_padded]
  constructor
  · refine padded_inj s (fun b hb => ?_) (fun b hb => ?_) (h.not_mem s .none)
      (hshown ▸ shown_le _ _) (hchars ▸ dir.chars_le s) (hchars ▸ Nat.pos_of_ne_zero h.2)
    · obtain ⟨hleft, rfl⟩ := List.mem_replicate.1 hb
      rw [padc_of_left s h hleft]
      exact h.not_mem s dir.flag
    · rw [List.eq_of_mem_replicate hb]
      exact h.not_mem s dir.flag
  · intro heq
    rcases eq_or_ne (dir.counts s).1 0 with hnone | hleft
    · rw [← heq, padded, padded, hnone, replicate_zero, replicate_zero]
    · rw [← heq, padc_of_left s h hleft]

end StrDirective

/-- **String conversions and their fields.**  The field has `max(W, M)` characters.  Both printers
put out the same text for a string directive.  If the width and the precision fit into an `int`, it
is the field exactly if the directive `Fills` it.  Whether they fit or not, it is the field of a
string without spaces and zeros exactly if the counts of the code are those of the field. -/
theorem strDirective_field_iff {F : Type} [LongDouble F] {dir : StrDirective} {fmt : CString}
    (hfmt : fmt.bytes = dir.text) (ap : VaList F) {s : CString} (hs : (ap 0).str = some s) :
    (dir.field s).length = max dir.fieldWidth (dir.chars s) ∧
      ∃ cs, vprintfmt record fmt ap [] = .ok cs ∧ vsnprintfmt record fmt ap [] = .ok cs ∧
        (dir.FitsInt → (cs = dir.field s ↔ dir.Fills s)) ∧
        (dir.Plain s → (cs = dir.field s ↔ dir.counts s = dir.fieldCounts s)) := by
  have hstr : (ap 0).str.getD nullText = s := by
    rw [hs]
    rfl
  have hsn : snConvert ap dir.scanned = .ok ⟨convertString dir.flags s, dir.text.length, 1⟩ := by
    rw [← hstr]
    rfl
  have hpr : prConvert fmt ap dir.scanned =
      .ok ⟨convertString dir.flags s, dir.text.length, 1⟩ := by
    rw [← hstr]
    rfl
  have hpos : dir.text.length = fmt.strlen := by rw [Key.strlen, hfmt]
  exact ⟨dir.length_field s, convertString dir.flags s,
    format_directive prPrinter hfmt (StrDirective.scans hfmt) hpr hpos,
    format_directive snPrinter hfmt (StrDirective.scans hfmt) hsn hpos,
    StrDirective.convertString_eq_field_iff s, StrDirective.counts_eq_iff s⟩

/-- The string `abc` for `%5.3s`. -/
theorem strDirective_field_iff_abc :
    vsnprintfmt record ⟨['%', '5', '.', '3', 's'].map byte, by decide, by decide⟩
      (fun _ => (⟨0, 0, some ⟨['a', 'b', 'c'].map byte, by decide, by decide⟩, ()⟩ : Arg Unit)) [] =
        .ok ([' ', ' ', 'a', 'b', 'c'].map chr) := by
  have htext : Key.bytes ⟨['%', '5', '.', '3', 's'].map byte, by decide, by decide⟩ =
      StrDirective.text ⟨.none, some 5, some 3⟩ := by decide +kernel
  obtain ⟨-, cs, -, hsn, hcs, -⟩ := strDirective_field_iff htext
    (fun _ => (⟨0, 0, some ⟨['a', 'b', 'c'].map byte, by decide, by decide⟩, ()⟩ : Arg Unit)) rfl
  have hint : StrDirective.FitsInt ⟨.none, some 5, some 3⟩ := ⟨by decide, by decide⟩
  rw [hsn, (hcs hint).2 ⟨.inr (by decide), by decide, by decide⟩]
  decide +kernel

/-- **`%5.2s` for the string `abcd`** has three characters, one of them a space, where there should
be three spaces. -/
theorem not_field_cut :
    vprintfmt record ⟨['%', '5', '.', '2', 's'].map byte, by decide, by decide⟩
        (fun _ => (⟨0, 0, some ⟨['a', 'b', 'c', 'd'].map byte, by decide, by decide⟩, ()⟩ :
          Arg Unit)) [] = .ok ([' ', 'a', 'b'].map chr) ∧
      vsnprintfmt record ⟨['%', '5', '.', '2', 's'].map byte, by decide, by decide⟩
        (fun _ => (⟨0, 0, some ⟨['a', 'b', 'c', 'd'].map byte, by decide, by decide⟩, ()⟩ :
          Arg Unit)) [] = .ok ([' ', 'a', 'b'].map chr) ∧
      StrDirective.field ⟨.none, some 5, some 2⟩
        ⟨['a', 'b', 'c', 'd'].map byte, by decide, by decide⟩ =
          [' ', ' ', ' ', 'a', 'b'].map chr := by
  decide +kernel

end JinxOS
